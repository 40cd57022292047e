import Monomorph.FrontEnd.Basic

/-!
# Fixpoint — work until none is left

Types go first, then globals and constants in alternation, then one callable: a function if there is
one, else a lambda, a static, a method.  When nothing waits the virtual calls are resolved; the run
ends with the round that finds no new target.  A run takes as many steps as it is given, and one
that is not over after them is still a run.
-/

namespace Monomorph

/-- What is taken up next. -/
inductive Turn
  | types
  | globals
  | consts
deriving DecidableEq

namespace Turn

def callables : List Lane := [.functions, .lambdas, .statics, .methods]

/-- The lanes in the order they are looked at. -/
def lanes : Turn → List Lane
  | .types => .types :: .globals :: .consts :: callables
  | .globals => .globals :: .consts :: callables ++ [.types]
  | .consts => .consts :: .globals :: callables ++ [.types]

/-- The turn after an item of a lane. -/
def after : Lane → Turn
  | .globals => .consts
  | .consts => .globals
  | _ => .types

end Turn

/-- A run under way. -/
structure Run (σ : Type) where
  state : σ
  session : Session
  turn : Turn := .types
  /-- Rounds of dispatch so far. -/
  rounds : Nat := 0

/-- What a run has come to. -/
inductive Progress (σ : Type)
  | running (r : Run σ)
  | ended (result : Except Stop Unit) (r : Run σ)

/-- The failure of a run that found new targets in every round it was allowed. -/
def Failure.noConvergence (rounds : Nat) : Failure :=
  .hard "fixpoint" ("no convergence after " ++ toString rounds ++ " rounds")

namespace Run

variable {σ : Type}

/-- Have the front end process an item. -/
def process (fe : FrontEnd σ) (r : Run σ) (i : Item) : Progress σ :=
  match (fe.process i).run r.state r.session with
  | (.ok (), state, session) => .running { r with state, session }
  | (.error why, state, session) => .ended (.error (why.ofItem i.key)) { r with state, session }

/-- Resolve the virtual calls once. -/
def dispatch (fe : FrontEnd σ) (maxRounds : Option UInt64) (r : Run σ) : Progress σ :=
  let s := r.session
  match (fe.hierarchy r.state).targets s.program s.instances s.calls with
  | .error f => .ended (.error (.fault f)) r
  | .ok ts =>
      let (fresh, session) := s.record ts
      let r := { r with session, turn := .types, rounds := r.rounds + 1 }
      if fresh = 0 then .ended (.ok ()) r
      else if maxRounds.any fun n => n.toNat ≤ r.rounds then
        .ended (.error (.failure (.noConvergence r.rounds))) r
      else .running r

/-- Process the next item, or resolve the virtual calls if none waits. -/
def step (fe : FrontEnd σ) (maxRounds : Option UInt64) (r : Run σ) : Progress σ :=
  match r.session.queues.popFirst? r.turn.lanes with
  | some (lane, i, queues) =>
      process fe { r with session := { r.session with queues }, turn := .after lane } i
  | none => dispatch fe maxRounds r

/-- So many steps, or as many as there are. -/
def advance (fe : FrontEnd σ) (maxRounds : Option UInt64) : Nat → Run σ → Progress σ
  | 0, r => .running r
  | n + 1, r => match step fe maxRounds r with
    | .running r => advance fe maxRounds n r
    | .ended result r => .ended result r

end Run

end Monomorph
