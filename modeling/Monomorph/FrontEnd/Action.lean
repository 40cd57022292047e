import Monomorph.Session.Intern

/-!
# FrontEnd/Action — what a front end does with a session

An action reads and writes the state of the front end, the assembly and the body being written.  The
queues it reaches through requests only, each answered with a key.  An action that stops leaves
behind what it did so far.
-/

namespace Monomorph

/-- Steps of a front end with state `σ` that come to an `α`. -/
inductive Action (σ α : Type)
  | done (a : α)
  | stop (why : Stop)
  /-- Ask for a piece of work. -/
  | request (w : Work) (next : String → Action σ α)
  /-- Store a type, and all that it mentions. -/
  | intern (t : Ty) (next : Interned → Action σ α)
  | noteCall (c : VirtualCall) (next : String → Action σ α)
  | look (next : σ → Session → Action σ α)
  | change (state : σ → σ) (assembly : Assembly → Assembly) (next : Action σ α)
  /-- Take a step in the body being written. -/
  | build (step : Builder.Step) (next : Builder.Answer → Action σ α)

namespace Action

variable {σ α β : Type}

def bind (a : Action σ α) (f : α → Action σ β) : Action σ β :=
  match a with
  | .done x => f x
  | .stop why => .stop why
  | .request w next => .request w fun k => (next k).bind f
  | .intern t next => .intern t fun i => (next i).bind f
  | .noteCall c next => .noteCall c fun k => (next k).bind f
  | .look next => .look fun st s => (next st s).bind f
  | .change g h next => .change g h (next.bind f)
  | .build b next => .build b fun r => (next r).bind f

instance : Monad (Action σ) where
  pure := .done
  bind := bind

/-- Ask for a piece of work. -/
def ask (w : Work) : Action σ String := .request w .done

/-- Store a type, and answer its key. -/
def internKey (t : Ty) : Action σ String := .intern t fun i => .done i.key

/-- The state of the front end and the session. -/
def observe : Action σ (σ × Session) := .look fun st s => .done (st, s)

def modifyState (f : σ → σ) : Action σ Unit := .change f id (.done ())

def modifyAssembly (f : Assembly → Assembly) : Action σ Unit := .change id f (.done ())

def step (b : Builder.Step) : Action σ Builder.Answer := .build b .done

def fail (f : Failure) : Action σ α := .stop (.failure f)

/-- A new temporary of the body being written. -/
def freshTemp : Action σ Temp :=
  .look fun _ s => .build .freshTemp fun _ => .done s.builder.freshTemp.1

/-- Append an operation to the body being written. -/
def emit (p : Position) (i : Instr Operand) : Action σ Unit :=
  .build (.emit ⟨p, i⟩) fun _ => .done ()

/-- The value, or its fault. -/
def ofExcept : Except Fault α → Action σ α
  | .ok a => .done a
  | .error f => .stop (.fault f)

/-- The value, or why there is none. -/
def orStop : Except Stop α → Action σ α
  | .ok a => .done a
  | .error why => .stop why

/-- Run an action. -/
def run : Action σ α → σ → Session → Except Stop α × σ × Session
  | .done a, st, s => (.ok a, st, s)
  | .stop why, st, s => (.error why, st, s)
  | .request w next, st, s => match s.request w with
    | .ok (k, s) => (next k).run st s
    | .error f => (.error (.fault f), st, s)
  | .intern t next, st, s => match (Session.intern t).run s with
    | .ok (i, s) => (next i).run st s
    | .error f => (.error (.fault f), st, s)
  | .noteCall c next, st, s => (next (s.noteCall c).1).run st (s.noteCall c).2
  | .look next, st, s => (next st s).run st s
  | .change g h next, st, s => next.run (g st) { s with assembly := h s.assembly }
  | .build b next, st, s => match s.builder.run b with
    | (.ok r, b) => (next r).run st { s with builder := b }
    | (.error f, b) => (.error (.fault f), st, { s with builder := b })

end Action

end Monomorph
