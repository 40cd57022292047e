import Monomorph.Assembly.Subtypes
import Monomorph.Body.VarTypes
import Monomorph.Config.Basic
import Monomorph.Fixpoint

/-!
# Generate — from a program to a closed assembly

A run starts from the core types and the entry points.  Where it ends without complaint the
patterns are collected, the final checks are made, and the assembly is closed: vtables completed,
supertypes recorded, names given types.  Whatever was complained about is reported together, and
then there is no assembly.
-/

namespace Monomorph

namespace Session

/-- Ask for the core types that take no parameters, those there are. -/
def seedTypes (core : String) : List String → Change Unit
  | [] => return ()
  | name :: rest => do
      let p := (← get).program
      match p.findType? core name with
      | none => seedTypes core rest
      | some t =>
          let d ← p.type t
          if d.terms.isEmpty then
            let _ ← intern (.nominal d ∅)
          seedTypes core rest

/-- Ask for the entry points. -/
def seedEntryPoints : List InvokeDecl → Change Unit
  | [] => return ()
  | d :: rest => do
      let key ← fun s => s.request (.function d.id ∅ [])
      modify fun s =>
        { s with assembly.entryPoints := s.assembly.entryPoints ++ [key] }
      seedEntryPoints rest

/-- The session a specialization starts from. -/
def seeded (p : Program) (c : Config) : Except Fault Session := do
  let ((), s) ← (seedTypes c.coreNamespace c.coreTypes).run (new p c.coreNamespace)
  let ((), s) ← (seedEntryPoints (p.entryPoints c.entryAttribute)).run s
  return s

end Session

namespace Assembly

/-- Give types to the names in every body. -/
def typed (m : Assembly) (core : String) : Assembly :=
  { m with callables := m.callables.map fun c =>
      { c with body := { c.body with types := some (m.inferTypes core c) } } }

/-- Complete an assembly to which nothing more is added. -/
def close (m : Assembly) (c : Config) : Except Fault Assembly := do
  let m ← m.closeVtables
  let m ← m.recordSubtypes
  return if c.inferTypes then m.typed c.coreNamespace else m

end Assembly

/-- What a specialization comes to. -/
inductive Outcome
  | closed (m : Assembly)
  /-- Everything that was complained about. -/
  | rejected (diagnostics : List Diagnostic)
  | fault (f : Fault)
  /-- The steps given were too few. -/
  | unfinished

namespace Run

variable {σ : Type}

/-- Collect patterns and make the final checks, unless there are complaints. -/
def conclude (fe : FrontEnd σ) (r : Run σ) : Except Stop Unit × Run σ :=
  if (fe.diagnostics r.state).isEmpty then
    let last := fe.collectPatterns.bind fun () => fe.finalChecks
    let (result, state, session) := last.run r.state r.session
    (result, { r with state, session })
  else (.ok (), r)

/-- The outcome of a run that has ended. -/
def outcome (fe : FrontEnd σ) (c : Config) (result : Except Stop Unit) (r : Run σ) : Outcome :=
  let complaints := fe.diagnostics r.state
  match result with
  | .error (.fault f) => .fault f
  | .error (.failure f) => .rejected (complaints ++ [{ message := f.text }])
  | .ok () =>
      if complaints.isEmpty then
        match r.session.assembly.close c with
        | .ok m => .closed m
        | .error f => .fault f
      else .rejected complaints

end Run

/-- Specialize a program in at most so many steps, and the state the front end is left in. -/
def generate {σ : Type} (fe : FrontEnd σ) (c : Config) (steps : Nat) (state : σ) (p : Program) :
    Outcome × σ :=
  match Session.seeded p c with
  | .error f => (.fault f, state)
  | .ok session =>
      match Run.advance fe c.maxRounds steps { state, session } with
      | .running r => (.unfinished, r.state)
      | .ended (.error why) r => (r.outcome fe c (.error why), r.state)
      | .ended (.ok ()) r =>
          let (result, r) := r.conclude fe
          (r.outcome fe c result, r.state)

end Monomorph
