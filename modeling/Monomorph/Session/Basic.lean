import Monomorph.Body.Builder
import Monomorph.Session.Work
import Monomorph.WorkQueue

/-!
# Session/Basic — the state of one specialization

A session holds the assembly so far, the body being written, and the work that waits.  `request`
asks for a piece of work and answers its key; asked for twice, it is done once.  Virtual calls are
written down as they are met, and their targets found when no work is left.
-/

namespace Monomorph

/-- The work that waits, lane by lane. -/
structure Queues where
  types : WorkQueue Item := ∅
  globals : WorkQueue Item := ∅
  consts : WorkQueue Item := ∅
  functions : WorkQueue Item := ∅
  lambdas : WorkQueue Item := ∅
  statics : WorkQueue Item := ∅
  methods : WorkQueue Item := ∅

namespace Queues

def get (q : Queues) : Lane → WorkQueue Item
  | .types => q.types
  | .globals => q.globals
  | .consts => q.consts
  | .functions => q.functions
  | .lambdas => q.lambdas
  | .statics => q.statics
  | .methods => q.methods

def set (q : Queues) (l : Lane) (w : WorkQueue Item) : Queues :=
  match l with
  | .types => { q with types := w }
  | .globals => { q with globals := w }
  | .consts => { q with consts := w }
  | .functions => { q with functions := w }
  | .lambdas => { q with lambdas := w }
  | .statics => { q with statics := w }
  | .methods => { q with methods := w }

@[simp] theorem get_set_self (q : Queues) (l : Lane) (w : WorkQueue Item) :
    (q.set l w).get l = w := by
  cases l <;> rfl

theorem get_set_ne (q : Queues) {l l' : Lane} (w : WorkQueue Item) (h : l' ≠ l) :
    (q.set l w).get l' = q.get l' := by
  cases l <;> cases l' <;> first | rfl | exact absurd rfl h

/-- Put an item in its lane. -/
def push (q : Queues) (i : Item) : Queues :=
  q.set i.work.lane ((q.get i.work.lane).push i.key i)

/-- The first item of the first lane that is not empty, with its lane. -/
def popFirst? (q : Queues) : List Lane → Option (Lane × Item × Queues)
  | [] => none
  | l :: rest => match (q.get l).pop with
    | some (i, w) => some (l, i, q.set l w)
    | none => q.popFirst? rest

/-- Number of items waiting in all lanes. -/
def size (q : Queues) : Nat :=
  (Lane.all.map fun l => (q.get l).size).foldl (· + ·) 0

end Queues

/-- A nominal type that was asked for. -/
structure TypeInstance where
  key : String
  decl : TypeId
  binds : Binds

/-- A virtual call. -/
structure VirtualCall where
  /-- Static type of the receiver. -/
  receiver : Ty
  name : String
  binds : Binds
  closures : List Closure

/-- The slot a virtual call goes through. -/
def VirtualCall.slot (c : VirtualCall) : String :=
  Key.virtual c.name c.binds

structure Session where
  program : Program
  assembly : Assembly := ∅
  builder : Builder
  queues : Queues := {}
  /-- The nominal types asked for, in that order. -/
  instances : List TypeInstance := []
  /-- The virtual calls met, one for a slot and a receiver, in that order. -/
  calls : List VirtualCall := []

namespace Session

/-- A session at the start. -/
def new (p : Program) (core : String) : Session where
  program := p
  builder := .new core

/-- Number of items waiting. -/
def pending (s : Session) : Nat :=
  s.queues.size

/-- Put an item in its lane, and a new type on record. -/
def enqueue (s : Session) (i : Item) : Session :=
  let seen := (s.queues.get i.work.lane).contains i.key
  { s with
    queues := s.queues.push i
    instances := match i.work with
      | .type decl binds => if seen then s.instances else s.instances ++ [⟨i.key, decl, binds⟩]
      | _ => s.instances }

/-- Ask for a piece of work, which is then done once unless the assembly holds it already. -/
def request (s : Session) (w : Work) : Except Fault (String × Session) := do
  let key ← w.key s.program
  return (key, if s.assembly.isFinished w.lane key then s else s.enqueue { key, work := w })

/-- Write down a virtual call, unless one through the same slot at the same receiver was. -/
def noteCall (s : Session) (c : VirtualCall) : String × Session :=
  let known := s.calls.any fun d => d.slot = c.slot && d.receiver.key = c.receiver.key
  (c.slot, if known then s else { s with calls := s.calls ++ [c] })

end Session

end Monomorph
