import Monomorph.Session.Basic

/-!
# Session/Dispatch — the methods that virtual calls may run

Every virtual call is paired with every type asked for that is a subtype of its receiver, concepts
included, since an instance may be reached through a wider view.  The method such an instance runs
is a target.  `record` puts the targets into the slots of their types and asks for those that are
new.
-/

namespace Monomorph

/-- Where the method is that an instance runs. -/
structure Found where
  containing : TypeId
  outer : Binds
  decl : InvokeId

/-- What dispatch has to know about types. -/
structure Hierarchy where
  isSubtype : Ty → Ty → Except Fault Bool
  /-- The one method of that name an instance of the type runs, if there is one. -/
  method? : Ty → String → Except Fault (Option Found)

/-- A method that a virtual call may run, and the slot it fills. -/
structure Target where
  key : String
  member : Member
  filling : Filling

def Target.item (t : Target) : Item where
  key := t.key
  work := .method t.member
  filling := some t.filling

namespace Hierarchy

/-- The method that a call runs on instances of a type, if they are instances of its receiver. -/
def target? (h : Hierarchy) (p : Program) (c : VirtualCall) (i : TypeInstance) :
    Except Fault (Option Target) := do
  let t := Ty.nominal (← p.type i.decl) i.binds
  if !(← h.isSubtype t c.receiver) then return none
  match ← h.method? t c.name with
  | none => return none
  | some f =>
      let member : Member := ⟨f.containing, f.outer, f.decl, c.binds, c.closures⟩
      let containing ← p.type f.containing
      return some {
        key := Key.member containing c.name member.allBinds c.closures
        member
        filling := ⟨c.slot, i.key⟩ }

/-- The targets of a call, in the order of the types. -/
def targetsOf (h : Hierarchy) (p : Program) (c : VirtualCall) :
    List TypeInstance → Except Fault (List Target)
  | [] => .ok []
  | i :: rest => do
      let t ← h.target? p c i
      return t.toList ++ (← h.targetsOf p c rest)

/-- All targets, those of a call together, calls in order. -/
def targets (h : Hierarchy) (p : Program) (instances : List TypeInstance) :
    List VirtualCall → Except Fault (List Target)
  | [] => .ok []
  | c :: rest => do
      let here ← h.targetsOf p c instances
      return here ++ (← h.targets p instances rest)

end Hierarchy

/-- Fill a slot of a type that is still free. -/
def Assembly.fill (m : Assembly) (f : Filling) (key : String) : Assembly :=
  if m.entities.contains f.receiver then
    { m with entities := m.entities.modify f.receiver fun d =>
        { d with vtable := d.vtable.insertNew f.slot key } }
  else
    { m with concepts := m.concepts.modify f.receiver fun d =>
        { d with vtable := d.vtable.insertNew f.slot key } }

namespace Session

/-- Fill the slot of a target and ask for it, and say whether it was new. -/
def recordTarget (s : Session) (t : Target) : Bool × Session :=
  let s := { s with assembly := s.assembly.fill t.filling t.key }
  if s.assembly.hasInvoke t.key || s.queues.methods.contains t.key then (false, s)
  else (true, s.enqueue t.item)

/-- Record targets in turn, and count the new ones. -/
def record (s : Session) : List Target → Nat × Session
  | [] => (0, s)
  | t :: rest =>
      let (fresh, s) := s.recordTarget t
      let (n, s) := s.record rest
      ((if fresh then n + 1 else n), s)

end Session

end Monomorph
