import Monomorph.Assembly.Basic
import Monomorph.Failure

/-!
# Assembly/Vtables — methods inherited through `provides`

Concepts are taken in post-order of a depth-first search over `provides`, so that what a concept
provides is complete before it is; then each type takes over the slots of its providers, in the order
it names them, that it does not fill itself.
-/

namespace Monomorph.Assembly

/-- Push the providers of a concept for a visit: the first named comes up first, and a provider that
is no concept is a fault. -/
def pushProviders (m : Assembly) (fresh : List String) (key : String) :
    List String → List (String × Bool) → Except Fault (List (String × Bool))
  | [], stack => .ok stack
  | p :: rest, stack =>
      if !m.concepts.contains p then .error (.conceptProvidesUnknown key p)
      else pushProviders m fresh key rest (if p ∈ fresh then (p, false) :: stack else stack)

/-- Depth-first search over `provides`: a concept on the stack is still to be expanded, or (`true`)
was and is now done.  `fresh` are the concepts not yet expanded; those done are listed last first. -/
def searchConcepts (m : Assembly) (fresh done : List String) :
    List (String × Bool) → Except Fault (List String × List String)
  | [] => .ok (fresh, done)
  | (key, true) :: stack => searchConcepts m fresh (key :: done) stack
  | (key, false) :: stack =>
      if h : key ∈ fresh then
        have : (fresh.erase key).length < fresh.length := by
          rw [List.length_erase_of_mem h]
          have := List.length_pos_of_mem h
          omega
        let provides := ((m.concepts.get? key).map (·.provides)).getD []
        match pushProviders m (fresh.erase key) key provides.reverse ((key, true) :: stack) with
        | .ok stack => searchConcepts m (fresh.erase key) done stack
        | .error f => .error f
      else searchConcepts m fresh done stack
termination_by stack => (fresh.length, stack.length)

/-- Search from each root in turn. -/
def searchRoots (m : Assembly) (fresh done : List String) :
    List String → Except Fault (List String)
  | [] => .ok done
  | root :: rest => do
      let (fresh, done) ← m.searchConcepts fresh done [(root, false)]
      m.searchRoots fresh done rest

/-- The concepts, each after those it provides if no cycle forbids it. -/
def conceptOrder (m : Assembly) : Except Fault (List String) := do
  let done ← m.searchRoots m.concepts.keys [] m.concepts.keys
  return done.reverse

/-- The slots of a type and those it inherits: what it has stays. -/
def inherit (own provided : Table String) : Table String :=
  provided.entries.foldl (fun t e => t.insertNew e.1 e.2) own

/-- Complete the vtable of a concept from its providers as they are now. -/
def closeConcept (concepts : Table ConceptDecl) (key : String) : Table ConceptDecl :=
  match concepts.get? key with
  | none => concepts
  | some d =>
      let vtable := d.provides.foldl
        (fun t p => match concepts.get? p with
          | some c => inherit t c.vtable
          | none => t) d.vtable
      concepts.insert key { d with vtable }

/-- Complete the vtable of an entity from its providers. -/
def closeEntity (concepts : Table ConceptDecl) (d : EntityDecl) : Except Fault EntityDecl := do
  let vtable ← d.provides.foldlM
    (fun t p => match concepts.get? p with
      | some c => .ok (inherit t c.vtable)
      | none => .error (.entityProvidesUnknown d.key p)) d.vtable
  return { d with vtable }

/-- Entities in turn, each under its key. -/
def closeEntities (concepts : Table ConceptDecl) :
    List (String × EntityDecl) → Table EntityDecl → Except Fault (Table EntityDecl)
  | [], done => .ok done
  | (key, d) :: rest, done => do
      let d ← closeEntity concepts d
      closeEntities concepts rest (done.insert key d)

/-- Complete every vtable. -/
def closeVtables (m : Assembly) : Except Fault Assembly := do
  let order ← m.conceptOrder
  let concepts := order.foldl closeConcept m.concepts
  let entities ← closeEntities concepts m.entities.entries ∅
  return { m with concepts, entities }

end Monomorph.Assembly
