import Monomorph.Program.Provides
import Monomorph.Session.Dispatch

/-!
# Script/Hierarchy — subtypes and methods read off the declarations

Bindings play no part: a type is below a concept if its declaration provides it, at any distance.
The method an instance runs is the first found in a depth-first search from its declaration; the
supertype named last is looked at first.
-/

namespace Monomorph.Program

/-- Whether a test holds of all. -/
def allHold {α : Type} (test : α → Except Fault Bool) : List α → Except Fault Bool
  | [] => .ok true
  | a :: r => do if ← test a then allHold test r else return false

/-- Whether an option of a type takes in a declaration whose type has the given key. -/
def optionTakes (p : Program) (decl : TypeId) (key : String) : Atom → Except Fault Bool
  | .entity e => .ok (e.key = key)
  | .concept ps => allHold (fun q => p.providesTransitively decl q.decl.id) ps
  | .tuple _ | .record _ | .ephemeral _ => .ok false

/-- Whether one of the options takes in a declaration. -/
def someTakes (p : Program) (decl : TypeId) (key : String) : List Atom → Except Fault Bool
  | [] => .ok false
  | a :: r => do if ← p.optionTakes decl key a then return true else someTakes p decl key r

/-- The declaration of a type that has just one, with its bindings. -/
def declared? (t : Ty) : Option Part :=
  match t.single? with
  | some (.entity p) => some p
  | some (.concept [p]) => some p
  | _ => none

/-- Whether a type of one declaration is below another. -/
def isBelow (p : Program) (sub sup : Ty) : Except Fault Bool :=
  match declared? sub with
  | some q => p.someTakes q.decl.id sub.key sup.options
  | none => .ok false

/-- Search a stack of types for a method, `fresh` being those not yet looked at: one looked at
before has nothing to add. -/
def searchMethod (p : Program) (name : String) (fresh stack : List TypeId) :
    Except Fault (Option (TypeId × InvokeDecl)) :=
  match stack with
  | [] => .ok none
  | t :: stack => match p.methodsOf t name with
    | d :: _ => .ok (some (t, d))
    | [] => match p.type? t with
      | none => .error .unknownId
      | some d =>
          if h : t ∈ fresh then
            have : (fresh.erase t).length < fresh.length := by
              rw [List.length_erase_of_mem h]
              have := List.length_pos_of_mem h
              omega
            searchMethod p name (fresh.erase t) (d.provides.reverse ++ stack)
          else searchMethod p name fresh stack
termination_by (fresh.length, stack.length)

/-- The method of that name an instance of a type runs. -/
def findMethod? (p : Program) (t : Ty) (name : String) : Except Fault (Option Found) :=
  match declared? t with
  | none => .ok none
  | some q => do
      match ← p.searchMethod name p.typeIds [q.decl.id] with
      | none => return none
      | some (owner, d) =>
          return some ⟨owner, if owner = q.decl.id then Table.ofList q.binds else ∅, d.id⟩

/-- The declared hierarchy. -/
def hierarchy (p : Program) : Hierarchy where
  isSubtype := p.isBelow
  method? := p.findMethod?

end Monomorph.Program
