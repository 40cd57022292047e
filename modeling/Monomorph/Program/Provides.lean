import Monomorph.Program.Basic

/-!
# Program/Provides — supertypes at any distance

`providesTransitively` searches the `provides` edges depth first, expanding a type once.  It ends on
every graph, since each step either expands a type not yet expanded or drops one from the stack; it
faults only where it would expand an id that names nothing.
-/

namespace Monomorph.Program

/-- The ids of the declared types. -/
def typeIds (p : Program) : List TypeId :=
  (List.range p.types.length).map fun n => ⟨UInt32.ofNat n⟩

/-- Search from a stack for `sup`, `fresh` being the types not yet expanded. -/
def searchProvides (p : Program) (sup : TypeId) (fresh stack : List TypeId) :
    Except Fault Bool :=
  match stack with
  | [] => .ok false
  | t :: stack =>
      if t = sup then .ok true
      else match p.type? t with
        | none => .error .unknownId
        | some d =>
            if h : t ∈ fresh then
              have : (fresh.erase t).length < fresh.length := by
                rw [List.length_erase_of_mem h]
                have := List.length_pos_of_mem h
                omega
              searchProvides p sup (fresh.erase t) (d.provides.reverse ++ stack)
            else searchProvides p sup fresh stack
termination_by (fresh.length, stack.length)

/-- Whether `sub` reaches `sup` through `provides` edges, in no step or more. -/
def providesTransitively (p : Program) (sub sup : TypeId) : Except Fault Bool :=
  p.searchProvides sup p.typeIds [sub]

end Monomorph.Program
