import Monomorph.Session.Basic

/-!
# Session/Intern — putting types into the assembly

`intern` asks for every nominal type that a type mentions and stores the type under its key, and
with it each of its options, the types inside them, and the concepts of an intersection one by one.
A type whose key is stored already is taken as it is.
-/

namespace Monomorph.Session

/-- A change of a session that answers something. -/
abbrev Change (α : Type) := StateT Session (Except Fault) α

/-- Ask for the type a part names. -/
def internPart (p : Part) : Change String := fun s =>
  s.request (.type p.decl.id (Table.ofList p.binds))

/-- Store a type under a key that has none. -/
def store (key : String) (t : Interned) : Change Unit :=
  modify fun s => { s with assembly.types := s.assembly.types.insertNew key t }

/-- Store an option as a type of its own. -/
def storeShape (o : Shape) : Change Shape := do
  store o.key (.single o)
  return o

/-- Store a union of options. -/
def storeUnion (os : List Shape) : Change Interned := do
  let t := Interned.ofShapes os
  store t.key t
  return t

/-- The type stored under a key, or the one made now. -/
def internUnder (key : String) (make : Change Interned) : Change Interned := do
  match (← get).assembly.types.get? key with
  | some t => return t
  | none => make

/-- A concept as a type of its own. -/
def internConcept (p : Part) : Change Interned :=
  internUnder p.key do storeUnion [← storeShape (.ofConcepts [← internPart p])]

mutual

/-- Store a type, and all that it mentions. -/
def intern : Ty → Change Interned
  | .union os => internUnder (Ty.key (.union os)) do storeUnion (← internAtoms os)

def internAtom : Atom → Change Shape
  | .entity p => do storeShape (.entity (← internPart p))
  | .concept ps => do
      if 1 < ps.length then
        let _ ← ps.mapM internConcept
      storeShape (.ofConcepts (← ps.mapM internPart))
  | .tuple es => do storeShape (.ofTuple (← internSlots es))
  | .record es => do storeShape (.ofRecord (← internFields es))
  | .ephemeral ts => do storeShape (.ofEphemeral (← internAll ts))

def internAtoms : List Atom → Change (List Shape)
  | [] => return []
  | a :: r => do return (← internAtom a) :: (← internAtoms r)

def internAll : List Ty → Change (List Interned)
  | [] => return []
  | t :: r => do return (← intern t) :: (← internAll r)

def internSlots : List (Slot Ty) → Change (List (Slot Interned))
  | [] => return []
  | ⟨t, o⟩ :: r => do return ⟨← intern t, o⟩ :: (← internSlots r)

def internFields : List (String × Slot Ty) → Change (List (String × Slot Interned))
  | [] => return []
  | (n, ⟨t, o⟩) :: r => do return (n, ⟨← intern t, o⟩) :: (← internFields r)

end

end Monomorph.Session
