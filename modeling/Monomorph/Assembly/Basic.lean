import Monomorph.Body.Basic
import Monomorph.Interned.Equality

/-!
# Assembly/Basic — everything that was specialized, under its key

The tables grow while the program is specialized.  When nothing new turns up the vtables are
completed, the subtype table is recorded, and the assembly is closed.
-/

namespace Monomorph

structure ConceptDecl where
  key : String
  ns : String
  name : String
  file : String
  position : Position
  attributes : List String
  /-- Type key of each type parameter. -/
  terms : Table String
  /-- Keys of the direct supertypes. -/
  provides : List String
  /-- Key of the method each virtual slot runs. -/
  vtable : Table String
deriving DecidableEq

structure EntityDecl where
  key : String
  ns : String
  name : String
  file : String
  position : Position
  attributes : List String
  terms : Table String
  provides : List String
  /-- Keys of the fields. -/
  fields : List String
  vtable : Table String
deriving DecidableEq

structure ConstantDecl where
  key : String
  file : String
  position : Position
  type : String
  /-- Key of the callable that computes the value. -/
  value : String
deriving DecidableEq

structure FieldDecl where
  key : String
  name : String
  enclosing : String
  file : String
  position : Position
  type : String
  /-- Key of the callable that computes the default, if there is one. -/
  value : Option String
deriving DecidableEq

/-- A parameter and its type key. -/
structure Param where
  name : String
  type : String
deriving DecidableEq

/-- A callable with a body. -/
structure Callable where
  key : String
  ns : String
  name : String
  attributes : List String
  file : String
  position : Position
  params : List Param
  result : String
  body : Body
deriving DecidableEq

/-- A callable the runtime implements. -/
structure Primitive where
  key : String
  ns : String
  name : String
  attributes : List String
  file : String
  position : Position
  params : List Param
  result : String
  implementation : String
deriving DecidableEq

structure Assembly where
  entryPoints : List String := []
  types : Table Interned := ∅
  concepts : Table ConceptDecl := ∅
  entities : Table EntityDecl := ∅
  constants : Table ConstantDecl := ∅
  fields : Table FieldDecl := ∅
  callables : Table Callable := ∅
  primitives : Table Primitive := ∅
  regexes : List String := []
  /-- The supertypes of each nominal type, itself among them, in order. -/
  subtypes : Table (List String) := ∅
deriving DecidableEq

namespace Assembly

instance : EmptyCollection Assembly := ⟨{}⟩

/-- Whether a key names a concept or an entity. -/
def hasNominal (m : Assembly) (key : String) : Bool :=
  m.concepts.contains key || m.entities.contains key

/-- Whether a key names a callable, with a body or without. -/
def hasInvoke (m : Assembly) (key : String) : Bool :=
  m.callables.contains key || m.primitives.contains key

def body? (m : Assembly) (key : String) : Option Body :=
  (m.callables.get? key).map (·.body)

end Assembly

end Monomorph
