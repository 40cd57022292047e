import Monomorph.Failure

/-!
# Program/Basic — the declarations a program consists of

Declarations are known by their place: an id is an index into one of the three lists.  Nothing
forces the ids a declaration mentions to exist, so every look-up by id may fault.
-/

namespace Monomorph

/-- Place of a type declaration. -/
structure TypeId where
  index : UInt32
deriving DecidableEq, Inhabited

/-- Place of a function, static, method or lambda declaration. -/
structure InvokeId where
  index : UInt32
deriving DecidableEq, Inhabited

/-- Place of a constant declaration. -/
structure ConstId where
  index : UInt32
deriving DecidableEq, Inhabited

/-- An entity has instances; a concept is what types provide. -/
inductive TypeKind
  | entity
  | concept
deriving DecidableEq

structure TypeDecl where
  id : TypeId
  ns : String
  name : String
  kind : TypeKind
  /-- Names of the type parameters. -/
  terms : List String := []
  /-- The direct supertypes. -/
  provides : List TypeId := []
  attributes : List String := []
  file : String := ""
  position : Position := {}
deriving DecidableEq

/-- `ns::name` -/
def TypeDecl.fullName (d : TypeDecl) : String :=
  d.ns ++ "::" ++ d.name

/-- Where a callable lives. -/
inductive InvokeKind
  | function
  | static (containing : TypeId)
  | method (containing : TypeId)
  | lambda
deriving DecidableEq

structure InvokeDecl where
  id : InvokeId
  ns : String
  name : String
  kind : InvokeKind
  terms : List String := []
  params : List String := []
  attributes : List String := []
  file : String := ""
  position : Position := {}
deriving DecidableEq

/-- The declaring type of a static or a method. -/
def InvokeDecl.containing? (d : InvokeDecl) : Option TypeId :=
  match d.kind with
  | .static t | .method t => some t
  | .function | .lambda => none

/-- A constant of a namespace, or of a type. -/
structure ConstDecl where
  id : ConstId
  ns : String
  name : String
  containing : Option TypeId := none
  file : String := ""
  position : Position := {}
deriving DecidableEq

structure Program where
  types : List TypeDecl := []
  invokes : List InvokeDecl := []
  consts : List ConstDecl := []
deriving DecidableEq

namespace Program

instance : EmptyCollection Program := ⟨{}⟩

/-- Add a type at the end, under the id of its place. -/
def addType (p : Program) (d : TypeDecl) : Program :=
  { p with types := p.types ++ [{ d with id := ⟨UInt32.ofNat p.types.length⟩ }] }

/-- Add a callable at the end, under the id of its place. -/
def addInvoke (p : Program) (d : InvokeDecl) : Program :=
  { p with invokes := p.invokes ++ [{ d with id := ⟨UInt32.ofNat p.invokes.length⟩ }] }

/-- Add a constant at the end, under the id of its place. -/
def addConst (p : Program) (d : ConstDecl) : Program :=
  { p with consts := p.consts ++ [{ d with id := ⟨UInt32.ofNat p.consts.length⟩ }] }

def type? (p : Program) (t : TypeId) : Option TypeDecl :=
  p.types[t.index.toNat]?

/-- The type declaration at an id. -/
def type (p : Program) (t : TypeId) : Except Fault TypeDecl :=
  match p.type? t with
  | some d => .ok d
  | none => .error .unknownId

/-- The callable at an id. -/
def invoke (p : Program) (i : InvokeId) : Except Fault InvokeDecl :=
  match p.invokes[i.index.toNat]? with
  | some d => .ok d
  | none => .error .unknownId

/-- The constant at an id. -/
def const (p : Program) (c : ConstId) : Except Fault ConstDecl :=
  match p.consts[c.index.toNat]? with
  | some d => .ok d
  | none => .error .unknownId

/-- The first type of that name. -/
def findType? (p : Program) (ns name : String) : Option TypeId :=
  (p.types.find? fun d => d.ns = ns && d.name = name).map (·.id)

/-- The methods of that name declared in a type itself. -/
def methodsOf (p : Program) (t : TypeId) (name : String) : List InvokeDecl :=
  p.invokes.filter fun d => d.name = name && d.kind = .method t

/-- The namespace functions that carry an attribute. -/
def entryPoints (p : Program) (mark : String) : List InvokeDecl :=
  p.invokes.filter fun d => d.kind = .function && decide (mark ∈ d.attributes)

end Program

end Monomorph
