import Monomorph.Listing
import Monomorph.Program.Basic
import Monomorph.Table

/-!
# Ty/Basic — types as the front end resolves them

A type is a union of atoms: entities, intersections of concepts, tuples, records, and the lists a
call hands back.  Its `key` is the text that identifies it.  The constructors here keep one order —
options and concepts by key, record entries by name, bindings by parameter — so that a type and its
key say the same.
-/

namespace Monomorph

/-- The declaration a type mentions. -/
structure Nominal where
  id : TypeId
  ns : String
  name : String
deriving DecidableEq

/-- A type in a place that may be left out. -/
structure Slot (τ : Type) where
  type : τ
  optional : Bool := false
deriving DecidableEq

mutual

/-- One option of a type. -/
inductive Atom
  | entity (part : Part)
  /-- The intersection of the concepts listed. -/
  | concept (parts : List Part)
  | tuple (entries : List (Slot Ty))
  | record (entries : List (String × Slot Ty))
  /-- Several values handed back together, never stored. -/
  | ephemeral (types : List Ty)

/-- A declaration with types for its parameters. -/
inductive Part
  | mk (decl : Nominal) (binds : List (String × Ty))

/-- A union of options. -/
inductive Ty
  | union (options : List Atom)

end

/-- Types for parameter names. -/
abbrev Binds := Table Ty

namespace Part

def decl : Part → Nominal
  | .mk d _ => d

def binds : Part → List (String × Ty)
  | .mk _ b => b

/-- A declared type with types for its parameters. -/
def ofDecl (d : TypeDecl) (binds : Binds) : Part :=
  .mk ⟨d.id, d.ns, d.name⟩ binds.entries

end Part

def Ty.options : Ty → List Atom
  | .union os => os

/-! ## Keys -/

/-- Texts between angle brackets, nothing for no text. -/
def angled : List String → String
  | [] => ""
  | l => "<" ++ String.intercalate ", " l ++ ">"

/-- A mark in front of what may be left out. -/
def optionalMark (optional : Bool) (mark : String) : String :=
  if optional then mark else ""

mutual

/-- The options' keys, separated by bars. -/
def Ty.key : Ty → String
  | .union os => String.intercalate " | " (Atom.keys os)

def Atom.key : Atom → String
  | .entity p => p.key
  | .concept ps => String.intercalate " & " (Part.keys ps)
  | .tuple es => "[" ++ String.intercalate ", " (Ty.slotKeys es) ++ "]"
  | .record es => "\x7b" ++ String.intercalate ", " (Ty.fieldKeys es) ++ "\x7d"
  | .ephemeral ts => "(|" ++ String.intercalate ", " (Ty.keys ts) ++ "|)"

/-- `ns::name`, and the bindings in angle brackets. -/
def Part.key : Part → String
  | .mk d binds => d.ns ++ "::" ++ d.name ++ angled (Ty.bindKeys binds)

def Atom.keys : List Atom → List String
  | [] => []
  | a :: r => a.key :: Atom.keys r

def Part.keys : List Part → List String
  | [] => []
  | p :: r => p.key :: Part.keys r

def Ty.keys : List Ty → List String
  | [] => []
  | t :: r => t.key :: Ty.keys r

def Ty.slotKeys : List (Slot Ty) → List String
  | [] => []
  | ⟨t, o⟩ :: r => (optionalMark o "?:" ++ t.key) :: Ty.slotKeys r

def Ty.fieldKeys : List (String × Slot Ty) → List String
  | [] => []
  | (n, ⟨t, o⟩) :: r => (n ++ optionalMark o "?" ++ ":" ++ t.key) :: Ty.fieldKeys r

def Ty.bindKeys : List (String × Ty) → List String
  | [] => []
  | (n, t) :: r => (n ++ "=" ++ t.key) :: Ty.bindKeys r

end

/-! ## Constructors -/

namespace Ty

/-- The union of options, in order of their keys; of options with one key the first is kept. -/
def ofAtoms : List Atom → Except Fault Ty
  | [] => .error .emptyUnion
  | os => .ok (.union (Listing.distinctBy Atom.key os))

def single (a : Atom) : Ty := .union [a]

/-- The union of types. -/
def join (ts : List Ty) : Except Fault Ty :=
  ofAtoms (ts.flatMap options)

/-- An intersection of concepts, in order of their keys. -/
def concept (ps : List Part) : Ty :=
  single (.concept (Listing.distinctBy Part.key ps))

/-- The type of an entity declaration; a concept is refused. -/
def entity (d : TypeDecl) (binds : Binds) : Except Fault Ty :=
  match d.kind with
  | .entity => .ok (single (.entity (.ofDecl d binds)))
  | .concept => .error .notAnEntity

/-- The type of a declaration of either kind. -/
def nominal (d : TypeDecl) (binds : Binds) : Ty :=
  match d.kind with
  | .entity => single (.entity (.ofDecl d binds))
  | .concept => concept [.ofDecl d binds]

def tuple (entries : List (Slot Ty)) : Ty := single (.tuple entries)

/-- A record, its entries by name; entries of one name stay in the order given. -/
def record (entries : List (String × Slot Ty)) : Ty :=
  single (.record (Listing.sortBy (·.1) entries))

def ephemeral (types : List Ty) : Ty := single (.ephemeral types)

/-- The only option, if there is just one. -/
def single? (t : Ty) : Option Atom :=
  match t.options with
  | [a] => some a
  | _ => none

def isUnion (t : Ty) : Bool :=
  decide (1 < t.options.length)

end Ty

/-- Bindings overlaid: those of `inner` win. -/
def Binds.overlay (outer inner : Binds) : Binds :=
  inner.entries.foldl (fun t e => t.insert e.1 e.2) outer

/-! ## Functions as values -/

/-- The type of a function value. -/
structure FunctionTy where
  params : List (String × Slot Ty)
  result : Ty

/-- `fn(x: T, y?: U) -> R` -/
def FunctionTy.key (f : FunctionTy) : String :=
  let params := f.params.map fun p => p.1 ++ optionalMark p.2.optional "?" ++ ": " ++ p.2.type.key
  "fn(" ++ String.intercalate ", " params ++ ") -> " ++ f.result.key

/-- A closure handed to a call. -/
structure Closure where
  code : InvokeId
  file : String
  position : Position
  /-- Key of the invocation the closure was written in. -/
  scope : String
  captured : Binds
  type : FunctionTy

end Monomorph
