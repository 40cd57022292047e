import Monomorph.Program.Basic
import Monomorph.Wire.Operand

/-!
# Wire/Program — declarations and diagnostics as JSON

Ids are written as the numbers they are, and nothing checks that they name anything.  The content of
a variant is a record; like other records it may be an array of its fields, but only in a document
that is read as it stands (`positional`), not in a value at hand.
-/

namespace Monomorph.Wire

def ofTypeId (t : TypeId) : Json := .ofNat t.index.toNat

def typeId (j : Json) : Decoded TypeId := TypeId.mk <$> word32 j

def invokeId (j : Json) : Decoded InvokeId := InvokeId.mk <$> word32 j

def constId (j : Json) : Decoded ConstId := ConstId.mk <$> word32 j

/-- The name of a variant, and its content. -/
def variant : Json → Option (String × Json)
  | .text s => some (s, .null)
  | .object [(s, j)] => some (s, j)
  | _ => none

/-- A variant without content. -/
def unit : Json → Decoded Unit
  | .null => .ok ()
  | _ => .error .malformed

/-! ## Kinds -/

def ofTypeKind : TypeKind → Json
  | .entity => .text "Entity"
  | .concept => .text "Concept"

def typeKind (j : Json) : Decoded TypeKind :=
  match variant j with
  | some ("Entity", j) => do unit j; return .entity
  | some ("Concept", j) => do unit j; return .concept
  | _ => .error .malformed

def ofInvokeKind : InvokeKind → Json
  | .function => .text "NamespaceFunction"
  | .static t => .object [("StaticFunction", .object [("containing", ofTypeId t)])]
  | .method t => .object [("MemberMethod", .object [("containing", ofTypeId t)])]
  | .lambda => .text "Lambda"

def containing (positional : Bool) : Json → Decoded TypeId
  | .array items =>
      if positional then (Layout.field "containing" typeId).ofArray items else .error .malformed
  | j => (Layout.field "containing" typeId).ofJson j

def invokeKind (positional : Bool) (j : Json) : Decoded InvokeKind :=
  match variant j with
  | some ("NamespaceFunction", j) => do unit j; return .function
  | some ("Lambda", j) => do unit j; return .lambda
  | some ("StaticFunction", j) => InvokeKind.static <$> containing positional j
  | some ("MemberMethod", j) => InvokeKind.method <$> containing positional j
  | _ => .error .malformed

/-! ## Declarations -/

def ofTypeDecl (d : TypeDecl) : Json :=
  .object [("id", ofTypeId d.id), ("ns", .text d.ns), ("name", .text d.name),
    ("kind", ofTypeKind d.kind), ("terms", .texts d.terms),
    ("provides", .array (d.provides.map ofTypeId)), ("attributes", .texts d.attributes),
    ("src_file", .text d.file), ("sinfo", ofPosition d.position)]

def ofInvokeDecl (d : InvokeDecl) : Json :=
  .object [("id", .ofNat d.id.index.toNat), ("ns", .text d.ns), ("name", .text d.name),
    ("kind", ofInvokeKind d.kind), ("terms", .texts d.terms), ("params", .texts d.params),
    ("attributes", .texts d.attributes), ("src_file", .text d.file),
    ("sinfo", ofPosition d.position)]

def ofConstDecl (d : ConstDecl) : Json :=
  .object [("id", .ofNat d.id.index.toNat), ("ns", .text d.ns), ("name", .text d.name),
    ("containing", Json.nullable ofTypeId d.containing), ("src_file", .text d.file),
    ("sinfo", ofPosition d.position)]

def ofProgram (p : Program) : Json :=
  .object [("types", .array (p.types.map ofTypeDecl)),
    ("invokes", .array (p.invokes.map ofInvokeDecl)),
    ("consts", .array (p.consts.map ofConstDecl))]

def typeDecl : Layout TypeDecl :=
  TypeDecl.mk <$> .field "id" typeId <*> .field "ns" text <*> .field "name" text
    <*> .field "kind" typeKind <*> .field "terms" (list text)
    <*> .field "provides" (list typeId) <*> .field "attributes" (list text)
    <*> .field "src_file" text <*> .field "sinfo" position

def invokeDecl (positional : Bool) : Layout InvokeDecl :=
  InvokeDecl.mk <$> .field "id" invokeId <*> .field "ns" text <*> .field "name" text
    <*> .field "kind" (invokeKind positional) <*> .field "terms" (list text)
    <*> .field "params" (list text) <*> .field "attributes" (list text)
    <*> .field "src_file" text <*> .field "sinfo" position

def constDecl : Layout ConstDecl :=
  ConstDecl.mk <$> .field "id" constId <*> .field "ns" text <*> .field "name" text
    <*> .nullable "containing" typeId <*> .field "src_file" text <*> .field "sinfo" position

def program (positional : Bool) : Layout Program :=
  Program.mk <$> .field "types" (list typeDecl.ofJson)
    <*> .field "invokes" (list (invokeDecl positional).ofJson)
    <*> .field "consts" (list constDecl.ofJson)

/-! ## Diagnostics -/

def ofDiagnostic (d : Diagnostic) : Json :=
  .object [("location", Json.nullable
      (fun l => .object [("file", .text l.file), ("line", .ofNat l.line.toNat)]) d.location),
    ("message", .text d.message)]

def location : Layout Location :=
  Location.mk <$> .field "file" text <*> .field "line" word32

def diagnostic : Layout Diagnostic :=
  Diagnostic.mk <$> .nullable "location" location.ofJson <*> .field "message" text

end Monomorph.Wire
