import Monomorph.Assembly.Basic
import Monomorph.Body.Order
import Monomorph.Wire.Interned
import Monomorph.Wire.Op

/-!
# Wire/Assembly — bodies and assemblies as JSON

A body lists its blocks in block order; read back, a later block of one label replaces an earlier.
Everything else is written field by field, tables by key.
-/

namespace Monomorph.Wire

/-- A table as an object. -/
def ofTable {α : Type} (f : α → Json) (t : Table α) : Json :=
  .object (t.entries.map fun e => (e.1, f e.2))

/-! ## Bodies -/

def ofBlock (b : Block) : Json :=
  .object [("label", .text b.label), ("ops", .array (b.ops.map ofOp))]

def ofBody (b : Body) : Json :=
  .object ([("file", .text b.file), ("sinfo", ofPosition b.position),
      ("blocks", .array (b.blocks.ordered.map ofBlock))]
    ++ match b.types with
      | some t => [("vtypes", ofTable .text t)]
      | none => [])

def blockLayout : Layout Block :=
  Block.mk <$> .field "label" text <*> .field "ops" (list op)

def block : Json → Decoded Block :=
  blockLayout.ofJson

def bodyLayout : Layout Body :=
  (fun file position blocks types =>
      ⟨file, position, Table.ofList (blocks.map fun b => (b.label, b)), types⟩)
    <$> .field "file" text <*> .field "sinfo" position <*> .field "blocks" (list block)
    <*> .defaulted "vtypes" none (nullable (table text))

def body : Json → Decoded Body :=
  bodyLayout.ofJson

/-! ## Declarations -/

/-- What every nominal declaration begins with. -/
def nominalFields (key ns name file : String) (p : Position) (attributes : List String)
    (terms : Table String) (provides : List String) : List (String × Json) :=
  [("tkey", .text key), ("ns", .text ns), ("name", .text name), ("src_file", .text file),
    ("sinfo", ofPosition p), ("attributes", .texts attributes), ("terms", ofTable .text terms),
    ("provides", .texts provides)]

def ofConceptDecl (d : ConceptDecl) : Json :=
  .object (nominalFields d.key d.ns d.name d.file d.position d.attributes d.terms d.provides
    ++ [("vcall_map", ofTable .text d.vtable)])

def ofEntityDecl (d : EntityDecl) : Json :=
  .object (nominalFields d.key d.ns d.name d.file d.position d.attributes d.terms d.provides
    ++ [("fields", .texts d.fields), ("vcall_map", ofTable .text d.vtable)])

def ofConstantDecl (d : ConstantDecl) : Json :=
  .object [("ckey", .text d.key), ("src_file", .text d.file), ("sinfo", ofPosition d.position),
    ("declared_type", .text d.type), ("value", .text d.value)]

def ofFieldDecl (d : FieldDecl) : Json :=
  .object [("fkey", .text d.key), ("name", .text d.name), ("enclosing", .text d.enclosing),
    ("src_file", .text d.file), ("sinfo", ofPosition d.position), ("declared_type", .text d.type),
    ("value", Json.nullable .text d.value)]

def ofParam (p : Param) : Json :=
  .object [("name", .text p.name), ("ty", .text p.type)]

/-- What every callable begins with. -/
def callableFields (key ns name : String) (attributes : List String) (file : String) (p : Position)
    (params : List Param) (result : String) : List (String × Json) :=
  [("key", .text key), ("ns", .text ns), ("name", .text name), ("attributes", .texts attributes),
    ("src_file", .text file), ("sinfo", ofPosition p), ("params", .array (params.map ofParam)),
    ("result_type", .text result)]

def ofCallable (c : Callable) : Json :=
  .object (callableFields c.key c.ns c.name c.attributes c.file c.position c.params c.result
    ++ [("body", ofBody c.body)])

def ofPrimitive (c : Primitive) : Json :=
  .object (callableFields c.key c.ns c.name c.attributes c.file c.position c.params c.result
    ++ [("implkey", .text c.implementation)])

def textsField (name : String) : Layout (List String) := .field name (list text)

def positionField : Layout Position := .field "sinfo" position

def nominalLayout {α : Type}
    (f : String → String → String → String → Position → List String → Table String →
      List String → α) : Layout α :=
  f <$> textField "tkey" <*> textField "ns" <*> textField "name" <*> textField "src_file"
    <*> positionField <*> textsField "attributes" <*> .field "terms" (table text)
    <*> textsField "provides"

def conceptDecl : Layout ConceptDecl :=
  nominalLayout ConceptDecl.mk <*> .field "vcall_map" (table text)

def entityDecl : Layout EntityDecl :=
  nominalLayout EntityDecl.mk <*> textsField "fields" <*> .field "vcall_map" (table text)

def constantDecl : Layout ConstantDecl :=
  ConstantDecl.mk <$> textField "ckey" <*> textField "src_file" <*> positionField
    <*> textField "declared_type" <*> textField "value"

def fieldDecl : Layout FieldDecl :=
  FieldDecl.mk <$> textField "fkey" <*> textField "name" <*> textField "enclosing"
    <*> textField "src_file" <*> positionField <*> textField "declared_type"
    <*> .nullable "value" text

def param : Layout Param :=
  Param.mk <$> textField "name" <*> textField "ty"

def callableLayout {α : Type}
    (f : String → String → String → List String → String → Position → List Param → String → α) :
    Layout α :=
  f <$> textField "key" <*> textField "ns" <*> textField "name" <*> textsField "attributes"
    <*> textField "src_file" <*> positionField <*> .field "params" (list param.ofJson)
    <*> textField "result_type"

def callable : Layout Callable :=
  callableLayout Callable.mk <*> .field "body" body

def primitive : Layout Primitive :=
  callableLayout Primitive.mk <*> textField "implkey"

/-! ## Assemblies -/

def ofAssembly (m : Assembly) : Json :=
  .object [("entry_points", .texts m.entryPoints), ("type_map", ofTable ofInterned m.types),
    ("concept_decls", ofTable ofConceptDecl m.concepts),
    ("entity_decls", ofTable ofEntityDecl m.entities),
    ("constant_decls", ofTable ofConstantDecl m.constants),
    ("field_decls", ofTable ofFieldDecl m.fields),
    ("invoke_decls", ofTable ofCallable m.callables),
    ("primitive_invoke_decls", ofTable ofPrimitive m.primitives),
    ("literal_regexs", .texts m.regexes), ("subtype_table", ofTable .texts m.subtypes)]

def tableField {α : Type} (name : String) (layout : Layout α) : Layout (Table α) :=
  .field name (table layout.ofJson)

def assemblyLayout : Layout Assembly :=
  Assembly.mk <$> textsField "entry_points" <*> .field "type_map" (table interned)
    <*> tableField "concept_decls" conceptDecl <*> tableField "entity_decls" entityDecl
    <*> tableField "constant_decls" constantDecl <*> tableField "field_decls" fieldDecl
    <*> tableField "invoke_decls" callable <*> tableField "primitive_invoke_decls" primitive
    <*> textsField "literal_regexs" <*> .field "subtype_table" (table (list text))

def assembly : Json → Decoded Assembly :=
  assemblyLayout.ofJson

end Monomorph.Wire
