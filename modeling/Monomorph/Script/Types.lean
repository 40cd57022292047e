import Monomorph.Interned.Basic
import Monomorph.Script.TypeSpec
import Monomorph.Wire.Interned
import Monomorph.Wire.Program

/-!
# Script/Types — programs, types and work in JSON, as scripts write them

A number is a declared type without bindings; any other type is an object with one telling member.
What a script leaves out has a default: no bindings, no closures, no attributes, the position zero.
-/

namespace Monomorph.Script

open Wire

/-! ## Types -/

/-- Members as bindings. -/
def bindsWith (type : Json → Decoded TypeSpec) : Json → Decoded BindsSpec
  | .object members => members.mapM fun e => (e.1, ·) <$> type e.2
  | _ => .error .malformed

/-- A type in a place that may be left out. -/
def slotWith {α : Type} (type : Json → Decoded α) : Layout (Slot α) :=
  Slot.mk <$> .field "ty" type <*> .defaulted "opt" false flag

/-- A name with such a type. -/
def fieldWith {α : Type} (type : Json → Decoded α) : Layout (String × Slot α) :=
  (fun n t o => (n, ⟨t, o⟩)) <$> Layout.field "name" text <*> Layout.field "ty" type
    <*> Layout.defaulted "opt" false flag

/-- The first layout whose telling member an object has. -/
def firstOf {α : Type} (members : List (String × Json)) : List (String × Layout α) → Decoded α
  | [] => .error .malformed
  | (name, layout) :: rest =>
      if members.any fun e => e.1 = name then layout.ofJson (.object members)
      else firstOf members rest

/-- A type of at most the given depth. -/
def typeSpecOf : Nat → Json → Decoded TypeSpec
  | 0, _ => .error .malformed
  | n + 1, j =>
      let type := typeSpecOf n
      let binds : Layout BindsSpec := .defaulted "binds" [] (bindsWith type)
      match j with
      | .number _ => (TypeSpec.nominal · []) <$> typeId j
      | .object members => firstOf members [
          ("nominal", TypeSpec.nominal <$> .field "nominal" typeId <*> binds),
          ("entity", TypeSpec.entity <$> .field "entity" typeId <*> binds),
          ("concept", TypeSpec.concept <$> .field "concept"
            (list (Prod.mk <$> Layout.field "decl" typeId <*> binds).ofJson)),
          ("tuple", TypeSpec.tuple <$> .field "tuple" (list (slotWith type).ofJson)),
          ("record", TypeSpec.record <$> .field "record" (list (fieldWith type).ofJson)),
          ("elist", TypeSpec.ephemeral <$> .field "elist" (list type)),
          ("union", TypeSpec.union <$> .field "union" (list type)),
          ("var", TypeSpec.var <$> .field "var" text)]
      | _ => .error .malformed

def typeSpec (j : Json) : Decoded TypeSpec :=
  typeSpecOf j.depth j

def binds : Json → Decoded BindsSpec :=
  bindsWith typeSpec

def functionSpec : Json → Decoded FunctionSpec :=
  (FunctionSpec.mk <$> Layout.field "params" (list (fieldWith typeSpec).ofJson)
    <*> Layout.field "result" typeSpec).ofJson

def bindsField (name : String) : Layout BindsSpec :=
  .defaulted name [] binds

def closureSpec : Layout ClosureSpec :=
  ClosureSpec.mk <$> .field "code" invokeId <*> .defaulted "scope" "" text
    <*> bindsField "captured" <*> .field "ftype" functionSpec

def closuresField : Layout (List ClosureSpec) :=
  .defaulted "pcodes" [] (list closureSpec.ofJson)

/-! ## Interned types -/

/-- An interned type of at most the given depth. -/
def internedOf : Nat → Json → Decoded Interned
  | 0, _ => .error .malformed
  | n + 1, j =>
      let type := internedOf n
      match j with
      | .text key => .ok (.single (.entity key))
      | .object members => firstOf members [
          ("concept", (fun ks => .single (.ofConcepts ks)) <$> Layout.field "concept" (list text)),
          ("tuple", (fun es => .single (.ofTuple es)) <$>
            Layout.field "tuple" (list (slotWith type).ofJson)),
          ("record", (fun es => .single (.ofRecord es)) <$>
            Layout.field "record" (list (fieldWith type).ofJson)),
          ("elist", (fun ts => .single (.ofEphemeral ts)) <$> Layout.field "elist" (list type)),
          ("union", (fun ts => .ofShapes (ts.flatMap Interned.options)) <$>
            Layout.field "union" (list type))]
      | _ => .error .malformed

def interned (j : Json) : Decoded Interned :=
  internedOf j.depth j

/-! ## Work -/

/-- The fields of a static or a method. -/
def memberWork
    (f : TypeId → BindsSpec → InvokeId → BindsSpec → List ClosureSpec → WorkSpec) :
    Layout WorkSpec :=
  f <$> .field "in" typeId <*> bindsField "cbinds" <*> .field "fn" invokeId <*> bindsField "binds"
    <*> closuresField

/-- Work by the name of its kind. -/
def workLayouts : List (String × Layout WorkSpec) := [
  ("type", WorkSpec.type <$> .field "decl" typeId <*> bindsField "binds"),
  ("global", WorkSpec.global <$> .field "const" constId),
  ("const",
    WorkSpec.const <$> .field "in" typeId <*> bindsField "cbinds" <*> .field "const" constId),
  ("function", WorkSpec.function <$> .field "fn" invokeId <*> bindsField "binds" <*> closuresField),
  ("pcode",
    WorkSpec.lambda <$> .field "fn" invokeId <*> .field "ftype" functionSpec
      <*> bindsField "binds"),
  ("static", memberWork WorkSpec.static),
  ("method", memberWork WorkSpec.method)]

/-- Work of a kind given by name. -/
def work (kind : String) (j : Json) : Decoded WorkSpec :=
  match workLayouts.lookup kind with
  | some l => l.ofJson j
  | none => .error .malformed

def virtualCall : Layout CallSpec :=
  CallSpec.mk <$> .field "receiver" typeSpec <*> .field "name" text <*> bindsField "binds"
    <*> closuresField

/-! ## Programs -/

/-- The file of a declaration and its position there; without a file there is no position. -/
def place : Layout (String × Position) :=
  (fun file p => match file with
    | some f => (f, p)
    | none => ("", {}))
  <$> Layout.nullable "file" text <*> Layout.defaulted "sinfo" ({} : Position) position

def textsOrNone (name : String) : Layout (List String) :=
  .defaulted name [] (list text)

def typeDecl : Layout TypeDecl :=
  (fun kind ns name terms provides attributes (file, position) =>
      ⟨default, ns, name, kind, terms, provides, attributes, file, position⟩)
    <$> Layout.field "kind" (fun j => do
        if (← choice false ["entity", "concept"] j) = "entity" then return .entity
        else return .concept)
    <*> .field "ns" text <*> .field "name" text <*> textsOrNone "terms"
    <*> .defaulted "provides" [] (list typeId) <*> textsOrNone "attributes" <*> place

/-- A callable on a program whose types are known. -/
structure InvokeEntry where
  kind : String
  /-- The namespace of a function or lambda. -/
  ns : Option String
  containing : Option TypeId
  name : Option String
  terms : List String
  params : List String
  attributes : List String
  place : String × Position
  position : Position

def invokeEntry : Layout InvokeEntry :=
  InvokeEntry.mk
    <$> .field "kind" (choice false ["function", "method", "static", "lambda"])
    <*> .nullable "ns" text <*> .nullable "in" typeId <*> .nullable "name" text
    <*> textsOrNone "terms" <*> textsOrNone "params" <*> textsOrNone "attributes" <*> place
    <*> .defaulted "sinfo" {} position

/-- The declaration an entry stands for; a container has to exist. -/
def InvokeEntry.decl (e : InvokeEntry) (p : Program) : Except Fault InvokeDecl := do
  let name := e.name.getD ""
  let (file, position) := e.place
  let make (ns : String) (kind : InvokeKind) : InvokeDecl :=
    ⟨default, ns, name, kind, e.terms, e.params, e.attributes, file, position⟩
  if e.kind = "function" then return make (e.ns.getD "") .function
  else if e.kind = "lambda" then
    return { make (e.ns.getD "") .lambda with name := "lambda", position := e.position }
  else
    let t ← match e.containing with
      | some t => p.type t
      | none => .error .unknownId
    return make t.ns (if e.kind = "static" then .static t.id else .method t.id)

/-- A constant on a program whose types are known. -/
structure ConstEntry where
  ns : Option String
  containing : Option TypeId
  name : String
  place : String × Position

def constEntry : Layout ConstEntry :=
  ConstEntry.mk <$> .nullable "ns" text <*> .nullable "in" typeId <*> .field "name" text <*> place

/-- The declaration an entry stands for; a container has to exist. -/
def ConstEntry.decl (e : ConstEntry) (p : Program) : Except Fault ConstDecl := do
  let (file, position) := e.place
  match e.containing with
  | none => return ⟨default, e.ns.getD "", e.name, none, file, position⟩
  | some t =>
      let t ← p.type t
      return ⟨default, t.ns, e.name, some t.id, file, position⟩

/-- Types, then callables, then constants, each under the id of its place. -/
def buildProgram (types : List TypeDecl) (invokes : List InvokeEntry) (consts : List ConstEntry) :
    Except Fault Program := do
  let p := types.foldl Program.addType ∅
  let p ← invokes.foldlM (fun p e => do return p.addInvoke (← e.decl p)) p
  consts.foldlM (fun p e => do return p.addConst (← e.decl p)) p

def program : Json → Decoded (Except Fault Program) :=
  (buildProgram <$> Layout.defaulted "types" [] (list typeDecl.ofJson)
    <*> Layout.defaulted "invokes" [] (list invokeEntry.ofJson)
    <*> Layout.defaulted "consts" [] (list constEntry.ofJson)).ofJson

end Monomorph.Script
