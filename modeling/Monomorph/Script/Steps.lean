import Monomorph.Body.Builder
import Monomorph.Script.Types
import Monomorph.Wire.Op

/-!
# Script/Steps — the steps of a builder in JSON

A step that appends an operation is written like the operation, some under another name.  A
temporary may be written as its number, a variable as its name; flags are off and positions zero
where they are left out.
-/

namespace Monomorph.Script

open Wire

/-! ## Shorthands -/

/-- A temporary by its number. -/
def tempJson : Json → Option Json
  | .number (.whole n) =>
      some (.object [("tag", .text "temp"), ("regID", .number (.whole n)),
        ("nameID", .text ("#tmp_" ++ toString n))])
  | _ => none

mutual

/-- Registers written in full. -/
def expand : Json → Json
  | .object [("t", n)] => (tempJson n).getD (.object [("t", n)])
  | .object [("v", .text s)] => ofVar (.ofBase s)
  | .array items => .array (expandAll items)
  | j => j

def expandAll : List Json → List Json
  | [] => []
  | j :: r => expand j :: expandAll r

end

/-- An operand, a register in short. -/
def shortOperand (j : Json) : Decoded Operand :=
  operand (expand j)

/-! ## Operations -/

/-- Steps and the operations they append, where the names differ. -/
def operationNames : List (String × String) := [
  ("load_validated_typed_string", "load_const_safe_string"),
  ("access_constant", "access_constant_value"),
  ("load_member_field_default_value", "load_field_default_value"),
  ("constructor_value_list", "constructor_ephemeral_value_list"),
  ("truthy_conversion", "truthy_convert"),
  ("local_lifetime_start", "var_lifetime_start"),
  ("local_lifetime_end", "var_lifetime_end"),
  ("debug_break", "debug"),
  ("debug_print", "debug"),
  ("direct_jump", "jump"),
  ("none_jump", "jump_none")]

/-- The name a member of a step has in the operation. -/
def memberName (op name : String) : String :=
  if name = "value" && (op = "load_const_safe_string" || op = "load_const_typed_string") then
    "ivalue"
  else if name = "block" && op = "jump" then "trgtblock"
  else name

/-- A member of a step as the operation has it. -/
def memberValue (op name : String) (j : Json) : Json :=
  if name = "trgt" then (tempJson j).getD j
  else if name = "name"
      && (op = "access_arg_variable" || op = "access_local_variable" || op = "var_store") then
    match j with
    | .text s => ofVar (.ofBase s)
    | j => j
  else expand j

/-- The members of an operation that a step may leave out. -/
def impliedMembers (op : String) : List (String × Json) :=
  [("istry", .bool false), ("relaxed", .bool false)]
    ++ if op = "return_assign" then [("name", ofVar .result)] else []

/-- The members of the operation a step appends. -/
def operationMembers (op : String) (members : List (String × Json)) : List (String × Json) :=
  let given := members.map fun e => (memberName op e.1, memberValue op e.1 e.2)
  given ++ (impliedMembers op).filter fun e => given.all fun g => g.1 ≠ e.1

/-- Where a step stands. -/
def stepPosition : Layout Position :=
  .defaulted "sinfo" {} position

def operation (op : String) (members : List (String × Json)) : Decoded Builder.Step :=
  ((fun p i => Builder.Step.emit ⟨p, i⟩) <$> stepPosition <*> instrLayout op).ofJson
    (.object (operationMembers op members))

/-! ## Other steps -/

def target : Layout Temp :=
  .field "trgt" fun j => Temp.ofId <$> word32 j

/-- Load a literal made of the step's value. -/
def loadOf {α : Type} (read : Json → Decoded α) (f : α → Literal) : Layout Builder.Step :=
  (fun p v t => .emit ⟨p, .define (.const (f v)) t⟩)
    <$> stepPosition <*> .field "value" read <*> target

def keyOf (name : String) : Layout String :=
  .field name fun j => Interned.key <$> interned j

/-- What a call hands back. -/
def returned : Layout Returned :=
  (fun declared list base refs => ⟨declared, list.getD declared, base, refs⟩)
    <$> keyOf "declared"
    <*> .nullable "elist" (fun j => Interned.key <$> interned j)
    <*> .nullable "pack_base" word64
    <*> .defaulted "refs" [] (list (pair text fun j => Interned.key <$> interned j))

/-- Steps that do more than append one operation. -/
def stepLayouts : List (String × Layout Builder.Step) := [
  ("initialize", pure .reset),
  ("tmp", pure .freshTemp),
  ("captured", Builder.Step.capturedName <$> .field "name" text),
  ("new_block", Builder.Step.newBlock <$> .field "prefix" text),
  ("set_active", Builder.Step.activate <$> .field "label" text),
  ("get_body",
    Builder.Step.finish <$> .field "file" text <*> stepPosition <*> .field "params" (list text)),
  ("load_const_none",
    (fun p t => .emit ⟨p, .define (.const .none) t⟩) <$> stepPosition <*> target),
  ("load_const_bool",
    (fun p b t => .emit ⟨p, .define (.const (.bool b)) t⟩)
      <$> stepPosition <*> .defaulted "value" false flag <*> target),
  ("load_const_int", loadOf text .int),
  ("load_const_big_int", loadOf text .bigInt),
  ("load_const_float", loadOf text .float),
  ("load_const_string", loadOf text .string),
  ("load_literal_regex", loadOf text .regex),
  ("prefix_not",
    Builder.Step.emitNot <$> stepPosition <*> .field "op" text <*> .defaulted "isstrict" false flag
      <*> .field "arg" shortOperand <*> .field "infer_type" text <*> target),
  ("bool_jump",
    Builder.Step.emitBranch <$> stepPosition <*> .field "arg" shortOperand
      <*> .defaulted "isstrict" false flag <*> .field "trueblock" text
      <*> .field "falseblock" text),
  ("type_of",
    Builder.Step.emitTypeTest <$> stepPosition <*> target <*> .field "chktype" text
      <*> .field "src_infer_type" text <*> .field "src" shortOperand),
  ("invoke_fixed_function",
    Builder.Step.emitCall <$> stepPosition <*> .field "ikey" text
      <*> .field "args" (list shortOperand) <*> .field "ret" returned.ofJson <*> target)]

/-- A step of a builder. -/
def builderStep (j : Json) : Decoded Builder.Step := do
  let name ← (Layout.field "e" text).ofJson j
  match stepLayouts.lookup name, j with
  | some l, _ => l.ofJson j
  | none, .object members => operation ((operationNames.lookup name).getD name) members
  | none, _ => .error .malformed

end Monomorph.Script
