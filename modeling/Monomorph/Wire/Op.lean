import Monomorph.Op.Basic
import Monomorph.Wire.Operand

/-!
# Wire/Op — operations as JSON

An operation is a record tagged with its name.  Its fields are written in the order its layout reads
them, `sinfo` first.
-/

namespace Monomorph.Wire

/-! ## Writing -/

def ofOperands (as : List Operand) : Json :=
  .array (as.map ofOperand)

/-- Pairs of a mark and an operand, as arrays of two. -/
def ofPairs {κ : Type} (f : κ → Json) (ps : List (κ × Operand)) : Json :=
  .array (ps.map fun p => .array [f p.1, ofOperand p.2])

/-- The fields most operations on a value begin with. -/
def viewFields (type : String) (arg : Operand) (argType : String) : List (String × Json) :=
  [("result_type", .text type), ("arg", ofOperand arg), ("arg_infer_type", .text argType)]

/-- The name of a right-hand side, and its fields. -/
def rhsFields : Rhs Operand → String × List (String × Json)
  | .const l => ("load_const", [("src", ofLiteral l)])
  | .safeString v t s =>
      ("load_const_safe_string", [("ivalue", .text v), ("tkey", .text t), ("tskey", .text s)])
  | .typedString v t s p e =>
      ("load_const_typed_string", [("ivalue", .text v), ("tkey", .text t), ("tskey", .text s),
        ("pfunckey", Json.nullable .text p), ("errtype", Json.nullable .text e)])
  | .constant k => ("access_constant_value", [("ckey", .text k)])
  | .fieldDefault k => ("load_field_default_value", [("fkey", .text k)])
  | .argVar v => ("access_arg_variable", [("name", ofVar v)])
  | .localVar v => ("access_local_variable", [("name", ofVar v)])
  | .checkInvariant c t a =>
      ("invoke_invariant_check_direct",
        [("ikey", .text c), ("tkey", .text t), ("rcvr", ofOperand a)])
  | .checkInvariantVirtual t a =>
      ("invoke_invariant_check_virtual_target", [("infer_type", .text t), ("rcvr", ofOperand a)])
  | .construct t as => ("constructor_primary", [("tkey", .text t), ("args", ofOperands as)])
  | .collectionEmpty t => ("constructor_primary_collection_empty", [("tkey", .text t)])
  | .collectionOf t as =>
      ("constructor_primary_collection_singletons", [("tkey", .text t), ("args", ofOperands as)])
  | .collectionCopies t as =>
      ("constructor_primary_collection_copies", [("tkey", .text t), ("args", ofOperands as)])
  | .collectionMixed t as =>
      ("constructor_primary_collection_mixed", [("tkey", .text t), ("args", ofPairs .bool as)])
  | .tuple t as => ("constructor_tuple", [("result_type", .text t), ("args", ofOperands as)])
  | .record t as => ("constructor_record", [("result_type", .text t), ("args", ofPairs .text as)])
  | .ephemeral t as =>
      ("constructor_ephemeral_value_list", [("result_type", .text t), ("args", ofOperands as)])
  | .atIndex t a s i => ("access_from_index", viewFields t a s ++ [("idx", .ofNat i.toNat)])
  | .atIndices t a s is =>
      ("project_from_indices",
        viewFields t a s ++ [("indices", .array (is.map fun i => .ofNat i.toNat))])
  | .atProperty t a s p => ("access_from_property", viewFields t a s ++ [("property", .text p)])
  | .atProperties t a s ps =>
      ("project_from_properties", viewFields t a s ++ [("properties", .texts ps)])
  | .atField t a s k => ("access_from_field", viewFields t a s ++ [("field", .text k)])
  | .atFields t a s ks => ("project_from_fields", viewFields t a s ++ [("fields", .texts ks)])
  | .asTuple t a s o p =>
      ("project_from_type_tuple", viewFields t a s ++ [("istry", .bool o), ("ptype", .text p)])
  | .asRecord t a s o p =>
      ("project_from_type_record", viewFields t a s ++ [("istry", .bool o), ("ptype", .text p)])
  | .asNominal t a s o p =>
      ("project_from_type_nominal", viewFields t a s ++ [("istry", .bool o), ("ptype", .text p)])
  | .withIndices t a s us =>
      ("modify_with_indices",
        viewFields t a s ++ [("updates", ofPairs (fun i => .ofNat i.toNat) us)])
  | .withProperties t a s us =>
      ("modify_with_properties", viewFields t a s ++ [("updates", ofPairs .text us)])
  | .withFields t a s us =>
      ("modify_with_fields", viewFields t a s ++ [("updates", ofPairs .text us)])
  | .extendTuple t a s u r =>
      ("structured_extend_tuple",
        viewFields t a s ++ [("update", ofOperand u), ("update_infer_type", .text r)])
  | .extendRecord t a s u r =>
      ("structured_extend_record",
        viewFields t a s ++ [("update", ofOperand u), ("update_infer_type", .text r)])
  | .extendObject t a s u r ks =>
      ("structured_extend_object",
        viewFields t a s ++ [("update", ofOperand u), ("update_infer_type", .text r),
          ("field_resolves", .array (ks.map fun k => .texts [k.1, k.2]))])
  | .fromEphemeral a t s i =>
      ("load_from_ephemeral_list", [("arg", ofRegister a), ("result_type", .text t),
        ("arg_infer_type", .text s), ("idx", .ofNat i.toNat)])
  | .call t k as =>
      ("invoke_fixed_function",
        [("result_type", .text t), ("mkey", .text k), ("args", ofOperands as)])
  | .callVirtual t k as r =>
      ("invoke_virtual_function", [("result_type", .text t), ("vresolve", .text k),
        ("args", ofOperands as), ("this_infer_type", .text r)])
  | .unary o a t =>
      ("prefix_op", [("op", .text o), ("arg", ofOperand a), ("infer_type", .text t)])
  | .binary lt l o rt r =>
      ("bin_op", [("lhs_infer_type", .text lt), ("lhs", ofOperand l), ("op", .text o),
        ("rhs_infer_type", .text rt), ("rhs", ofOperand r)])
  | .equal lt l o rt r x =>
      ("bin_eq", [("lhs_infer_type", .text lt), ("lhs", ofOperand l), ("op", .text o),
        ("rhs_infer_type", .text rt), ("rhs", ofOperand r), ("relaxed", .bool x)])
  | .less lt l rt r x =>
      ("bin_less", [("lhs_infer_type", .text lt), ("lhs", ofOperand l),
        ("rhs_infer_type", .text rt), ("rhs", ofOperand r), ("relaxed", .bool x)])
  | .compare lt l o rt r =>
      ("bin_cmp", [("lhs_infer_type", .text lt), ("lhs", ofOperand l), ("op", .text o),
        ("rhs_infer_type", .text rt), ("rhs", ofOperand r)])
  | .isNone a => ("is_type_of_none", [("arg", ofOperand a)])
  | .isSome a => ("is_type_of_some", [("arg", ofOperand a)])
  | .isType s a t =>
      ("is_type_of", [("arg_infer_type", .text s), ("arg", ofOperand a), ("oftype", .text t)])

/-- The name of an instruction, and its fields. -/
def instrFields : Instr Operand → String × List (String × Json)
  | .define e t => let f := rhsFields e; (f.1, f.2 ++ [("trgt", ofTemp t)])
  | .assign a t => ("reg_assign", [("src", ofOperand a), ("trgt", ofTemp t)])
  | .truthy a t => ("truthy_convert", [("src", ofOperand a), ("trgt", ofTemp t)])
  | .store a v => ("var_store", [("src", ofOperand a), ("name", ofVar v)])
  | .packSlice a ty t =>
      ("pack_slice", [("src", ofOperand a), ("sltype", .text ty), ("trgt", ofTemp t)])
  | .packExtend b as ty t =>
      ("pack_extend", [("basepack", ofOperand b), ("ext", ofOperands as), ("sltype", .text ty),
        ("trgt", ofTemp t)])
  | .returnAssign a v => ("return_assign", [("src", ofOperand a), ("name", ofVar v)])
  | .abort i => ("abort", [("info", .text i)])
  | .debug none => ("debug", [])
  | .debug (some a) => ("debug", [("value", ofOperand a)])
  | .phi is r =>
      ("phi", [("src", .object (is.entries.map fun e => (e.1, ofRegister e.2))),
        ("trgt", ofRegister r)])
  | .jump l => ("jump", [("trgtblock", .text l)])
  | .branch a x y =>
      ("jump_cond", [("arg", ofOperand a), ("trueblock", .text x), ("falseblock", .text y)])
  | .branchNone a x y =>
      ("jump_none", [("arg", ofOperand a), ("noneblock", .text x), ("someblock", .text y)])
  | .lifetimeStart n ty => ("var_lifetime_start", [("name", .text n), ("rtype", .text ty)])
  | .lifetimeEnd n => ("var_lifetime_end", [("name", .text n)])

def ofOp (o : Op) : Json :=
  let f := instrFields o.instr
  .object (("tag", .text f.1) :: ("sinfo", ofPosition o.position) :: f.2)

/-! ## Reading -/

def textField (name : String) : Layout String := .field name text

def operandField (name : String) : Layout Operand := .field name operand

def operandsField (name : String) : Layout (List Operand) := .field name (list operand)

def flagField (name : String) : Layout Bool := .field name flag

def wordField (name : String) : Layout UInt64 := .field name word64

/-- Make a right-hand side of the fields most operations on a value begin with. -/
def viewOf {α : Type} (f : String → Operand → String → α) : Layout α :=
  f <$> textField "result_type" <*> operandField "arg" <*> textField "arg_infer_type"

def pairsField (name : String) {κ : Type} (read : Json → Decoded κ) :
    Layout (List (κ × Operand)) :=
  .field name (list (pair read operand))

/-- Right-hand sides by name. -/
def rhsLayouts : List (String × Layout (Rhs Operand)) := [
  ("load_const", Rhs.const <$> .field "src" literal),
  ("load_const_safe_string",
    Rhs.safeString <$> textField "ivalue" <*> textField "tkey" <*> textField "tskey"),
  ("load_const_typed_string",
    Rhs.typedString <$> textField "ivalue" <*> textField "tkey" <*> textField "tskey"
      <*> .nullable "pfunckey" text <*> .nullable "errtype" text),
  ("access_constant_value", Rhs.constant <$> textField "ckey"),
  ("load_field_default_value", Rhs.fieldDefault <$> textField "fkey"),
  ("access_arg_variable", Rhs.argVar <$> .field "name" (var true)),
  ("access_local_variable", Rhs.localVar <$> .field "name" (var true)),
  ("invoke_invariant_check_direct",
    Rhs.checkInvariant <$> textField "ikey" <*> textField "tkey" <*> operandField "rcvr"),
  ("invoke_invariant_check_virtual_target",
    Rhs.checkInvariantVirtual <$> textField "infer_type" <*> operandField "rcvr"),
  ("constructor_primary", Rhs.construct <$> textField "tkey" <*> operandsField "args"),
  ("constructor_primary_collection_empty", Rhs.collectionEmpty <$> textField "tkey"),
  ("constructor_primary_collection_singletons",
    Rhs.collectionOf <$> textField "tkey" <*> operandsField "args"),
  ("constructor_primary_collection_copies",
    Rhs.collectionCopies <$> textField "tkey" <*> operandsField "args"),
  ("constructor_primary_collection_mixed",
    Rhs.collectionMixed <$> textField "tkey" <*> pairsField "args" flag),
  ("constructor_tuple", Rhs.tuple <$> textField "result_type" <*> operandsField "args"),
  ("constructor_record", Rhs.record <$> textField "result_type" <*> pairsField "args" text),
  ("constructor_ephemeral_value_list",
    Rhs.ephemeral <$> textField "result_type" <*> operandsField "args"),
  ("access_from_index", viewOf Rhs.atIndex <*> wordField "idx"),
  ("project_from_indices", viewOf Rhs.atIndices <*> .field "indices" (list word64)),
  ("access_from_property", viewOf Rhs.atProperty <*> textField "property"),
  ("project_from_properties", viewOf Rhs.atProperties <*> .field "properties" (list text)),
  ("access_from_field", viewOf Rhs.atField <*> textField "field"),
  ("project_from_fields", viewOf Rhs.atFields <*> .field "fields" (list text)),
  ("project_from_type_tuple", viewOf Rhs.asTuple <*> flagField "istry" <*> textField "ptype"),
  ("project_from_type_record", viewOf Rhs.asRecord <*> flagField "istry" <*> textField "ptype"),
  ("project_from_type_nominal", viewOf Rhs.asNominal <*> flagField "istry" <*> textField "ptype"),
  ("modify_with_indices", viewOf Rhs.withIndices <*> pairsField "updates" word64),
  ("modify_with_properties", viewOf Rhs.withProperties <*> pairsField "updates" text),
  ("modify_with_fields", viewOf Rhs.withFields <*> pairsField "updates" text),
  ("structured_extend_tuple",
    viewOf Rhs.extendTuple <*> operandField "update" <*> textField "update_infer_type"),
  ("structured_extend_record",
    viewOf Rhs.extendRecord <*> operandField "update" <*> textField "update_infer_type"),
  ("structured_extend_object",
    viewOf Rhs.extendObject <*> operandField "update" <*> textField "update_infer_type"
      <*> .field "field_resolves" (list (pair text text))),
  ("load_from_ephemeral_list",
    Rhs.fromEphemeral <$> .field "arg" (register true) <*> textField "result_type"
      <*> textField "arg_infer_type" <*> wordField "idx"),
  ("invoke_fixed_function",
    Rhs.call <$> textField "result_type" <*> textField "mkey" <*> operandsField "args"),
  ("invoke_virtual_function",
    Rhs.callVirtual <$> textField "result_type" <*> textField "vresolve" <*> operandsField "args"
      <*> textField "this_infer_type"),
  ("prefix_op", Rhs.unary <$> textField "op" <*> operandField "arg" <*> textField "infer_type"),
  ("bin_op",
    Rhs.binary <$> textField "lhs_infer_type" <*> operandField "lhs" <*> textField "op"
      <*> textField "rhs_infer_type" <*> operandField "rhs"),
  ("bin_eq",
    Rhs.equal <$> textField "lhs_infer_type" <*> operandField "lhs" <*> textField "op"
      <*> textField "rhs_infer_type" <*> operandField "rhs" <*> flagField "relaxed"),
  ("bin_less",
    Rhs.less <$> textField "lhs_infer_type" <*> operandField "lhs"
      <*> textField "rhs_infer_type" <*> operandField "rhs" <*> flagField "relaxed"),
  ("bin_cmp",
    Rhs.compare <$> textField "lhs_infer_type" <*> operandField "lhs" <*> textField "op"
      <*> textField "rhs_infer_type" <*> operandField "rhs"),
  ("is_type_of_none", Rhs.isNone <$> operandField "arg"),
  ("is_type_of_some", Rhs.isSome <$> operandField "arg"),
  ("is_type_of",
    Rhs.isType <$> textField "arg_infer_type" <*> operandField "arg" <*> textField "oftype")]

/-- Instructions that are no value operation, by name. -/
def otherLayouts : List (String × Layout (Instr Operand)) := [
  ("reg_assign", Instr.assign <$> operandField "src" <*> .field "trgt" (temp true)),
  ("truthy_convert", Instr.truthy <$> operandField "src" <*> .field "trgt" (temp true)),
  ("var_store", Instr.store <$> operandField "src" <*> .field "name" (var true)),
  ("pack_slice",
    Instr.packSlice <$> operandField "src" <*> textField "sltype" <*> .field "trgt" (temp true)),
  ("pack_extend",
    Instr.packExtend <$> operandField "basepack" <*> operandsField "ext" <*> textField "sltype"
      <*> .field "trgt" (temp true)),
  ("return_assign", Instr.returnAssign <$> operandField "src" <*> .field "name" (var true)),
  ("abort", Instr.abort <$> textField "info"),
  ("debug", Instr.debug <$> .defaulted "value" none fun j => some <$> operand j),
  ("phi",
    Instr.phi <$> .field "src" (table (register true)) <*> .field "trgt" (register true)),
  ("jump", Instr.jump <$> textField "trgtblock"),
  ("jump_cond",
    Instr.branch <$> operandField "arg" <*> textField "trueblock" <*> textField "falseblock"),
  ("jump_none",
    Instr.branchNone <$> operandField "arg" <*> textField "noneblock" <*> textField "someblock"),
  ("var_lifetime_start", Instr.lifetimeStart <$> textField "name" <*> textField "rtype"),
  ("var_lifetime_end", Instr.lifetimeEnd <$> textField "name")]

/-- Every instruction by name. -/
def instrLayouts : List (String × Layout (Instr Operand)) :=
  rhsLayouts.map (fun e => (e.1, Instr.define <$> e.2 <*> .field "trgt" (temp true)))
    ++ otherLayouts

/-- The layout of an instruction; an unknown name fits nothing. -/
def instrLayout (name : String) : Layout (Instr Operand) :=
  (instrLayouts.lookup name).getD ⟨[], fun _ => .refused 0 .malformed⟩

def op : Json → Decoded Op :=
  tagged "tag" false (instrLayouts.map (·.1)) fun name =>
    Op.mk <$> .field "sinfo" position <*> instrLayout name

end Monomorph.Wire
