import Monomorph.Script.Basic
import Monomorph.Script.Steps

/-!
# Script/Reader — scripts in JSON

Every part of a script may be left out.  Declarations are named by their ids, written in decimal.
-/

namespace Monomorph.Script

open Wire

/-! ## Verdicts -/

/-- A complaint, about a line if a file is named. -/
def report : Layout Diagnostic :=
  (fun message file line => ⟨file.map fun f => ⟨f, line⟩, message⟩)
    <$> .field "message" text <*> .nullable "file" text <*> .defaulted "line" 0 word32

/-- A failure that is not put down to the item under way. -/
def foreign : Layout Failure :=
  (fun kind message =>
      if kind = "config" then .config message
      else if kind = "serialize" then .serialize message
      else if kind = "io" then .io message
      else .rejected [{ message }])
    <$> Layout.field "kind" text <*> Layout.field "message" text

def verdict : Layout Verdict :=
  Verdict.mk <$> .defaulted "report" [] (list report.ofJson) <*> .nullable "fail" text
    <*> .nullable "foreign" foreign.ofJson

/-! ## Steps -/

def args : Layout (List (Decoded Operand)) :=
  .defaulted "args" [] fun
    | .array items => .ok (items.map shortOperand)
    | _ => .error .malformed

def result : Layout (Option TypeSpec) :=
  .nullable "result" typeSpec

/-- A call of a piece of work. -/
def callStep (kind : String) (j : Json) : Decoded ScriptStep := do
  let w ← work kind j
  (ScriptStep.call w <$> result <*> args).ofJson j

def step (j : Json) : Decoded ScriptStep := do
  match ← (Layout.field "do" text).ofJson j with
  | "call" => callStep "function" j
  | "static" => callStep "static" j
  | "method" => callStep "method" j
  | "virtual" => (ScriptStep.callVirtual <$> virtualCall <*> result <*> args).ofJson j
  | "type" => (ScriptStep.mention <$> Layout.field "ty" typeSpec).ofJson j
  | "lambda" =>
      (ScriptStep.lambda <$> Layout.field "fn" invokeId
        <*> Layout.field "ftype" functionSpec).ofJson j
  | "global" => ScriptStep.read <$> work "global" j
  | "const" => ScriptStep.read <$> work "const" j
  | "regex" => (ScriptStep.pattern <$> Layout.field "value" text).ofJson j
  | "emit" =>
      (ScriptStep.build <$> Layout.field "ops" fun
        | .array items => .ok (items.map builderStep)
        | _ => .error .malformed).ofJson j
  | "outcome" => (ScriptStep.verdict <$> verdict).ofJson j
  | _ => .error .malformed

/-! ## Scripts -/

def fieldScript : Layout FieldScript :=
  FieldScript.mk <$> .field "name" text <*> .nullable "ty" typeSpec
    <*> .nullable "default" text

def typeScript : Layout TypeScript :=
  TypeScript.mk <$> verdict <*> Layout.defaulted "skip" false flag
    <*> Layout.defaulted "provides_binds" [] (list fun j => (·.getD []) <$> nullable binds j)
    <*> Layout.defaulted "fields" [] (list fieldScript.ofJson)

def constScript : Layout ConstScript :=
  ConstScript.mk <$> verdict <*> .nullable "ty" typeSpec

def invokeScript : Layout InvokeScript :=
  InvokeScript.mk <$> Layout.defaulted "steps" [] (list step) <*> .nullable "primitive" text
    <*> Layout.defaulted "skip" false flag <*> Layout.defaulted "raw" false flag
    <*> Layout.defaulted "params" [] (list (nullable typeSpec)) <*> result

def patternScript : Layout PatternScript :=
  PatternScript.mk <$> Layout.defaulted "add" [] (list text) <*> verdict

/-- Scripts by the ids of their declarations. -/
def byId {ι α : Type} (id : UInt32 → ι) (layout : Layout α) : Json → Decoded (List (ι × α))
  | .object members => members.mapM fun e => match e.1.toNat? with
    | some n => (id (UInt32.ofNat n), ·) <$> layout.ofJson e.2
    | none => .error .malformed
  | _ => .error .malformed

def script : Json → Decoded Script :=
  (Script.mk <$> Layout.defaulted "types" [] (byId TypeId.mk typeScript)
    <*> Layout.defaulted "consts" [] (byId ConstId.mk constScript)
    <*> Layout.defaulted "invokes" [] (byId InvokeId.mk invokeScript)
    <*> Layout.defaulted "regex_info" {} patternScript.ofJson
    <*> Layout.defaulted "final_checks" {} verdict.ofJson).ofJson

/-! ## Events -/

/-- A call of a scripted front end, as its name and what it was given. -/
def ofEvent : ScriptEvent → Json
  | .patterns => .texts ["regex_info"]
  | .finalChecks n => .array [.text "final_checks", .ofNat n]
  | .processed i => .array (match i.work with
    | .type .. => [.text "type", .text i.key]
    | .global _ => [.text "global", .text i.key]
    | .const t outer _ => [.text "const", .text i.key, ofTypeId t, .text (Key.binds outer)]
    | .function _ _ cs => [.text "function", .text i.key, .text (Key.closures cs)]
    | .lambda _ type _ => [.text "lambda", .text i.key, .text type.key]
    | .static m => [.text "static", .text i.key, ofTypeId m.containing]
    | .method m => [.text "method", .text i.key, ofTypeId m.containing,
        Json.nullable (fun f => .text f.slot) i.filling,
        Json.nullable (fun f => .text f.receiver) i.filling])

end Monomorph.Script
