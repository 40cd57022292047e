import Monomorph.Body.Builder
import Monomorph.Script.TypeSpec
import Monomorph.Wire.Operand

/-!
# Script/Basic — what a scripted front end is told to do

A script says, declaration by declaration, what processing it consists of.  Operands and steps that
could not be read are part of it: they fail when they are reached.
-/

namespace Monomorph

/-- What is complained about, and whether work stops. -/
structure Verdict where
  reports : List Diagnostic := []
  /-- Stop, for this reason. -/
  fail : Option String := none
  /-- Stop with a failure of another kind. -/
  foreign : Option Failure := none

structure FieldScript where
  name : String
  type : Option TypeSpec
  default : Option String

structure TypeScript where
  verdict : Verdict := {}
  /-- Leave the type undeclared. -/
  skip : Bool := false
  /-- Bindings of the supertypes, in order; none where the list ends. -/
  providesBinds : List BindsSpec := []
  fields : List FieldScript := []

structure ConstScript where
  verdict : Verdict := {}
  type : Option TypeSpec := none

/-- What a callable does. -/
inductive ScriptStep
  /-- Call a function, a static or a method. -/
  | call (work : WorkSpec) (result : Option TypeSpec) (args : List (Wire.Decoded Operand))
  | callVirtual (call : CallSpec) (result : Option TypeSpec) (args : List (Wire.Decoded Operand))
  | mention (type : TypeSpec)
  | lambda (decl : InvokeId) (type : FunctionSpec)
  /-- Read a global or a constant. -/
  | read (work : WorkSpec)
  | pattern (text : String)
  | build (steps : List (Wire.Decoded Builder.Step))
  | verdict (v : Verdict)

structure InvokeScript where
  steps : List ScriptStep := []
  /-- Declare a primitive with this implementation. -/
  primitive : Option String := none
  /-- Leave the callable undeclared. -/
  skip : Bool := false
  /-- Add nothing to what the steps wrote. -/
  raw : Bool := false
  /-- Types of the parameters, in order; the usual one where there is none. -/
  params : List (Option TypeSpec) := []
  result : Option TypeSpec := none

structure PatternScript where
  add : List String := []
  verdict : Verdict := {}

structure Script where
  types : List (TypeId × TypeScript) := []
  consts : List (ConstId × ConstScript) := []
  invokes : List (InvokeId × InvokeScript) := []
  patterns : PatternScript := {}
  finalChecks : Verdict := {}

/-- What a scripted front end was called for. -/
inductive ScriptEvent
  | processed (i : Item)
  | patterns
  | finalChecks (pending : Nat)

/-- What a scripted front end keeps: its calls and its complaints, in order. -/
structure Ledger where
  events : List ScriptEvent := []
  complaints : List Diagnostic := []

end Monomorph
