import Monomorph.Wire.Record

/-!
# Config/Basic — what a run can be told

Every setting has a default, and there are no settings but these.
-/

namespace Monomorph

structure Config where
  /-- Attribute that marks the functions a program starts from. -/
  entryAttribute : String := "entrypoint"
  /-- Namespace of the core types. -/
  coreNamespace : String := "NSCore"
  /-- Core types that are always specialized, by name. -/
  coreTypes : List String :=
    ["Any", "Some", "Truthy", "None", "Bool", "Int", "BigInt", "Float64", "String", "Regex"]
  /-- Most rounds of dispatch; any number if there is none. -/
  maxRounds : Option UInt64 := none
  /-- Whether the names in each body are given types at the end. -/
  inferTypes : Bool := true
deriving DecidableEq

instance : Inhabited Config := ⟨{}⟩

/-- Full name of a core type. -/
def Config.coreType (c : Config) (name : String) : String :=
  c.coreNamespace ++ "::" ++ name

namespace Wire

def ofConfig (c : Config) : Json :=
  .object ([("entrypoint_attribute", .text c.entryAttribute),
      ("core_namespace", .text c.coreNamespace), ("core_types", .texts c.coreTypes)]
    ++ (match c.maxRounds with
      | some n => [("max_fixpoint_rounds", .ofNat n.toNat)]
      | none => [])
    ++ [("infer_var_types", .bool c.inferTypes)])

def configLayout : Layout Config :=
  let d : Config := {}
  Config.mk <$> .defaulted "entrypoint_attribute" d.entryAttribute text
    <*> .defaulted "core_namespace" d.coreNamespace text
    <*> .defaulted "core_types" d.coreTypes (list text)
    <*> .defaulted "max_fixpoint_rounds" d.maxRounds (nullable word64)
    <*> .defaulted "infer_var_types" d.inferTypes flag

/-- A configuration; a setting that does not exist is refused. -/
def config : Json → Decoded Config
  | .object entries =>
      if entries.all fun e => decide (e.1 ∈ configLayout.names) then
        configLayout.ofJson (.object entries)
      else .error .malformed
  | j => configLayout.ofJson j

end Wire

end Monomorph
