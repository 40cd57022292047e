import Monomorph.Assembly.Text
import Monomorph.Body.Verify
import Monomorph.Config.Printer
import Monomorph.Config.Reader
import Monomorph.Json.Reader
import Monomorph.Wire.Assembly

/-!
# Inspect — looking at stored assemblies and configurations

Each inspection takes the content of a file and says what to print and whether anything is wrong.
-/

namespace Monomorph

/-- What an inspection prints, and what is wrong. -/
structure Inspection where
  output : String
  failure : Option Failure := none

/-- An assembly from its text. -/
def Assembly.ofText (text : String) : Except Failure Assembly :=
  match Json.read? text with
  | none => .error (.serialize "not a JSON document")
  | some j => match Wire.assembly j with
    | .ok m => .ok m
    | .error why => .error (.serialize (why.message?.getD "not an assembly"))

/-- The text of an assembly. -/
def Assembly.toText (m : Assembly) : String :=
  (Wire.ofAssembly m).pretty

namespace Inspect

/-- Print an assembly. -/
def dump (content : String) : Inspection :=
  match Assembly.ofText content with
  | .ok m => ⟨m.text, none⟩
  | .error f => ⟨"", some f⟩

/-- What is wrong with a callable, a line for each fault. -/
def complaints (key : String) (c : Callable) : List String :=
  (c.body.violations (c.params.map (·.name))).map fun v => key ++ ": " ++ v.text ++ "\n"

/-- The verdict on so many bodies. -/
def malformed (n : Nat) : Diagnostic where
  message := toString n ++ " malformed bod" ++ if n = 1 then "y" else "ies"

/-- Check every body of an assembly. -/
def check (content : String) : Inspection :=
  match Assembly.ofText content with
  | .error f => ⟨"", some f⟩
  | .ok m =>
      let found := (m.callables.entries.map fun e => complaints e.1 e.2).filter (!·.isEmpty)
      if found.isEmpty then
        ⟨"✓ " ++ toString m.callables.size ++ " bodies are well formed\n", none⟩
      else ⟨String.join found.flatten, some (.rejected [malformed found.length])⟩

/-- Print a configuration in full. -/
def printConfig (c : Config) : Inspection :=
  match c.print? with
  | some s => ⟨s, none⟩
  | none => ⟨"", some (.config "out-of-range integer")⟩

/-- Print the configuration a file gives, or the default without a file. -/
def config : Option String → Inspection
  | none => printConfig {}
  | some content => match Config.read? content with
    | some c => printConfig c
    | none => ⟨"", some (.config "not a configuration")⟩

end Inspect

end Monomorph
