import Monomorph.Assembly.Basic
import Monomorph.Body.Text

/-!
# Assembly/Text — an assembly as text, for people
-/

namespace Monomorph

/-- A callable's signature and its body. -/
def Callable.text (key : String) (c : Callable) : String :=
  let params := c.params.map fun p => p.name ++ ": " ++ p.type
  "fn " ++ key ++ "(" ++ commas params ++ ") -> " ++ c.result ++ " \x7b\n" ++ c.body.blocks.text
    ++ "\x7d\n"

/-- The callables with a body, an empty line between them. -/
def Assembly.text (m : Assembly) : String :=
  String.intercalate "\n" (m.callables.entries.map fun e => e.2.text e.1)

end Monomorph
