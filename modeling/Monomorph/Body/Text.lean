import Monomorph.Body.Order

/-!
# Body/Text — bodies as text, for people
-/

namespace Monomorph

/-- A label on a line of its own, and the operations under it. -/
def Block.text (b : Block) : String :=
  b.label ++ ":\n" ++ String.join (b.ops.map fun o => "  " ++ o.text ++ "\n")

def Blocks.text (bs : Blocks) : String :=
  String.join (bs.ordered.map Block.text)

/-- A body between curly brackets, under the name of its file. -/
def Body.text (b : Body) : String :=
  "body " ++ b.file ++ " \x7b\n" ++ b.blocks.text ++ "\x7d\n"

end Monomorph
