import Monomorph.Text.Extending
import Monomorph.Text.Glyphless

/-!
# Text/Quoted — text between double quotes, readable as it stands

A character that would not show by itself is written by its code point: `quote` maps each character
to its spelling and puts double quotes around them.
-/

namespace Monomorph.Text

/-- How a character is spelled between double quotes. -/
def spell (c : Char) : List Char :=
  if c = '\x00' then ['\\', '0']
  else if c = '\t' then ['\\', 't']
  else if c = '\r' then ['\\', 'r']
  else if c = '\n' then ['\\', 'n']
  else if c = '"' then ['\\', '"']
  else if c = '\\' then ['\\', '\\']
  else if isExtending c || isGlyphless c then
    ['\\', 'u', '\x7b'] ++ Nat.toDigits 16 c.toNat ++ ['\x7d']
  else [c]

/-- A text between double quotes. -/
def quote (s : String) : String :=
  String.ofList ('"' :: s.toList.flatMap spell ++ ['"'])

/-- A list of texts, each between double quotes. -/
def quoteAll (l : List String) : String :=
  "[" ++ String.intercalate ", " (l.map quote) ++ "]"

end Monomorph.Text
