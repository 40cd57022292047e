import Monomorph.Json.Basic

/-!
# Json/Printer — JSON values to text

`compact` writes a value on one line with no blanks; `pretty` puts every item and member on a line
of its own, two blanks deeper than its bracket, and leaves empty brackets closed.  Text is escaped
only where it has to be: quotes, backslashes and control characters.  What is no value is written
as `null`.
-/

namespace Monomorph.Json

/-- A digit below sixteen, in lower case. -/
def hexDigit (n : Nat) : Char :=
  if n < 10 then Char.ofNat ('0'.toNat + n) else Char.ofNat ('a'.toNat + (n - 10))

/-- A character inside quotes. -/
def escape (c : Char) : List Char :=
  if c = '"' then ['\\', '"']
  else if c = '\\' then ['\\', '\\']
  else if c = '\n' then ['\\', 'n']
  else if c = '\r' then ['\\', 'r']
  else if c = '\t' then ['\\', 't']
  else if c = '\x08' then ['\\', 'b']
  else if c = '\x0c' then ['\\', 'f']
  else if c.toNat < 0x20 then
    ['\\', 'u', '0', '0', hexDigit (c.toNat / 16), hexDigit (c.toNat % 16)]
  else [c]

/-- A text in quotes, after `out`. -/
def writeText (out : String) (s : String) : String :=
  (s.foldl (fun out c => (escape c).foldl String.push out) (out.push '"')).push '"'

def Number.spelling : Number → String
  | .whole n => toString n
  | .real s => s

mutual

/-- A value on one line, after `out`. -/
def writeCompact (out : String) : Json → String
  | .null | .unreadable => out ++ "null"
  | .bool b => out ++ if b then "true" else "false"
  | .number n => out ++ n.spelling
  | .text s => writeText out s
  | .array [] => out ++ "[]"
  | .array (j :: r) => (writeItems (writeCompact (out.push '[') j) r).push ']'
  | .object [] => out ++ "\x7b\x7d"
  | .object ((k, v) :: r) =>
      (writeMembers (writeCompact ((writeText (out.push '\x7b') k).push ':') v) r).push '\x7d'

def writeItems (out : String) : List Json → String
  | [] => out
  | j :: r => writeItems (writeCompact (out.push ',') j) r

def writeMembers (out : String) : List (String × Json) → String
  | [] => out
  | (k, v) :: r => writeMembers (writeCompact ((writeText (out.push ',') k).push ':') v) r

end

/-- A value on one line. -/
def compact (j : Json) : String :=
  writeCompact "" j

/-- A line break and the blanks of a depth, after `out`. -/
def breakLine (out : String) (depth : Nat) : String :=
  out.push '\n' ++ String.ofList (List.replicate (2 * depth) ' ')

mutual

/-- A value over several lines, after `out`, inside `depth` brackets. -/
def writePretty (depth : Nat) (out : String) : Json → String
  | .null | .unreadable => out ++ "null"
  | .bool b => out ++ if b then "true" else "false"
  | .number n => out ++ n.spelling
  | .text s => writeText out s
  | .array [] => out ++ "[]"
  | .array (j :: r) =>
      (breakLine (prettyItems (depth + 1)
        (writePretty (depth + 1) (breakLine (out.push '[') (depth + 1)) j) r) depth).push ']'
  | .object [] => out ++ "\x7b\x7d"
  | .object ((k, v) :: r) =>
      (breakLine (prettyMembers (depth + 1)
        (writePretty (depth + 1)
          (writeText (breakLine (out.push '\x7b') (depth + 1)) k ++ ": ") v) r) depth).push '\x7d'

def prettyItems (depth : Nat) (out : String) : List Json → String
  | [] => out
  | j :: r => prettyItems depth (writePretty depth (breakLine (out.push ',') depth) j) r

def prettyMembers (depth : Nat) (out : String) : List (String × Json) → String
  | [] => out
  | (k, v) :: r =>
      prettyMembers depth
        (writePretty depth (writeText (breakLine (out.push ',') depth) k ++ ": ") v) r

end

/-- A value over several lines. -/
def pretty (j : Json) : String :=
  writePretty 0 "" j

end Monomorph.Json
