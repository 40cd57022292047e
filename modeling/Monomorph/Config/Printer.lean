import Monomorph.Config.Basic
import Monomorph.Json.Printer

/-!
# Config/Printer — a configuration as text

One setting on a line, in a fixed order; a list of two or more takes a line for each.  Of the four
ways to write a string the first that shows it unescaped is taken.  The text has whole numbers of 63
bits only, so a larger bound cannot be written.
-/

namespace Monomorph.Config

/-- A character that has to be escaped wherever it stands. -/
def isControl (c : Char) : Bool :=
  (c.toNat < 0x20 && c ≠ '\t' && c ≠ '\n') || c.toNat = 0x7F

/-- Whether a run of quotes longer than `most` occurs, `run` having been read. -/
def hasRun (quote : Char) (most run : Nat) : List Char → Bool
  | [] => decide (most < run)
  | c :: r =>
      if c = quote then hasRun quote most (run + 1) r else most < run || hasRun quote most 0 r

/-- Four hexadecimal digits, in upper case. -/
def hex4 (n : Nat) : List Char :=
  [n / 4096 % 16, n / 256 % 16, n / 16 % 16, n % 16].map fun d => (Json.hexDigit d).toUpper

/-- A character in an escaped string. -/
def escape (multiline : Bool) (c : Char) : List Char :=
  if c = '\x08' then ['\\', 'b']
  else if c = '\t' then ['\\', 't']
  else if c = '\n' then if multiline then ['\n'] else ['\\', 'n']
  else if c = '\x0c' then ['\\', 'f']
  else if c = '\r' then ['\\', 'r']
  else if c = '\\' then ['\\', '\\']
  else if isControl c then ['\\', 'u'] ++ hex4 c.toNat
  else [c]

/-- The characters of an escaped string, where no more than `most` quotes may stand in a row and
`run` stand before. -/
def escapeAll (multiline : Bool) (most run : Nat) : List Char → List Char
  | [] => []
  | c :: r =>
      if c = '"' then
        if run < most then '"' :: escapeAll multiline most (run + 1) r
        else '\\' :: '"' :: escapeAll multiline most 0 r
      else escape multiline c ++ escapeAll multiline most 0 r

/-- A string the way that suits it. -/
def quote (s : String) : String :=
  let cs := s.toList
  let control := cs.any isControl
  let backslash := decide ('\\' ∈ cs)
  let multiline := decide ('\n' ∈ cs)
  let lead := if multiline then "\n" else ""
  let short := "\"" ++ String.ofList (escapeAll false 0 0 cs) ++ "\""
  let long := "\"\"\"" ++ lead ++ String.ofList (escapeAll true 2 0 cs) ++ "\"\"\""
  if !control && !backslash && !hasRun '"' 0 0 cs && !multiline then short
  else if !control && !hasRun '\'' 0 0 cs && !multiline then "'" ++ s ++ "'"
  else if !control && !backslash && !hasRun '"' 2 0 cs then long
  else if !control && !hasRun '\'' 2 0 cs then "'''" ++ lead ++ s ++ "'''"
  else if multiline then long
  else short

/-- A list of strings. -/
def quoteList : List String → String
  | [] => "[]"
  | [s] => "[" ++ quote s ++ "]"
  | l => "[\n" ++ String.join (l.map fun s => "    " ++ quote s ++ ",\n") ++ "]"

/-- The text of a configuration, if it has one. -/
def print? (c : Config) : Option String := do
  let rounds ← match c.maxRounds with
    | none => some ""
    | some n =>
        if n.toNat < UInt64.size / 2 then some ("max_fixpoint_rounds = " ++ toString n ++ "\n")
        else none
  return "entrypoint_attribute = " ++ quote c.entryAttribute ++ "\n"
    ++ "core_namespace = " ++ quote c.coreNamespace ++ "\n"
    ++ "core_types = " ++ quoteList c.coreTypes ++ "\n"
    ++ rounds
    ++ "infer_var_types = " ++ (if c.inferTypes then "true" else "false") ++ "\n"

end Monomorph.Config
