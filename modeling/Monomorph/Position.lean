/-!
# Position — where in a source text something stands

Positions are carried along and shown, never computed with.
-/

namespace Monomorph

/-- A stretch of a source file: line and column, and its extent in the text. -/
structure Position where
  line : UInt32 := 0
  column : UInt32 := 0
  offset : UInt64 := 0
  extent : UInt64 := 0
deriving DecidableEq, Inhabited

/-- The position of what no source text holds. -/
def Position.synthetic : Position := {}

/-- `line:column` -/
def Position.text (p : Position) : String :=
  toString p.line ++ ":" ++ toString p.column

/-- A line of a file. -/
structure Location where
  file : String
  line : UInt32
deriving DecidableEq

/-- One complaint about a program, with the line it is about when there is one. -/
structure Diagnostic where
  location : Option Location := none
  message : String
deriving DecidableEq

/-- `file:line: message`, or the message alone. -/
def Diagnostic.text (d : Diagnostic) : String :=
  match d.location with
  | some l => l.file ++ ":" ++ toString l.line ++ ": " ++ d.message
  | none => d.message

end Monomorph
