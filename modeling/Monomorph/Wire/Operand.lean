import Monomorph.Op.Operand
import Monomorph.Position
import Monomorph.Wire.Record

/-!
# Wire/Operand — positions, registers and operands as JSON

A literal stands for itself: `null`, a truth value, a number as text, a string in a list of one, a
pattern in a list of two.  A register is a tagged record.  A number's last letter says what it is —
`n` a big integer, `f` or a point a floating one — and is all that is read of it.
-/

namespace Monomorph.Wire

/-! ## Positions -/

def ofPosition (p : Position) : Json :=
  .object [("line", .ofNat p.line.toNat), ("column", .ofNat p.column.toNat),
    ("pos", .ofNat p.offset.toNat), ("span", .ofNat p.extent.toNat)]

def positionLayout : Layout Position :=
  Position.mk <$> .field "line" word32 <*> .field "column" word32 <*> .field "pos" word64
    <*> .field "span" word64

def position : Json → Decoded Position :=
  positionLayout.ofJson

/-! ## Registers -/

def ofTemp (t : Temp) : Json :=
  .object [("tag", .text "temp"), ("regID", .ofNat t.id.toNat), ("nameID", .text t.name)]

def ofVar (v : Var) : Json :=
  .object [("tag", .text "var"), ("lname", .text v.base), ("nameID", .text v.name)]

def ofRegister : Register → Json
  | .temp t => ofTemp t
  | .var v => ofVar v

def tempLayout : Layout Temp :=
  Temp.mk <$> .field "regID" word32 <*> .field "nameID" text

def varLayout : Layout Var :=
  Var.mk <$> .field "lname" text <*> .field "nameID" text

def register (buffered : Bool) : Json → Decoded Register :=
  tagged "tag" buffered ["temp", "var"] fun tag =>
    if tag = "temp" then Register.temp <$> tempLayout else Register.var <$> varLayout

def temp (buffered : Bool) (j : Json) : Decoded Temp := do
  match ← register buffered j with
  | .temp t => return t
  | .var v => .error (.foundVariable v.base)

def var (buffered : Bool) (j : Json) : Decoded Var := do
  match ← register buffered j with
  | .var v => return v
  | .temp t => .error (.foundTemp t.id)

/-! ## Operands -/

/-- A number as it is written: its kind is in its last letter. -/
def numeral : Literal → Option String
  | .int d => some d
  | .bigInt d => some (d ++ "n")
  | .float d => some (if '.' ∈ d.toList then d else d ++ "f")
  | _ => none

def ofLiteral : Literal → Json
  | .none => .null
  | .bool b => .bool b
  | .int d => .text d
  | .bigInt d => .text (d ++ "n")
  | .float d => .text (if '.' ∈ d.toList then d else d ++ "f")
  | .string s => .array [.text s]
  | .regex s => .array [.text s, .text "regex"]

def ofOperand : Operand → Json
  | .register r => ofRegister r
  | .literal l => ofLiteral l

/-- The number a text is. -/
def readNumeral (s : String) : Literal :=
  let cs := s.toList
  if cs.getLast? = some 'n' then .bigInt (String.ofList cs.dropLast)
  else if '.' ∈ cs then .float s
  else if cs.getLast? = some 'f' then .float (String.ofList cs.dropLast)
  else .int s

/-- The texts of a list that holds nothing else. -/
def allTexts : List Json → Option (List String)
  | [] => some []
  | .text s :: r => (allTexts r).map (s :: ·)
  | _ :: _ => none

/-- The string or pattern a list of texts is. -/
def readStrings : List String → Decoded Literal
  | [s] => .ok (.string s)
  | [s, "regex"] => .ok (.regex s)
  | l => .error (.malformedText l)

/-- An operand.  A list of texts is a literal even where it would do for a register. -/
def operand : Json → Decoded Operand
  | .null => .ok (.literal .none)
  | .bool b => .ok (.literal (.bool b))
  | .text s => .ok (.literal (readNumeral s))
  | .array items => match allTexts items with
    | some l => Operand.literal <$> readStrings l
    | none => Operand.register <$> register true (.array items)
  | j => Operand.register <$> register true j

def literal (j : Json) : Decoded Literal := do
  match ← operand j with
  | .literal l => return l
  | .register _ => .error .foundRegister

/-- What is said of a refused value; a form that does not fit says nothing. -/
def Refusal.message? : Refusal → Option String
  | .malformed => none
  | .foundVariable n => some ("expected a temporary, found variable `" ++ n ++ "`")
  | .foundTemp i => some ("expected a variable, found temporary " ++ toString i)
  | .foundRegister => some "expected a constant, found a register"
  | .malformedText l => some ("malformed string constant " ++ Text.quoteAll l)

end Monomorph.Wire
