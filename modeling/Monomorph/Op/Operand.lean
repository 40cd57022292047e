import Monomorph.Table
import Monomorph.Text.Quoted

/-!
# Op/Operand — registers, literals, and the operands made of them

A register has a base name, shared by all its versions, and a name, which is its version's.  Before
names are made unique the two are the same.
-/

namespace Monomorph

/-- A temporary, known by its number. -/
structure Temp where
  id : UInt32
  /-- The name of this version. -/
  name : String
deriving DecidableEq

/-- A local, a parameter or a captured variable. -/
structure Var where
  base : String
  /-- The name of this version. -/
  name : String
deriving DecidableEq

inductive Register
  | temp (t : Temp)
  | var (v : Var)
deriving DecidableEq

namespace Temp

def base (t : Temp) : String :=
  "#tmp_" ++ toString t.id

/-- The first version of a temporary. -/
def ofId (id : UInt32) : Temp :=
  ⟨id, "#tmp_" ++ toString id⟩

end Temp

namespace Var

/-- The first version of a variable. -/
def ofBase (base : String) : Var :=
  ⟨base, base⟩

/-- The variable a body's result is left in. -/
def result : Var :=
  ofBase "$__ir_ret__"

/-- The name under which a closure knows a variable it captured. -/
def capturedName (name : String) : String :=
  "__c_" ++ name

end Var

/-- What becomes of each kind of register. -/
structure Renaming where
  temp : Temp → Temp := id
  var : Var → Var := id

namespace Register

def name : Register → String
  | .temp t => t.name
  | .var v => v.name

def base : Register → String
  | .temp t => t.base
  | .var v => v.base

def isTemp : Register → Bool
  | .temp _ => true
  | .var _ => false

/-- The same register as another version. -/
def withName (name : String) : Register → Register
  | .temp t => .temp { t with name }
  | .var v => .var { v with name }

/-- A register under a renaming. -/
def rename (r : Renaming) : Register → Register
  | .temp t => .temp (r.temp t)
  | .var v => .var (r.var v)

end Register

/-- The renaming that gives every register another version's name. -/
def Renaming.byName (f : Register → String) : Renaming where
  temp t := { t with name := f (.temp t) }
  var v := { v with name := f (.var v) }

/-- A literal.  Numbers are kept as they were written. -/
inductive Literal
  | none
  | bool (b : Bool)
  | int (digits : String)
  | bigInt (digits : String)
  | float (digits : String)
  | string (s : String)
  | regex (s : String)
deriving DecidableEq

namespace Literal

/-- The literal's identity, unlike that of any register. -/
def name : Literal → String
  | .none => "=none="
  | .bool true => "=true="
  | .bool false => "=false="
  | .int d => "=int=" ++ d
  | .bigInt d => "=bigint=" ++ d
  | .float d => "=float64=" ++ d
  | .string s => "=string=" ++ s
  | .regex s => "=regex=" ++ s

def text : Literal → String
  | .none => "none"
  | .bool true => "true"
  | .bool false => "false"
  | .int d => d
  | .bigInt d => d ++ "n"
  | .float d => d ++ "f"
  | .string s => Text.quote s
  | .regex s => "/" ++ s ++ "/"

end Literal

inductive Operand
  | register (r : Register)
  | literal (l : Literal)
deriving DecidableEq

namespace Operand

def name : Operand → String
  | .register r => r.name
  | .literal l => l.name

def text : Operand → String
  | .register r => r.name
  | .literal l => l.text

def register? : Operand → Option Register
  | .register r => some r
  | .literal _ => none

/-- An operand that is a temporary. -/
def ofTemp (t : Temp) : Operand := .register (.temp t)

/-- An operand that is a variable. -/
def ofVar (v : Var) : Operand := .register (.var v)

end Operand

end Monomorph
