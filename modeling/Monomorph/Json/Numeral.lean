import Monomorph.Json.Basic

/-!
# Json/Numeral — numbers as they are written

A numeral is a sign, whole digits, and a fraction and an exponent that may be missing.  Its size is
kept as a significand of 64 bits and a power of ten: once the significand is full, further whole
digits only raise the power, and further digits of a fraction are passed over.  A numeral is out of
range where significand and power, each of them rounded to 53 binary digits, have a product that is
not below `2 ^ 1024` when it is rounded so itself.
-/

namespace Monomorph.Json

structure Numeral where
  negative : Bool
  whole : List Char
  /-- The digits after the point, if there is one. -/
  fraction : Option (List Char)
  exponent : Option Int

/-! ## Reading -/

/-- Split after the leading decimal digits. -/
def spanDigits : List Char → List Char × List Char
  | [] => ([], [])
  | c :: r => if c.isDigit then let s := spanDigits r; (c :: s.1, s.2) else ([], c :: r)

/-- The value of a decimal digit. -/
def digit (c : Char) : Nat :=
  c.toNat - '0'.toNat

/-- The value of decimal digits. -/
def decimal (ds : List Char) : Nat :=
  ds.foldl (fun n c => n * 10 + digit c) 0

/-- The value of decimal digits, if there are any and nothing else. -/
def decimal? (ds : List Char) : Option Nat :=
  if ds.isEmpty || !ds.all Char.isDigit then none else some (decimal ds)

/-- The exponent a tail is; an empty tail is none. -/
def exponent? : List Char → Option (Option Int)
  | [] => some none
  | e :: r =>
      if e = 'e' || e = 'E' then
        match r with
        | '+' :: r => (decimal? r).map fun n => some (n : Int)
        | '-' :: r => (decimal? r).map fun n => some (-(n : Int))
        | r => (decimal? r).map fun n => some (n : Int)
      else none

/-- A fraction and an exponent, each of which may be missing. -/
def fraction? : List Char → Option (Option (List Char) × Option Int)
  | '.' :: r =>
      let (digits, tail) := spanDigits r
      if digits.isEmpty then none else (exponent? tail).map (some digits, ·)
  | r => (exponent? r).map (none, ·)

/-- The numeral that is written so: digits without leading zeros, and a tail. -/
def Numeral.ofChars? (cs : List Char) : Option Numeral :=
  let (negative, body) := match cs with
    | '-' :: r => (true, r)
    | r => (false, r)
  let (digits, tail) := spanDigits body
  if digits.isEmpty || (digits.length > 1 && digits.head? = some '0') then none
  else (fraction? tail).map fun t => ⟨negative, digits, t.1, t.2⟩

/-! ## Size -/

/-- A significand, and the power of ten it is multiplied by. -/
structure Scaled where
  significand : Nat := 0
  power : Int := 0

/-- Whether one more digit would not fit. -/
def Scaled.isFull (s : Scaled) (c : Char) : Bool :=
  s.significand * 10 + digit c ≥ UInt64.size

/-- Whole digits after others; none is taken up after one that did not fit. -/
def Scaled.addWhole (s : Scaled) : List Char → Scaled
  | [] => s
  | c :: r =>
      if s.isFull c then { s with power := s.power + (r.length + 1) }
      else addWhole { s with significand := s.significand * 10 + digit c } r

/-- Digits after the point; none is taken up after one that did not fit. -/
def Scaled.addFraction (s : Scaled) : List Char → Scaled
  | [] => s
  | c :: r =>
      if s.isFull c then s
      else addFraction ⟨s.significand * 10 + digit c, s.power - 1⟩ r

/-- The nearest number of 53 binary digits and zeros after them; a half goes to the even one. -/
def roundBinary (n : Nat) : Nat :=
  let unit := Nat.pow 2 (n.log2 - 52)
  let below := n / unit
  let rest := 2 * (n % unit)
  if rest < unit || (rest = unit && below % 2 = 0) then below * unit else (below + 1) * unit

/-- Whether a number is below the bound; the powers of ten end at 308. -/
def Scaled.inRange (s : Scaled) : Bool :=
  s.significand = 0 || s.power < 0 ||
    (s.power ≤ 308 &&
      roundBinary (roundBinary s.significand * roundBinary (Nat.pow 10 s.power.toNat))
        < Nat.pow 2 1024)

namespace Numeral

def scaled (n : Numeral) : Scaled :=
  let s := (({} : Scaled).addWhole n.whole).addFraction (n.fraction.getD [])
  { s with power := s.power + n.exponent.getD 0 }

/-- Whether only digits are written. -/
def isInteger (n : Numeral) : Bool :=
  n.fraction.isNone && n.exponent.isNone

/-- The whole number within 64 bits, with a sign or without, that is written as one; negative zero is
none. -/
def integer? (n : Numeral) : Option Int :=
  let v := decimal n.whole
  if !n.isInteger then none
  else if n.negative then if v = 0 || v > UInt64.size / 2 then none else some (-v)
  else if v < UInt64.size then some v else none

end Numeral

/-- The value of a numeral, which is also given as it is written. -/
def ofNumeral (n : Numeral) (written : List Char) : Json :=
  match n.integer? with
  | some v => .number (.whole v)
  | none =>
      if !n.scaled.inRange then .unreadable
      else .number (.real (String.ofList written ++ if n.isInteger then ".0" else ""))

end Monomorph.Json
