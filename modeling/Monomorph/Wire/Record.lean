import Monomorph.Json.Basic
import Monomorph.Table

/-!
# Wire/Record — reading records from JSON

A record is an object with a member for each field, or an array of its fields in the order declared.
A `Layout` is a list of field names together with a way to build a value from them; layouts are
combined field by field.  Of several faults the one that stands first in the document is reported,
and a missing field is noticed last.  A member that is no field is passed over, unless it lies in a
value whose form has to be found out: that is taken `whole`.
-/

namespace Monomorph.Wire

/-- Why a JSON value was refused. -/
inductive Refusal
  /-- It has not the form asked for. -/
  | malformed
  | foundVariable (name : String)
  | foundTemp (id : UInt32)
  | foundRegister
  /-- A list of texts that is no string constant. -/
  | malformedText (parts : List String)
deriving DecidableEq

abbrev Decoded := Except Refusal

/-- A value under construction, or the first fault and where it stands. -/
inductive Gathered (α : Type)
  | found (a : α)
  | refused (place : Nat) (why : Refusal)

namespace Gathered

variable {α β : Type}

def map (f : α → β) : Gathered α → Gathered β
  | .found a => .found (f a)
  | .refused i w => .refused i w

/-- Both parts, or the fault that stands first. -/
def app : Gathered (α → β) → Gathered α → Gathered β
  | .found f, .found a => .found (f a)
  | .found _, .refused i w | .refused i w, .found _ => .refused i w
  | .refused i w, .refused j v => if j < i then .refused j v else .refused i w

def decoded : Gathered α → Decoded α
  | .found a => .ok a
  | .refused _ w => .error w

end Gathered

/-- The members of a record at hand. -/
structure Members where
  entries : List (String × Json)
  /-- Whether they came from an array, where none but the last can be missing. -/
  positional : Bool := false

/-- How often a name occurs, and its first value with its place. -/
def Members.occurrences (m : Members) (name : String) : List (Nat × Json) :=
  m.entries.zipIdx.filterMap fun e => if e.1.1 = name then some (e.2, e.1.2) else none

/-- The field under a name; `missing` is its value when it is not there. -/
def Members.field {α : Type} (m : Members) (name : String) (missing : Option α)
    (read : Json → Decoded α) : Gathered α :=
  match m.occurrences name with
  | [] => match missing with
    | some a => .found a
    | none => .refused m.entries.length .malformed
  | [(i, j)] => match read j with
    | .ok a => .found a
    | .error w => .refused i w
  | _ :: (i, _) :: _ => .refused i .malformed

/-- The fields of a record, and the value they make. -/
structure Layout (α : Type) where
  names : List String
  read : Members → Gathered α

namespace Layout

variable {α β : Type}

instance : Functor Layout where
  map f l := ⟨l.names, fun m => (l.read m).map f⟩

instance : Applicative Layout where
  pure a := ⟨[], fun _ => .found a⟩
  seq f l := let l := l (); ⟨f.names ++ l.names, fun m => (f.read m).app (l.read m)⟩

/-- A field that has to be there. -/
def field (name : String) (read : Json → Decoded α) : Layout α :=
  ⟨[name], fun m => m.field name none read⟩

/-- A field that may be `null`, or missing from an object. -/
def nullable (name : String) (read : Json → Decoded α) : Layout (Option α) :=
  ⟨[name], fun m => m.field name (if m.positional then none else some none) fun
    | .null => .ok none
    | j => some <$> read j⟩

/-- A field with a value of its own when it is missing. -/
def defaulted (name : String) (default : α) (read : Json → Decoded α) : Layout α :=
  ⟨[name], fun m => m.field name (some default) read⟩

/-- The record an array is. -/
def ofArray (l : Layout α) (items : List Json) : Decoded α :=
  match l.read ⟨l.names.zip items, true⟩ with
  | .found a => if items.length ≤ l.names.length then .ok a else .error .malformed
  | .refused _ w => .error w

/-- The record a value is. -/
def ofJson (l : Layout α) : Json → Decoded α
  | .object entries => (l.read ⟨entries, false⟩).decoded
  | .array items => l.ofArray items
  | _ => .error .malformed

end Layout

/-! ## Plain values -/

def text : Json → Decoded String
  | .text s => .ok s
  | _ => .error .malformed

def flag : Json → Decoded Bool
  | .bool b => .ok b
  | _ => .error .malformed

/-- A natural number below a bound. -/
def natBelow (bound : Nat) : Json → Decoded Nat
  | .number (.whole n) => if 0 ≤ n ∧ n < bound then .ok n.toNat else .error .malformed
  | _ => .error .malformed

def word32 (j : Json) : Decoded UInt32 :=
  UInt32.ofNat <$> natBelow UInt32.size j

def word64 (j : Json) : Decoded UInt64 :=
  UInt64.ofNat <$> natBelow UInt64.size j

section

variable {α β : Type}

def list (read : Json → Decoded α) : Json → Decoded (List α)
  | .array items => items.mapM read
  | _ => .error .malformed

/-- Two values in an array; a fault in either comes before one in their number. -/
def pair (first : Json → Decoded α) (second : Json → Decoded β) : Json → Decoded (α × β)
  | .array (a :: b :: rest) => do
      let x ← first a
      let y ← second b
      if rest.isEmpty then return (x, y) else .error .malformed
  | .array [a] => do
      let _ ← first a
      .error .malformed
  | _ => .error .malformed

def nullable (read : Json → Decoded α) : Json → Decoded (Option α)
  | .null => .ok none
  | j => some <$> read j

/-- A table from an object; of equal keys the last wins. -/
def table (read : Json → Decoded α) : Json → Decoded (Table α)
  | .object entries => do
      let entries ← entries.mapM fun e => (e.1, ·) <$> read e.2
      return Table.ofList entries
  | _ => .error .malformed

end

/-! ## Variants -/

/-- One of several names.  Where a value is kept aside before its form is known (`buffered`), the
number of the name will do. -/
def choice (buffered : Bool) (names : List String) : Json → Decoded String
  | .text s => if s ∈ names then .ok s else .error .malformed
  | .number (.whole n) =>
      if buffered ∧ 0 ≤ n then
        match names[n.toNat]? with
        | some s => .ok s
        | none => .error .malformed
      else .error .malformed
  | _ => .error .malformed

/-- A value that is taken whole before its form is known: no part of it is passed over. -/
def whole {α : Type} (read : Json → Decoded α) (j : Json) : Decoded α :=
  if j.isReadable then read j else .error .malformed

/-- A record whose layout is named by one of its members, or by its first item, in a value that has
been taken whole. -/
def variantOf {α : Type} (tag : String) (buffered : Bool) (names : List String)
    (layout : String → Layout α) : Json → Decoded α
  | .object entries =>
      match entries.filter fun e => e.1 = tag with
      | [(_, t)] => do
          let name ← choice buffered names t
          ((layout name).read ⟨entries.filter fun e => e.1 ≠ tag, false⟩).decoded
      | _ => .error .malformed
  | .array (t :: items) => do
      let name ← choice buffered names t
      (layout name).ofArray items
  | _ => .error .malformed

/-- A record whose layout is named by one of its members, or by its first item. -/
def tagged {α : Type} (tag : String) (buffered : Bool) (names : List String)
    (layout : String → Layout α) : Json → Decoded α :=
  if buffered then variantOf tag true names layout else whole (variantOf tag false names layout)

end Monomorph.Wire
