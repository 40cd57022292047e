/-!
# Json/Basic — JSON values

Members of an object keep the order and the repetitions of the text they came from; `unordered`
forgets both, as a reader does that keeps objects as maps.  Whole numbers are told from all others,
because only they are read as counts and identifiers.  What is written correctly and still stands for
no value has a place in the tree too, since a reader may pass over it; `isReadable` says that it
occurs nowhere.
-/

namespace Monomorph

/-- A JSON number: a whole one within 64 bits, or any other by its spelling. -/
inductive Json.Number
  | whole (n : Int)
  | real (spelling : String)
deriving DecidableEq

inductive Json
  | null
  | bool (b : Bool)
  | number (n : Json.Number)
  | text (s : String)
  | array (items : List Json)
  | object (members : List (String × Json))
  /-- Well written, but no value: half a surrogate pair in a text, a number out of range, or too many
  brackets. -/
  | unreadable

namespace Json

instance : Inhabited Json := ⟨.null⟩

/-- A natural number as JSON. -/
def ofNat (n : Nat) : Json :=
  .number (.whole n)

/-- A list of texts as JSON. -/
def texts (l : List String) : Json :=
  .array (l.map .text)

/-- The value, with `null` for none. -/
def nullable {α : Type} (f : α → Json) : Option α → Json
  | none => .null
  | some a => f a

/-- Put a member in its place by key, over one with the same key. -/
def place (k : String) (v : Json) : List (String × Json) → List (String × Json)
  | [] => [(k, v)]
  | e :: r =>
      if k < e.1 then (k, v) :: e :: r
      else if k = e.1 then (k, v) :: r
      else e :: place k v r

/-- Members in the order of their keys, the last of equal keys kept. -/
def placeAll (l : List (String × Json)) : List (String × Json) :=
  l.foldl (fun done e => place e.1 e.2 done) []

mutual

/-- Every object with its members in the order of their keys, the last of equal keys kept. -/
def unordered : Json → Json
  | .array items => .array (unorderedItems items)
  | .object members => .object (placeAll (unorderedMembers members))
  | j => j

def unorderedItems : List Json → List Json
  | [] => []
  | j :: r => j.unordered :: unorderedItems r

def unorderedMembers : List (String × Json) → List (String × Json)
  | [] => []
  | (k, v) :: r => (k, v.unordered) :: unorderedMembers r

end

mutual

/-- Whether everything in it is a value. -/
def isReadable : Json → Bool
  | .array items => areReadable items
  | .object members => haveReadable members
  | .unreadable => false
  | _ => true

def areReadable : List Json → Bool
  | [] => true
  | j :: r => j.isReadable && areReadable r

def haveReadable : List (String × Json) → Bool
  | [] => true
  | (_, j) :: r => j.isReadable && haveReadable r

end

/-- A member of an object. -/
def get? (k : String) : Json → Option Json
  | .object members => members.lookup k
  | _ => none

end Json

end Monomorph
