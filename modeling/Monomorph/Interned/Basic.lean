import Monomorph.Ty.Basic

/-!
# Interned/Basic — types as the assembly stores them

An interned type carries its key and its options, each with a key of its own.  Keys are data here:
a type read back is taken as written, and only the constructors compute keys.
-/

namespace Monomorph

mutual

/-- A type under its key: a union of shapes. -/
inductive Interned
  | mk (key : String) (options : List Shape)

/-- One option of an interned type, under its key. -/
inductive Shape
  | entity (key : String)
  /-- The intersection of the concepts under the keys listed. -/
  | concept (parts : List String) (key : String)
  | tuple (entries : List (Slot Interned)) (key : String)
  | record (entries : List (String × Slot Interned)) (key : String)
  | ephemeral (entries : List Interned) (key : String)

end

namespace Interned

def key : Interned → String
  | .mk k _ => k

def options : Interned → List Shape
  | .mk _ os => os

end Interned

namespace Shape

def key : Shape → String
  | .entity k | .concept _ k | .tuple _ k | .record _ k | .ephemeral _ k => k

/-- The intersection of concepts, each once and in order. -/
def ofConcepts (parts : List String) : Shape :=
  let parts := Listing.distinct parts
  .concept parts (String.intercalate " & " parts)

def ofTuple (entries : List (Slot Interned)) : Shape :=
  let keys := entries.map fun e => optionalMark e.optional "?:" ++ e.type.key
  .tuple entries ("[" ++ String.intercalate ", " keys ++ "]")

/-- A record, its entries by name. -/
def ofRecord (entries : List (String × Slot Interned)) : Shape :=
  let entries := Listing.sortBy (·.1) entries
  let keys := entries.map fun e => e.1 ++ optionalMark e.2.optional "?" ++ ":" ++ e.2.type.key
  .record entries ("\x7b" ++ String.intercalate ", " keys ++ "\x7d")

def ofEphemeral (entries : List Interned) : Shape :=
  .ephemeral entries ("(|" ++ String.intercalate ", " (entries.map Interned.key) ++ "|)")

end Shape

namespace Interned

/-- The union of shapes, in order of their keys; of shapes with one key the first is kept. -/
def ofShapes (os : List Shape) : Interned :=
  let os := Listing.distinctBy Shape.key os
  .mk (String.intercalate " | " (os.map Shape.key)) os

def single (s : Shape) : Interned :=
  ofShapes [s]

end Interned

end Monomorph
