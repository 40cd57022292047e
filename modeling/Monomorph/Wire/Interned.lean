import Monomorph.Interned.Basic
import Monomorph.Wire.Record

/-!
# Wire/Interned — interned types as JSON

Keys are read as they stand.  Types nest, so reading takes the depth of the value as its bound.
-/

namespace Monomorph

mutual

/-- How deeply brackets are nested. -/
def Json.depth : Json → Nat
  | .array items => Json.depthItems items + 1
  | .object members => Json.depthMembers members + 1
  | _ => 1

def Json.depthItems : List Json → Nat
  | [] => 0
  | j :: r => max j.depth (Json.depthItems r)

def Json.depthMembers : List (String × Json) → Nat
  | [] => 0
  | (_, j) :: r => max j.depth (Json.depthMembers r)

end

namespace Wire

mutual

def ofInterned : Interned → Json
  | .mk k os => .object [("trkey", .text k), ("options", .array (ofShapes os))]

def ofShape : Shape → Json
  | .entity k => .object [("kind", .text "entity"), ("trkey", .text k)]
  | .concept ps k => .object [("kind", .text "concept"), ("ckeys", .texts ps), ("trkey", .text k)]
  | .tuple es k =>
      .object [("kind", .text "tuple"), ("entries", .array (ofTupleEntries es)), ("trkey", .text k)]
  | .record es k =>
      .object
        [("kind", .text "record"), ("entries", .array (ofRecordEntries es)), ("trkey", .text k)]
  | .ephemeral es k =>
      .object [("kind", .text "ephemeral_list"), ("entries", .array (ofInterneds es)),
        ("trkey", .text k)]

def ofShapes : List Shape → List Json
  | [] => []
  | s :: r => ofShape s :: ofShapes r

def ofInterneds : List Interned → List Json
  | [] => []
  | t :: r => ofInterned t :: ofInterneds r

def ofTupleEntries : List (Slot Interned) → List Json
  | [] => []
  | ⟨t, o⟩ :: r => .object [("ty", ofInterned t), ("is_optional", .bool o)] :: ofTupleEntries r

def ofRecordEntries : List (String × Slot Interned) → List Json
  | [] => []
  | (n, ⟨t, o⟩) :: r =>
      .object [("name", .text n), ("ty", ofInterned t), ("is_optional", .bool o)]
        :: ofRecordEntries r

end

def shapeNames : List String :=
  ["entity", "concept", "tuple", "record", "ephemeral_list"]

/-- The entry of a tuple. -/
def tupleEntry (type : Json → Decoded Interned) : Layout (Slot Interned) :=
  Slot.mk <$> .field "ty" type <*> .field "is_optional" flag

/-- The entry of a record. -/
def recordEntry (type : Json → Decoded Interned) : Layout (String × Slot Interned) :=
  (fun n t o => (n, Slot.mk t o)) <$> Layout.field "name" text <*> Layout.field "ty" type
    <*> Layout.field "is_optional" flag

/-- The layout of a shape, given how the types in it are read. -/
def shapeLayout (type : Json → Decoded Interned) (name : String) : Layout Shape :=
  if name = "entity" then Shape.entity <$> .field "trkey" text
  else if name = "concept" then
    Shape.concept <$> .field "ckeys" (list text) <*> .field "trkey" text
  else if name = "tuple" then
    Shape.tuple <$> .field "entries" (list (tupleEntry type).ofJson) <*> .field "trkey" text
  else if name = "record" then
    Shape.record <$> .field "entries" (list (recordEntry type).ofJson) <*> .field "trkey" text
  else Shape.ephemeral <$> .field "entries" (list type) <*> .field "trkey" text

/-- A shape, given how the types in it are read. -/
def shapeOf (buffered : Bool) (type : Json → Decoded Interned) : Json → Decoded Shape :=
  tagged "kind" buffered shapeNames (shapeLayout type)

/-- The layout of a type, given how its options are read. -/
def internedLayout (option : Json → Decoded Shape) : Layout Interned :=
  Interned.mk <$> .field "trkey" text <*> .field "options" (list option)

/-- A type of at most the given depth. -/
def internedOf : Nat → Bool → Json → Decoded Interned
  | 0, _ => fun _ => .error .malformed
  | n + 1, buffered => (internedLayout (shapeOf buffered (internedOf n true))).ofJson

def interned (j : Json) : Decoded Interned :=
  internedOf j.depth false j

def shape (j : Json) : Decoded Shape :=
  shapeOf false (internedOf j.depth true) j

end Wire

end Monomorph
