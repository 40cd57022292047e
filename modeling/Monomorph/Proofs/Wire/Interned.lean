import Monomorph.Proofs.Wire.Operand
import Monomorph.Wire.Interned

/-!
# Wire/Interned — types are read back

A type nests as deeply as it likes, and reading it is bounded by the depth of the value it is
written as.  **The bound is never met** (`interned_rearranged`): what lies inside a type is written
inside, so that its depth is less, however members are ordered.
-/

namespace Monomorph.Wire

/-! ## Lists of types and of their parts -/

theorem ofShapes_eq_map (os : List Shape) : ofShapes os = os.map ofShape := by
  induction os with
  | nil => rfl
  | cons s os ih => rw [ofShapes, ih, List.map_cons]

theorem ofInterneds_eq_map (ts : List Interned) : ofInterneds ts = ts.map ofInterned := by
  induction ts with
  | nil => rfl
  | cons t ts ih => rw [ofInterneds, ih, List.map_cons]

def ofTupleEntry (e : Slot Interned) : Json :=
  .object [("ty", ofInterned e.type), ("is_optional", .bool e.optional)]

theorem ofTupleEntries_eq_map (es : List (Slot Interned)) :
    ofTupleEntries es = es.map ofTupleEntry := by
  induction es with
  | nil => rfl
  | cons e es ih => rw [ofTupleEntries, ih, List.map_cons, ofTupleEntry]

def ofRecordEntry (e : String × Slot Interned) : Json :=
  .object [("name", .text e.1), ("ty", ofInterned e.2.type), ("is_optional", .bool e.2.optional)]

theorem ofRecordEntries_eq_map (es : List (String × Slot Interned)) :
    ofRecordEntries es = es.map ofRecordEntry := by
  induction es with
  | nil => rfl
  | cons e es ih => rw [ofRecordEntries, ih, List.map_cons, ofRecordEntry]

/-! ## What is written is plain -/

mutual

theorem plain_ofInterned : ∀ t : Interned, (ofInterned t).Plain
  | .mk k os => .object (by simp) (by simp [Json.Plain.text, Json.Plain.array (plain_ofShapes os)])

theorem plain_ofShape : ∀ s : Shape, (ofShape s).Plain
  | .entity k => .object (by simp) (by simp [Json.Plain.text])
  | .concept ps k => .object (by simp) (by simp [Json.Plain.text, plain_texts])
  | .tuple es k => .object (by simp)
      (by simp [Json.Plain.text, Json.Plain.array (plain_ofTupleEntries es)])
  | .record es k => .object (by simp)
      (by simp [Json.Plain.text, Json.Plain.array (plain_ofRecordEntries es)])
  | .ephemeral ts k => .object (by simp)
      (by simp [Json.Plain.text, Json.Plain.array (plain_ofInterneds ts)])

theorem plain_ofShapes : ∀ os : List Shape, ∀ j ∈ ofShapes os, j.Plain
  | [] => List.forall_mem_nil _
  | s :: os => List.forall_mem_cons.mpr ⟨plain_ofShape s, plain_ofShapes os⟩

theorem plain_ofInterneds : ∀ ts : List Interned, ∀ j ∈ ofInterneds ts, j.Plain
  | [] => List.forall_mem_nil _
  | t :: ts => List.forall_mem_cons.mpr ⟨plain_ofInterned t, plain_ofInterneds ts⟩

theorem plain_ofTupleEntries : ∀ es : List (Slot Interned), ∀ j ∈ ofTupleEntries es, j.Plain
  | [] => List.forall_mem_nil _
  | ⟨t, _⟩ :: es => List.forall_mem_cons.mpr
      ⟨.object (by simp) (by simp [Json.Plain.bool, plain_ofInterned t]), plain_ofTupleEntries es⟩

theorem plain_ofRecordEntries : ∀ es : List (String × Slot Interned),
    ∀ j ∈ ofRecordEntries es, j.Plain
  | [] => List.forall_mem_nil _
  | (_, ⟨t, _⟩) :: es => List.forall_mem_cons.mpr
      ⟨.object (by simp) (by simp [Json.Plain.text, Json.Plain.bool, plain_ofInterned t]),
        plain_ofRecordEntries es⟩

end

/-! ## Reading back -/

section

variable {u : Json → Json} (hu : Json.Rearranges u)
include hu

theorem tupleEntry_rearranged {type : Json → Decoded Interned} {e : Slot Interned}
    (h : type (u (ofInterned e.type)) = .ok e.type) :
    (tupleEntry type).ofJson (u (ofTupleEntry e)) = .ok e := by
  refine Layout.ofJson_fields hu (by simp) fun m hm => ?_
  simp only [List.forall_mem_cons] at hm
  simp [tupleEntry, hm, h, flag_rearranged hu]

theorem recordEntry_rearranged {type : Json → Decoded Interned} {e : String × Slot Interned}
    (h : type (u (ofInterned e.2.type)) = .ok e.2.type) :
    (recordEntry type).ofJson (u (ofRecordEntry e)) = .ok e := by
  refine Layout.ofJson_fields hu (by simp) fun m hm => ?_
  simp only [List.forall_mem_cons] at hm
  simp [recordEntry, hm, h, text_rearranged hu, flag_rearranged hu]

/-- What is listed under `entries` is less deep than the option. -/
theorem depth_entry {kind key : String} {l : List Json} {j : Json} (hj : j ∈ l) : (u j).depth <
    (u (.object [("kind", .text kind), ("entries", .array l), ("trkey", .text key)])).depth :=
  hu.depth_listed (by simp) (List.mem_cons_of_mem _ List.mem_cons_self) hj

/-- **An option is read back** if the types inside are, which are less deep. -/
theorem shape_rearranged {type : Json → Decoded Interned} {s : Shape}
    (h : ∀ t, (u (ofInterned t)).depth < (u (ofShape s)).depth → type (u (ofInterned t)) = .ok t)
    (buffered : Bool) : shapeOf buffered type (u (ofShape s)) = .ok s := by
  have htuple : ∀ es k, s = .tuple es k →
      list (tupleEntry type).ofJson (u (.array (ofTupleEntries es))) = .ok es := by
    rintro es k rfl
    rw [ofTupleEntries_eq_map]
    refine list_rearranged hu fun e he => tupleEntry_rearranged hu (h _ ?_)
    have hinside : (u (ofInterned e.type)).depth < (u (ofTupleEntry e)).depth := by
      rw [ofTupleEntry]
      exact hu.depth_member (e := ("ty", _)) (by simp) List.mem_cons_self
    refine Nat.lt_trans hinside ?_
    rw [ofShape, ofTupleEntries_eq_map]
    exact depth_entry hu (List.mem_map_of_mem he)
  have hrecord : ∀ es k, s = .record es k →
      list (recordEntry type).ofJson (u (.array (ofRecordEntries es))) = .ok es := by
    rintro es k rfl
    rw [ofRecordEntries_eq_map]
    refine list_rearranged hu fun e he => recordEntry_rearranged hu (h _ ?_)
    have hinside : (u (ofInterned e.2.type)).depth < (u (ofRecordEntry e)).depth := by
      rw [ofRecordEntry]
      exact hu.depth_member (e := ("ty", _)) (by simp) (List.mem_cons_of_mem _ List.mem_cons_self)
    refine Nat.lt_trans hinside ?_
    rw [ofShape, ofRecordEntries_eq_map]
    exact depth_entry hu (List.mem_map_of_mem he)
  have hephemeral : ∀ ts k, s = .ephemeral ts k →
      list type (u (.array (ofInterneds ts))) = .ok ts := by
    rintro ts k rfl
    rw [ofInterneds_eq_map]
    refine list_rearranged hu fun t ht => h t ?_
    rw [ofShape, ofInterneds_eq_map]
    exact depth_entry hu (List.mem_map_of_mem ht)
  have hplain := plain_ofShape s
  cases s
  all_goals
    refine tagged_rearranged hu hplain (by simp [shapeNames]) (fun m hm => ?_) buffered
    have hvalues := hm.values
    simp only [List.forall_mem_cons] at hvalues
    simp [shapeLayout, hvalues, text_rearranged hu, texts_rearranged hu, htuple, hrecord,
      hephemeral]

/-- A type is read back within any bound that the value it is written as keeps to. -/
theorem internedOf_rearranged {n : Nat} {t : Interned} (h : (u (ofInterned t)).depth ≤ n)
    (buffered : Bool) : internedOf n buffered (u (ofInterned t)) = .ok t := by
  induction n generalizing t buffered with
  | zero =>
    obtain ⟨k, os⟩ := t
    have hkey : (u (.text k)).depth < (u (ofInterned (.mk k os))).depth := by
      rw [ofInterned]
      exact hu.depth_member (e := ("trkey", _)) (by simp) List.mem_cons_self
    omega
  | succ n ih =>
    obtain ⟨k, os⟩ := t
    have hoptions : list (shapeOf buffered (internedOf n true)) (u (.array (ofShapes os))) =
        .ok os := by
      rw [ofShapes_eq_map]
      refine list_rearranged hu fun s hs => shape_rearranged hu (fun t ht => ih ?_ true) buffered
      have hoption : (u (ofShape s)).depth < (u (ofInterned (.mk k os))).depth := by
        rw [ofInterned, ofShapes_eq_map]
        exact hu.depth_listed (by simp) (List.mem_cons_of_mem _ List.mem_cons_self)
          (List.mem_map_of_mem hs)
      omega
    rw [ofInterned, internedOf]
    refine Layout.ofJson_fields hu (by simp) fun m hm => ?_
    simp only [List.forall_mem_cons] at hm
    simp [internedLayout, hm, text_rearranged hu, hoptions]

/-- **A type is read back.** -/
theorem interned_rearranged (t : Interned) : interned (u (ofInterned t)) = .ok t :=
  internedOf_rearranged hu (Nat.le_refl _) false

end

end Monomorph.Wire
