import Mathlib.Data.List.Nodup
import Monomorph.Wire.Interned

/-!
# Json/Rearranged — the same value with its members in another order

A document names the members of an object, and their order carries nothing.  So what is shown of
reading is shown for **any function that keeps scalars and arrays as they are and puts members in
some order** (`Json.Rearranges`): doing nothing is one, and sorting the members by key is another
(`Json.rearranges_unordered`).  What is written has no member twice and nothing unreadable in it
(`Json.Plain`), and that remains so (`Json.Plain.isReadable`).
-/

namespace Monomorph.Json

/-! ## Lists of values -/

theorem unorderedItems_eq_map (l : List Json) : unorderedItems l = l.map unordered := by
  induction l with
  | nil => rfl
  | cons j l ih => rw [unorderedItems, ih, List.map_cons]

theorem unorderedMembers_eq_map (es : List (String × Json)) :
    unorderedMembers es = es.map fun e => (e.1, e.2.unordered) := by
  induction es with
  | nil => rfl
  | cons e es ih => rw [unorderedMembers, ih, List.map_cons]

theorem areReadable_iff {l : List Json} : areReadable l = true ↔ ∀ j ∈ l, j.isReadable = true := by
  induction l with
  | nil => simp [areReadable]
  | cons j l ih => rw [areReadable, Bool.and_eq_true, ih, List.forall_mem_cons]

theorem haveReadable_iff {es : List (String × Json)} :
    haveReadable es = true ↔ ∀ e ∈ es, e.2.isReadable = true := by
  induction es with
  | nil => simp [haveReadable]
  | cons e es ih => rw [haveReadable, Bool.and_eq_true, ih, List.forall_mem_cons]

theorem depthItems_le {l : List Json} {n : Nat} : depthItems l ≤ n ↔ ∀ j ∈ l, j.depth ≤ n := by
  induction l with
  | nil => simp [depthItems]
  | cons j l ih => rw [depthItems, Nat.max_le, ih, List.forall_mem_cons]

theorem depthMembers_le {es : List (String × Json)} {n : Nat} :
    depthMembers es ≤ n ↔ ∀ e ∈ es, e.2.depth ≤ n := by
  induction es with
  | nil => simp [depthMembers]
  | cons e es ih => rw [depthMembers, Nat.max_le, ih, List.forall_mem_cons]

/-! ## Members put in place -/

/-- A new member is put somewhere. -/
theorem place_perm {k : String} {es : List (String × Json)} (h : k ∉ es.map (·.1)) (v : Json) :
    (place k v es).Perm ((k, v) :: es) := by
  induction es with
  | nil => exact .refl _
  | cons e es ih =>
    rw [List.map_cons, List.mem_cons, not_or] at h
    rw [place]
    split
    · exact .refl _
    · rw [if_neg h.1]
      exact ((ih h.2).cons e).trans (.swap (k, v) e es)

/-- Members that differ in their keys are put in some order. -/
theorem placeAll_perm {es : List (String × Json)} (h : (es.map (·.1)).Nodup) :
    (placeAll es).Perm es := by
  suffices ∀ done, (done.map (·.1) ++ es.map (·.1)).Nodup →
      (es.foldl (fun done e => place e.1 e.2 done) done).Perm (done ++ es) from
    this [] h
  clear h
  induction es with
  | nil => simp
  | cons e es ih =>
    intro done hnodup
    have hperm : (place e.1 e.2 done).Perm (e :: done) := by
      refine place_perm (fun hmem => ?_) e.2
      exact (List.nodup_append.mp hnodup).2.2 _ hmem _ List.mem_cons_self rfl
    have hkeys := (hperm.map (·.1)).append_right (es.map (·.1))
    refine (ih _ (hkeys.nodup_iff.mpr ?_)).trans ((hperm.append_right es).trans ?_)
    · exact List.perm_middle.nodup_iff.mp hnodup
    · exact List.perm_middle.symm

/-! ## Rearranging -/

/-- Members of objects may change places, and nothing else. -/
structure Rearranges (u : Json → Json) : Prop where
  null : u .null = .null
  bool : ∀ b, u (.bool b) = .bool b
  number : ∀ n, u (.number n) = .number n
  text : ∀ s, u (.text s) = .text s
  array : ∀ l, u (.array l) = .array (l.map u)
  object : ∀ es : List (String × Json), (es.map (·.1)).Nodup →
    ∃ es', u (.object es) = .object es' ∧ es'.Perm (es.map fun e => (e.1, u e.2))

theorem rearranges_id : Rearranges id where
  null := rfl
  bool _ := rfl
  number _ := rfl
  text _ := rfl
  array l := by rw [id, List.map_id]
  object es _ := ⟨es, rfl, by simp⟩

/-- Sorting members by key puts them in another order. -/
theorem rearranges_unordered : Rearranges unordered where
  null := rfl
  bool _ := rfl
  number _ := rfl
  text _ := rfl
  array l := by rw [unordered, unorderedItems_eq_map]
  object es h := by
    refine ⟨_, by rw [unordered, unorderedMembers_eq_map], placeAll_perm ?_⟩
    rwa [List.map_map]

section

variable {u : Json → Json} (hu : Rearranges u)
include hu

theorem Rearranges.depth_item {l : List Json} {j : Json} (h : j ∈ l) :
    (u j).depth < (u (.array l)).depth := by
  rw [hu.array, depth]
  exact Nat.lt_succ_of_le (depthItems_le.mp (Nat.le_refl _) _ (List.mem_map_of_mem h))

theorem Rearranges.depth_member {es : List (String × Json)} (hkeys : (es.map (·.1)).Nodup)
    {e : String × Json} (h : e ∈ es) : (u e.2).depth < (u (.object es)).depth := by
  obtain ⟨es', hes', hperm⟩ := hu.object es hkeys
  rw [hes', depth]
  have hmem : (e.1, u e.2) ∈ es' := hperm.mem_iff.mpr (List.mem_map.mpr ⟨e, h, rfl⟩)
  exact Nat.lt_succ_of_le (depthMembers_le.mp (Nat.le_refl _) _ hmem)

/-- The items of an array that is a member. -/
theorem Rearranges.depth_listed {es : List (String × Json)} (hkeys : (es.map (·.1)).Nodup)
    {name : String} {l : List Json} (h : (name, .array l) ∈ es) {j : Json} (hj : j ∈ l) :
    (u j).depth < (u (.object es)).depth :=
  Nat.lt_trans (hu.depth_item hj) (hu.depth_member hkeys h)

end

/-- Everything in it is a value, and no object has a member twice. -/
inductive Plain : Json → Prop
  | null : Plain .null
  | bool (b : Bool) : Plain (.bool b)
  | number (n : Number) : Plain (.number n)
  | text (s : String) : Plain (.text s)
  | array {l : List Json} (h : ∀ j ∈ l, Plain j) : Plain (.array l)
  | object {es : List (String × Json)} (hkeys : (es.map (·.1)).Nodup) (h : ∀ e ∈ es, Plain e.2) :
      Plain (.object es)

theorem plain_object {es : List (String × Json)} :
    (Json.object es).Plain ↔ (es.map (·.1)).Nodup ∧ ∀ e ∈ es, e.2.Plain := by
  refine ⟨fun h => ?_, fun h => .object h.1 h.2⟩
  cases h with
  | object hkeys h => exact ⟨hkeys, h⟩

/-- **What is plain stays readable**, in whatever order. -/
theorem Plain.isReadable {u : Json → Json} (hu : Rearranges u) {j : Json} (h : j.Plain) :
    (u j).isReadable = true := by
  induction h with
  | null => rw [hu.null]; rfl
  | bool => rw [hu.bool]; rfl
  | number => rw [hu.number]; rfl
  | text => rw [hu.text]; rfl
  | array _ ih =>
    rw [hu.array, Json.isReadable, areReadable_iff]
    exact List.forall_mem_map.mpr ih
  | object hkeys _ ih =>
    obtain ⟨es', hes', hperm⟩ := hu.object _ hkeys
    rw [hes', Json.isReadable, haveReadable_iff]
    intro e he
    obtain ⟨e', he', rfl⟩ := List.mem_map.mp (hperm.mem_iff.mp he)
    exact ih e' he'

end Monomorph.Json
