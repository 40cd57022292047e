import Mathlib.Data.List.Nodup
import Monomorph.Table

/-!
# Table/Lookup — every operation on tables, read off its look-ups

Entries, keys and values say the same as `get?`; after that no proof has to open a table.
-/

namespace Monomorph.Table

variable {α β : Type}

/-! ## Entries, keys and values -/

/-- No key stands twice in a strictly increasing list. -/
theorem Entries.mem_iff_lookup {l : List (String × α)} (h : l.Pairwise fun a b => a.1 < b.1)
    {k : String} {v : α} : (k, v) ∈ l ↔ l.lookup k = some v := by
  induction l with
  | nil => simp
  | cons d r ih =>
    obtain ⟨k', v'⟩ := d
    rw [List.pairwise_cons] at h
    by_cases hk : k = k'
    · subst hk
      have hr : ∀ w, (k, w) ∉ r := fun w hw => String.lt_irrefl k (h.1 _ hw)
      simp [hr, eq_comm]
    · have hb : (k == k') = false := by simpa using hk
      rw [List.lookup_cons, hb]
      simp [hk, ih h.2]

theorem mem_entries {t : Table α} {k : String} {v : α} :
    (k, v) ∈ t.entries ↔ t.get? k = some v :=
  Entries.mem_iff_lookup t.sorted

theorem contains_iff {t : Table α} {k : String} : t.contains k = true ↔ ∃ v, t.get? k = some v :=
  Option.isSome_iff_exists

theorem contains_eq_false {t : Table α} {k : String} :
    t.contains k = false ↔ t.get? k = none := by
  rw [contains, Option.isSome_eq_false_iff, Option.isNone_iff_eq_none]

theorem contains_of_get? {t : Table α} {k : String} {v : α} (h : t.get? k = some v) :
    t.contains k = true :=
  contains_iff.mpr ⟨v, h⟩

theorem mem_keys {t : Table α} {k : String} : k ∈ t.keys ↔ t.contains k = true := by
  rw [contains_iff, keys, List.mem_map]
  constructor
  · rintro ⟨⟨k', v⟩, he, rfl⟩
    exact ⟨v, mem_entries.mp he⟩
  · rintro ⟨v, hv⟩
    exact ⟨(k, v), mem_entries.mpr hv, rfl⟩

theorem mem_values {t : Table α} {v : α} : v ∈ t.values ↔ ∃ k, t.get? k = some v := by
  rw [values, List.mem_map]
  constructor
  · rintro ⟨⟨k, w⟩, he, rfl⟩
    exact ⟨k, mem_entries.mp he⟩
  · rintro ⟨k, hk⟩
    exact ⟨(k, v), mem_entries.mpr hk, rfl⟩

/-- The values are looked up key by key. -/
theorem filterMap_get?_keys (t : Table α) : t.keys.filterMap t.get? = t.values := by
  rw [keys, List.filterMap_map, values, ← List.filterMap_eq_map]
  exact List.filterMap_congr fun e he => mem_entries.mp he

theorem sorted_keys (t : Table α) : t.keys.Pairwise (· < ·) :=
  List.pairwise_map.mpr t.sorted

theorem nodup_keys (t : Table α) : t.keys.Nodup := by
  rw [List.nodup_iff_pairwise_ne]
  refine t.sorted_keys.imp fun {a b} h he => ?_
  rw [he] at h
  exact String.lt_irrefl b h

/-- **Two tables with the same keys list them alike.** -/
theorem keys_eq_of_contains {s : Table α} {t : Table β}
    (h : ∀ k, s.contains k = t.contains k) : s.keys = t.keys := by
  have perm : s.keys.Perm t.keys := (List.perm_ext_iff_of_nodup s.nodup_keys t.nodup_keys).mpr
    fun k => by rw [mem_keys, mem_keys, h]
  exact perm.eq_of_pairwise
    (fun a b _ _ hab hba => absurd (String.lt_trans hab hba) (String.lt_irrefl a))
    s.sorted_keys t.sorted_keys

/-! ## Changing values -/

theorem get?_mapWithKey (t : Table α) (f : String → α → β) (k : String) :
    (t.mapWithKey f).get? k = (t.get? k).map (f k) := by
  obtain ⟨l, h⟩ := t
  change (l.map fun e => (e.1, f e.1 e.2)).lookup k = (l.lookup k).map (f k)
  clear h
  induction l with
  | nil => rfl
  | cons e r ih =>
    obtain ⟨k', v⟩ := e
    by_cases hk : k = k'
    · subst hk
      simp
    · have hb : (k == k') = false := by simpa using hk
      rw [List.map_cons, List.lookup_cons, List.lookup_cons, hb]
      exact ih

@[simp] theorem get?_map (t : Table α) (f : α → β) (k : String) :
    (t.map f).get? k = (t.get? k).map f :=
  t.get?_mapWithKey _ k

@[simp] theorem contains_map (t : Table α) (f : α → β) (k : String) :
    (t.map f).contains k = t.contains k := by
  rw [contains, contains, get?_map, Option.isSome_map]

@[simp] theorem values_map (t : Table α) (f : α → β) : (t.map f).values = t.values.map f := by
  change (t.entries.map fun e => (e.1, f e.2)).map (·.2) = (t.entries.map (·.2)).map f
  simp [List.map_map, Function.comp_def]

/-! ## Adding and dropping entries -/

theorem contains_insert (t : Table α) (k : String) (v : α) (k' : String) :
    (t.insert k v).contains k' = (decide (k' = k) || t.contains k') := by
  rw [contains, get?_insert]
  by_cases h : k' = k <;> simp [h, contains]

theorem get?_insertNew (t : Table α) (k : String) (v : α) (k' : String) :
    (t.insertNew k v).get? k' = (t.get? k').or (if k' = k then some v else none) := by
  rw [insertNew]
  split
  case isTrue h =>
    obtain ⟨w, hw⟩ := contains_iff.mp h
    by_cases hk : k' = k
    · rw [hk, hw, Option.some_or]
    · rw [if_neg hk, Option.or_none]
  case isFalse h =>
    have hnone : t.get? k = none := contains_eq_false.mp (Bool.eq_false_iff.mpr h)
    by_cases hk : k' = k
    · rw [hk, get?_insert_self, if_pos rfl, hnone, Option.none_or]
    · rw [get?_insert_ne _ _ hk, if_neg hk, Option.or_none]

/-- Entries put in where there are none: what is there stays, of the entries the first counts. -/
theorem get?_foldl_insertNew (l : List (String × α)) (t : Table α) (k : String) :
    (l.foldl (fun t e => t.insertNew e.1 e.2) t).get? k = (t.get? k).or (l.lookup k) := by
  induction l generalizing t with
  | nil => rw [List.foldl_nil, List.lookup_nil, Option.or_none]
  | cons e r ih =>
    obtain ⟨k', v⟩ := e
    rw [List.foldl_cons, ih, get?_insertNew, Option.or_assoc]
    by_cases hk : k = k'
    · rw [hk, if_pos rfl, List.lookup_cons_self, Option.some_or]
    · have hb : (k == k') = false := by simpa using hk
      rw [if_neg hk, Option.none_or, List.lookup_cons, hb]

theorem get?_filter (t : Table α) (p : String → α → Bool) (k : String) :
    (t.filter p).get? k = (t.get? k).filter (p k) := by
  refine Option.ext fun v => ?_
  rw [← mem_entries, Option.filter_eq_some_iff, ← mem_entries]
  change (k, v) ∈ t.entries.filter (fun e => p e.1 e.2) ↔ _
  rw [List.mem_filter]

theorem get?_erase (t : Table α) (k k' : String) :
    (t.erase k).get? k' = if k' = k then none else t.get? k' := by
  have hfilter : t.erase k = t.filter fun k' _ => decide (k' ≠ k) := rfl
  rw [hfilter, get?_filter]
  cases t.get? k' <;> by_cases h : k' = k <;> simp [h]

/-! ## Tables of lists -/

theorem get?_foldl_insert (l : List (String × α)) (t : Table α) {k : String} {v : α}
    (h : ∀ e ∈ l, e.1 = k → e.2 = v) :
    (l.foldl (fun t e => t.insert e.1 e.2) t).get? k
      = if k ∈ l.map (·.1) then some v else t.get? k := by
  induction l generalizing t with
  | nil => simp
  | cons e r ih =>
    rw [List.foldl_cons, ih _ fun d hd => h d (List.mem_cons_of_mem _ hd), get?_insert]
    by_cases hr : k ∈ r.map (·.1)
    · rw [if_pos hr, if_pos (by simpa using Or.inr (by simpa using hr))]
    · by_cases he : k = e.1
      · rw [if_neg hr, if_pos he, if_pos (by simp [he]), h e (by simp) he.symm]
      · rw [if_neg hr, if_neg he, if_neg]
        rw [List.map_cons, List.mem_cons, not_or]
        exact ⟨he, hr⟩

/-- **Where a list gives each key one value, so does its table.** -/
theorem get?_ofList {l : List (String × α)} {k : String} {v : α}
    (h : ∀ e ∈ l, e.1 = k → e.2 = v) :
    (ofList l).get? k = if k ∈ l.map (·.1) then some v else none :=
  get?_foldl_insert l ∅ h

theorem get?_foldl_insert_of_notMem {l : List (String × α)} {k : String} (h : k ∉ l.map (·.1))
    (t : Table α) : (l.foldl (fun t e => t.insert e.1 e.2) t).get? k = t.get? k := by
  induction l generalizing t with
  | nil => rfl
  | cons e r ih =>
    rw [List.map_cons, List.mem_cons, not_or] at h
    rw [List.foldl_cons, ih h.2, get?_insert_ne _ _ h.1]

theorem get?_ofList_eq_none {l : List (String × α)} {k : String} (h : k ∉ l.map (·.1)) :
    (ofList l).get? k = none :=
  get?_foldl_insert_of_notMem h ∅

theorem get?_ofList_of_mem {l : List (String × α)} {k : String} {v : α} (hm : (k, v) ∈ l)
    (h : ∀ e ∈ l, e.1 = k → e.2 = v) : (ofList l).get? k = some v := by
  rw [get?_ofList h, if_pos (List.mem_map.mpr ⟨_, hm, rfl⟩)]

/-- **The table of the entries of a table is the table**, in whatever order they are listed. -/
theorem ofList_of_perm {t : Table α} {l : List (String × α)} (h : l.Perm t.entries) :
    ofList l = t := by
  refine ext_get? fun k => ?_
  cases hk : t.get? k with
  | some v =>
    refine get?_ofList_of_mem (h.mem_iff.mpr (mem_entries.mpr hk)) fun e he hek => ?_
    have := mem_entries.mp (hek ▸ h.mem_iff.mp he : (k, e.2) ∈ t.entries)
    exact Option.some.inj (this.symm.trans hk)
  | none =>
    refine get?_ofList_eq_none fun hmem => ?_
    obtain ⟨v, hv⟩ := contains_iff.mp (mem_keys.mp ((h.map (·.1)).mem_iff.mp hmem))
    rw [hk] at hv
    cases hv

theorem ofList_entries (t : Table α) : ofList t.entries = t :=
  ofList_of_perm (.refl _)

/-- What is listed stands in the table of the list. -/
theorem contains_ofList {l : List (String × α)} {k : String} (h : k ∈ l.map (·.1)) :
    (ofList l).contains k = true := by
  suffices ∀ t : Table α, k ∈ l.map (·.1) ∨ t.contains k = true →
      (l.foldl (fun t e => t.insert e.1 e.2) t).contains k = true from this ∅ (.inl h)
  clear h
  induction l with
  | nil => exact fun t h => h.resolve_left List.not_mem_nil
  | cons e l ih =>
    intro t h
    rw [List.map_cons, List.mem_cons, or_assoc, or_left_comm] at h
    refine ih _ ?_
    rwa [contains_insert, Bool.or_eq_true, decide_eq_true_eq]

/-- What stands in the table of a list was listed. -/
theorem mem_of_get?_ofList {l : List (String × α)} {k : String} {v : α}
    (h : (ofList l).get? k = some v) : (k, v) ∈ l := by
  suffices ∀ t : Table α, (l.foldl (fun t e => t.insert e.1 e.2) t).get? k = some v →
      (k, v) ∈ l ∨ t.get? k = some v from (this ∅ h).resolve_right nofun
  clear h
  induction l with
  | nil => exact fun t h => .inr h
  | cons e l ih =>
    intro t h
    rcases ih _ h with h | h
    · exact .inl (List.mem_cons_of_mem _ h)
    · rw [get?_insert] at h
      split at h
      case isTrue hk =>
        obtain rfl := Option.some.inj h
        exact .inl (hk ▸ List.mem_cons_self)
      case isFalse => exact .inr h

end Monomorph.Table
