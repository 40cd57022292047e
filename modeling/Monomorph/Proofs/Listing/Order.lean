import Mathlib.Data.List.Basic
import Monomorph.Listing

/-!
# Listing/Order — lists kept in order, and what they keep

What is kept of a list was there, and stands in the order of the keys: each key once where keys are
told apart (`distinctBy`), as often as it came where they are not (`sortBy`).  A list in order already
stays as it is, and where no key is that of two elements, its keys say which list it is
(`eq_of_keys`).  Where nothing is listed twice, what is listed before has the smaller index.
-/

namespace Monomorph.Listing

variable {α : Type} {key : α → String} {a x : α} {l : List α}

/-! ## What is kept -/

theorem mem_of_mem_insertNewBy (h : x ∈ insertNewBy key a l) : x = a ∨ x ∈ l := by
  induction l with
  | nil => exact .inl (List.mem_singleton.mp h)
  | cons b r ih =>
    rw [insertNewBy] at h
    split at h
    · exact List.mem_cons.mp h
    · split at h
      · exact .inr h
      · rcases List.mem_cons.mp h with rfl | h
        · exact .inr List.mem_cons_self
        · exact (ih h).imp_right (List.mem_cons_of_mem _)

/-- The key of what is inserted is there afterwards, with what was there before. -/
theorem mem_map_insertNewBy {k : String} :
    k ∈ (insertNewBy key a l).map key ↔ k = key a ∨ k ∈ l.map key := by
  induction l with
  | nil => simp [insertNewBy]
  | cons b r ih =>
    rw [insertNewBy]
    split
    · simp
    · split
      · simp_all
      · rw [List.map_cons, List.mem_cons, ih, List.map_cons, List.mem_cons, or_left_comm]

/-- Where the key is the text itself, whatever is inserted is there. -/
theorem mem_insertNewBy_id {s t : String} {l : List String} :
    t ∈ insertNewBy id s l ↔ t = s ∨ t ∈ l := by
  simpa using @mem_map_insertNewBy _ id s l t

theorem insertNewBy_ne_nil : insertNewBy key a l ≠ [] := by
  cases l with
  | nil => simp [insertNewBy]
  | cons b r =>
    rw [insertNewBy]
    split
    · simp
    · split <;> simp

/-- **What is kept was there.** -/
theorem mem_of_mem_distinctBy (h : x ∈ distinctBy key l) : x ∈ l := by
  have hfold : ∀ (l kept : List α), x ∈ l.foldl (fun kept a => insertNewBy key a kept) kept →
      x ∈ kept ∨ x ∈ l := by
    intro l
    induction l with
    | nil => exact fun kept hx => .inl hx
    | cons a l ih =>
      intro kept hx
      rcases ih _ hx with hx | hx
      · rcases mem_of_mem_insertNewBy hx with rfl | hx
        · exact .inr List.mem_cons_self
        · exact .inl hx
      · exact .inr (List.mem_cons_of_mem _ hx)
  exact (hfold l [] h).resolve_left (by simp)

theorem distinctBy_ne_nil (h : l ≠ []) : distinctBy key l ≠ [] := by
  have hfold : ∀ (l kept : List α), kept ≠ [] →
      l.foldl (fun kept a => insertNewBy key a kept) kept ≠ [] := by
    intro l
    induction l with
    | nil => exact fun _ hk => hk
    | cons a l ih => exact fun _ _ => ih _ insertNewBy_ne_nil
  obtain ⟨a, l, rfl⟩ := List.exists_cons_of_ne_nil h
  exact hfold l _ insertNewBy_ne_nil

/-- **No key is lost**: of what has one key, one is kept. -/
theorem mem_map_distinctBy {k : String} : k ∈ (distinctBy key l).map key ↔ k ∈ l.map key := by
  suffices ∀ kept, k ∈ (l.foldl (fun kept a => insertNewBy key a kept) kept).map key ↔
      k ∈ kept.map key ∨ k ∈ l.map key by
    simpa [distinctBy] using this []
  induction l with
  | nil => simp
  | cons a l ih =>
    intro kept
    rw [List.foldl_cons, ih, mem_map_insertNewBy, List.map_cons, List.mem_cons, ← or_assoc,
      @or_comm (k = key a)]

/-- Texts in order, each once, are the texts given. -/
theorem mem_distinct {l : List String} {t : String} : t ∈ distinct l ↔ t ∈ l := by
  simpa [distinct] using @mem_map_distinctBy _ id l t

theorem insertNewBy_map {β : Type} (f : β → α) (b : β) (l : List β) :
    insertNewBy key (f b) (l.map f) = (insertNewBy (fun b => key (f b)) b l).map f := by
  induction l with
  | nil => rfl
  | cons c l ih =>
    rw [List.map_cons, insertNewBy, insertNewBy]
    split
    · rfl
    · split
      · rfl
      · rw [ih, List.map_cons]

/-- Of images under a function one per key is kept: the images of what is kept by the keys of the
images. -/
theorem distinctBy_map {β : Type} (f : β → α) (l : List β) :
    distinctBy key (l.map f) = (distinctBy (fun b => key (f b)) l).map f := by
  suffices ∀ kept : List β, (l.map f).foldl (fun kept a => insertNewBy key a kept) (kept.map f) =
      (l.foldl (fun kept b => insertNewBy (fun b => key (f b)) b kept) kept).map f from this []
  induction l with
  | nil => exact fun _ => rfl
  | cons b l ih =>
    intro kept
    rw [List.map_cons, List.foldl_cons, insertNewBy_map, ih, List.foldl_cons]

theorem mem_of_mem_insertBy (h : x ∈ insertBy key a l) : x = a ∨ x ∈ l := by
  induction l with
  | nil => exact .inl (List.mem_singleton.mp h)
  | cons b r ih =>
    rw [insertBy] at h
    split at h
    · rcases List.mem_cons.mp h with rfl | h
      · exact .inr List.mem_cons_self
      · exact (ih h).imp_right (List.mem_cons_of_mem _)
    · exact List.mem_cons.mp h

theorem mem_of_mem_sortBy (h : x ∈ sortBy key l) : x ∈ l := by
  induction l with
  | nil => exact h
  | cons a l ih =>
    rcases mem_of_mem_insertBy h with rfl | h
    · exact List.mem_cons_self
    · exact List.mem_cons_of_mem _ (ih h)

/-! ## In which order -/

theorem insertNewBy_sorted (a : α) (h : l.Pairwise fun a b => key a < key b) :
    (insertNewBy key a l).Pairwise fun a b => key a < key b := by
  induction l with
  | nil => exact List.pairwise_singleton ..
  | cons b r ih =>
    obtain ⟨hb, hr⟩ := List.pairwise_cons.mp h
    rw [insertNewBy]
    split
    case isTrue hlt =>
      refine List.pairwise_cons.mpr ⟨List.forall_mem_cons.mpr ⟨hlt, fun x hx => ?_⟩, h⟩
      exact String.lt_trans hlt (hb x hx)
    case isFalse hnot =>
      split
      case isTrue => exact h
      case isFalse hne =>
        refine List.pairwise_cons.mpr ⟨fun x hx => ?_, ih hr⟩
        rcases mem_of_mem_insertNewBy hx with rfl | hx
        · grind
        · exact hb x hx

/-- **What is kept stands in the order of the keys.** -/
theorem distinctBy_sorted (key : α → String) (l : List α) :
    (distinctBy key l).Pairwise fun a b => key a < key b := by
  suffices ∀ kept : List α, (kept.Pairwise fun a b => key a < key b) →
      (l.foldl (fun kept a => insertNewBy key a kept) kept).Pairwise fun a b => key a < key b from
    this [] .nil
  induction l with
  | nil => exact fun _ h => h
  | cons a l ih => exact fun kept h => ih _ (insertNewBy_sorted a h)

/-- What comes after everything is put at the end. -/
theorem insertNewBy_eq_concat (h : ∀ x ∈ l, key x < key a) : insertNewBy key a l = l ++ [a] := by
  induction l with
  | nil => rfl
  | cons b r ih =>
    obtain ⟨hb, hr⟩ := List.forall_mem_cons.mp h
    rw [insertNewBy, if_neg (String.lt_asymm hb), if_neg (fun heq => ?_), ih hr, List.cons_append]
    rw [heq] at hb
    exact String.lt_irrefl _ hb

/-- A list in the order of its keys, each once, stays as it is. -/
theorem distinctBy_eq_self (h : l.Pairwise fun a b => key a < key b) : distinctBy key l = l := by
  suffices ∀ kept : List α, ((kept ++ l).Pairwise fun a b => key a < key b) →
      l.foldl (fun kept a => insertNewBy key a kept) kept = kept ++ l from this [] h
  induction l with
  | nil => exact fun kept _ => (List.append_nil kept).symm
  | cons a l ih =>
    intro kept hkept
    have hlast : insertNewBy key a kept = kept ++ [a] := insertNewBy_eq_concat fun x hx =>
      (List.pairwise_append.mp hkept).2.2 x hx a List.mem_cons_self
    rw [List.foldl_cons, hlast, ih (List.Pairwise.of_cons h) _ (by simpa using hkept)]
    simp

/-- **A list in the order of its keys is known by the keys**, where none of them is the key of two
elements. -/
theorem eq_of_keys {l' : List α} (h : l.Pairwise fun a b => key a < key b)
    (h' : l'.Pairwise fun a b => key a < key b) (hinj : ∀ a ∈ l, ∀ b ∈ l', key a = key b → a = b)
    (hkeys : ∀ k, k ∈ l.map key ↔ k ∈ l'.map key) : l = l' := by
  have hmem : ∀ x, x ∈ l ↔ x ∈ l' := by
    refine fun x => ⟨fun hx => ?_, fun hx => ?_⟩
    · obtain ⟨y, hy, hkey⟩ := List.mem_map.mp ((hkeys _).mp (List.mem_map_of_mem hx))
      exact hinj x hx y hy hkey.symm ▸ hy
    · obtain ⟨y, hy, hkey⟩ := List.mem_map.mp ((hkeys _).mpr (List.mem_map_of_mem hx))
      exact hinj y hy x hx hkey ▸ hy
  have hnodup : ∀ {l : List α}, (l.Pairwise fun a b => key a < key b) → l.Nodup := by
    intro l h
    refine List.nodup_iff_pairwise_ne.mpr (h.imp ?_)
    rintro a b hlt rfl
    exact String.lt_irrefl _ hlt
  have hperm : l.Perm l' := (List.perm_ext_iff_of_nodup (hnodup h) (hnodup h')).mpr hmem
  exact hperm.eq_of_pairwise (fun _ _ _ _ hlt hgt => absurd hlt (String.lt_asymm hgt)) h h'

theorem insertBy_sorted (a : α) (h : l.Pairwise fun a b => ¬ key b < key a) :
    (insertBy key a l).Pairwise fun a b => ¬ key b < key a := by
  induction l with
  | nil => exact List.pairwise_singleton ..
  | cons b r ih =>
    obtain ⟨hb, hr⟩ := List.pairwise_cons.mp h
    rw [insertBy]
    split
    case isTrue hlt =>
      refine List.pairwise_cons.mpr ⟨fun x hx => ?_, ih hr⟩
      rcases mem_of_mem_insertBy hx with rfl | hx
      · exact String.lt_asymm hlt
      · exact hb x hx
    case isFalse hnot =>
      refine List.pairwise_cons.mpr ⟨List.forall_mem_cons.mpr ⟨hnot, fun x hx hlt => ?_⟩, h⟩
      exact hb x hx (by grind)

theorem sortBy_sorted (key : α → String) (l : List α) :
    (sortBy key l).Pairwise fun a b => ¬ key b < key a := by
  induction l with
  | nil => exact .nil
  | cons a l ih => exact insertBy_sorted a ih

/-- A list in order stays as it is. -/
theorem sortBy_eq_self (h : l.Pairwise fun a b => ¬ key b < key a) : sortBy key l = l := by
  induction l with
  | nil => rfl
  | cons a l ih =>
    obtain ⟨ha, hl⟩ := List.pairwise_cons.mp h
    change insertBy key a (sortBy key l) = a :: l
    rw [ih hl]
    cases l with
    | nil => rfl
    | cons b r => rw [insertBy, if_neg (ha b List.mem_cons_self)]

/-! ## Places -/

/-- What is listed before an element has a smaller index. -/
theorem idxOf_lt_of_split [DecidableEq α] {newer older : List α} {y : α}
    (h : l = newer ++ y :: older) (hnodup : l.Nodup) (hx : x ∈ newer) :
    l.idxOf x < l.idxOf y := by
  subst h
  have hy : y ∉ newer := fun hmem => (List.nodup_append.mp hnodup).2.2 y hmem y (by simp) rfl
  rw [List.idxOf_append_of_mem hx, List.idxOf_append_of_notMem hy]
  exact Nat.lt_add_right _ (List.idxOf_lt_length_of_mem hx)

end Monomorph.Listing
