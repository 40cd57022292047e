import Mathlib.Tactic.Common

/-!
# Ty/Separated — texts that can be read back in one way

An item is read back if the text it begins, whatever follows, begins with no other item's text
(`ReadBack`).  What may follow matters: a name ends where no character of names stands, an item of a
list where its separator or the closing mark does.  **Lists of such items are read back**, with a
separator between them (`ReadBack.separated`), and between a pair of marks also if they are empty
(`ReadBack.enclosed`).
-/

namespace Monomorph

/-! ## Names -/

/-- A character of a name: a letter, a digit or an underscore. -/
def plainChar (c : Char) : Bool :=
  c.isAlphanum || c = '_'

/-- A name that says nothing but itself. -/
def PlainName (n : String) : Prop :=
  n ≠ "" ∧ ∀ c ∈ n.toList, plainChar c = true

instance (n : String) : Decidable (PlainName n) :=
  decidable_of_iff (n ≠ "" ∧ n.toList.all plainChar = true) (by rw [PlainName, List.all_eq_true])

/-- A stretch of characters with a property ends where the first without it stands. -/
theorem span_unique {p : Char → Bool} {l l' r r' : List Char} (hl : ∀ c ∈ l, p c = true)
    (hl' : ∀ c ∈ l', p c = true) (hr : ∀ c ∈ r.head?, p c = false)
    (hr' : ∀ c ∈ r'.head?, p c = false) (h : l ++ r = l' ++ r') : l = l' ∧ r = r' := by
  induction l generalizing l' with
  | nil =>
    cases l' with
    | nil => exact ⟨rfl, h⟩
    | cons d l' =>
      rw [List.nil_append, List.cons_append] at h
      have := hr d (by rw [h]; rfl)
      rw [hl' d (by simp)] at this
      cases this
  | cons c l ih =>
    cases l' with
    | nil =>
      rw [List.nil_append, List.cons_append] at h
      have := hr' c (by rw [← h]; rfl)
      rw [hl c (by simp)] at this
      cases this
    | cons d l' =>
      rw [List.cons_append, List.cons_append] at h
      obtain ⟨rfl, htail⟩ := List.cons.inj h
      obtain ⟨rfl, rfl⟩ := ih (fun c hc => hl c (List.mem_cons_of_mem _ hc))
        (fun c hc => hl' c (List.mem_cons_of_mem _ hc)) htail
      exact ⟨rfl, rfl⟩

/-- **A name is read back** before anything that is no part of a name. -/
theorem PlainName.read {n n' : String} {r r' : List Char} (hn : PlainName n) (hn' : PlainName n')
    (hr : ∀ c ∈ r.head?, plainChar c = false) (hr' : ∀ c ∈ r'.head?, plainChar c = false)
    (h : n.toList ++ r = n'.toList ++ r') : n = n' ∧ r = r' := by
  obtain ⟨hl, hrest⟩ := span_unique hn.2 hn'.2 hr hr' h
  exact ⟨String.toList_inj.mp hl, hrest⟩

/-- A name begins with a character of names. -/
theorem PlainName.eq_cons {n : String} (h : PlainName n) :
    ∃ c l, n.toList = c :: l ∧ plainChar c = true := by
  cases hn : n.toList with
  | nil => exact absurd (String.toList_inj.mp hn) h.1
  | cons c l => exact ⟨c, l, rfl, h.2 c (by simp [hn])⟩

/-! ## Numbers -/

theorem isDigit_of_mem_toString {n : Nat} {c : Char} (h : c ∈ (toString n).toList) :
    c.isDigit = true := by
  rw [show toString n = n.repr from rfl, Nat.toList_repr] at h
  exact Nat.isDigit_of_mem_toDigits (by decide) (by decide) h

theorem toString_toList_inj {n k : Nat} (h : (toString n).toList = (toString k).toList) :
    n = k := by
  simpa using congrArg (fun l => Nat.ofDigitChars 10 l 0) h

/-- **Digits are read back** before anything that is none. -/
theorem digits_before {n k : Nat} {r r' : List Char} (hr : ∀ c ∈ r.head?, c.isDigit = false)
    (hr' : ∀ c ∈ r'.head?, c.isDigit = false)
    (h : (toString n).toList ++ r = (toString k).toList ++ r') : n = k ∧ r = r' := by
  obtain ⟨hn, hrest⟩ := span_unique (fun _ => isDigit_of_mem_toString)
    (fun _ => isDigit_of_mem_toString) hr hr' h
  exact ⟨toString_toList_inj hn, hrest⟩

/-- **Digits are read back from the end**, after a mark that is none. -/
theorem digits_read {mark : Char} (hmark : mark.isDigit = false) {l r : List Char} {n k : Nat}
    (h : l ++ mark :: (toString n).toList = r ++ mark :: (toString k).toList) : l = r ∧ n = k := by
  have unmarked : ∀ n : Nat, mark ∉ (toString n).toList := fun n hd => by
    rw [isDigit_of_mem_toString hd] at hmark
    cases hmark
  have split : ∀ {l r s t : List Char}, mark ∉ s → mark ∉ t → l ++ mark :: s = r ++ mark :: t →
      l = r ∧ s = t := by
    intro l r s t hs ht h
    rcases List.append_eq_append_iff.mp h with ⟨m, rfl, hm⟩ | ⟨m, rfl, hm⟩ <;>
      rcases List.cons_eq_append_iff.mp hm with ⟨rfl, he⟩ | ⟨m, rfl, rfl⟩ <;> simp_all
  obtain ⟨hl, hn⟩ := split (unmarked n) (unmarked k) h
  exact ⟨hl, toString_toList_inj hn⟩

/-! ## Items -/

variable {α : Type}

/-- The text of `x`, followed by what may follow, begins with no text of another good item. -/
def ReadBack (text : α → List Char) (good : α → Prop) (follow : List Char → Prop) (x : α) : Prop :=
  ∀ y, good y → ∀ r r', follow r → follow r' → text x ++ r = text y ++ r' → x = y ∧ r = r'

namespace ReadBack

variable {text : α → List Char} {good : α → Prop} {follow : List Char → Prop} {sep : List Char}
  {xs ys : List α} {r r' : List Char}

/-- **Items with separators between them**, before anything that does not go on with a separator. -/
theorem separated (hsep : ∀ r, follow (sep ++ r)) (hx : ∀ x ∈ xs, ReadBack text good follow x)
    (hy : ∀ y ∈ ys, good y) (hxs : xs ≠ []) (hys : ys ≠ []) (hr : follow r) (hr' : follow r')
    (hend : ¬ sep <+: r) (hend' : ¬ sep <+: r')
    (h : sep.intercalate (xs.map text) ++ r = sep.intercalate (ys.map text) ++ r') :
    xs = ys ∧ r = r' := by
  induction xs generalizing ys with
  | nil => exact absurd rfl hxs
  | cons x xs ih =>
    obtain ⟨y, ys, rfl⟩ := List.exists_cons_of_ne_nil hys
    have hxy := hx x (by simp) y (hy y (by simp))
    cases xs with
    | nil =>
      cases ys with
      | nil =>
        obtain ⟨rfl, rfl⟩ := hxy r r' hr hr' (by simpa using h)
        exact ⟨rfl, rfl⟩
      | cons z ys =>
        rw [List.map_cons, List.map_nil, List.intercalate_singleton, List.map_cons, List.map_cons,
          List.intercalate_cons_cons, List.append_assoc, List.append_assoc] at h
        obtain ⟨-, rfl⟩ := hxy _ _ hr (hsep _) h
        exact absurd (List.prefix_append _ _) hend
    | cons w xs =>
      cases ys with
      | nil =>
        rw [List.map_cons, List.map_cons, List.intercalate_cons_cons, List.map_cons, List.map_nil,
          List.intercalate_singleton, List.append_assoc, List.append_assoc] at h
        obtain ⟨-, rfl⟩ := hxy _ _ (hsep _) hr' h
        exact absurd (List.prefix_append _ _) hend'
      | cons z ys =>
        rw [List.map_cons, List.map_cons, List.intercalate_cons_cons, List.map_cons, List.map_cons,
          List.intercalate_cons_cons, List.append_assoc, List.append_assoc, List.append_assoc,
          List.append_assoc] at h
        obtain ⟨rfl, hrest⟩ := hxy _ _ (hsep _) (hsep _) h
        obtain ⟨hxs, rfl⟩ := ih (fun v hv => hx v (List.mem_cons_of_mem _ hv))
          (fun v hv => hy v (List.mem_cons_of_mem _ hv)) (by simp) (by simp)
          (List.append_cancel_left hrest)
        exact ⟨congrArg (x :: ·) hxs, rfl⟩

/-- A list with something in it begins as its first item does. -/
theorem intercalate_eq_append (sep l : List Char) (ls : List (List Char)) :
    ∃ rest, sep.intercalate (l :: ls) = l ++ rest := by
  cases ls with
  | nil => exact ⟨[], by simp⟩
  | cons m ls => exact ⟨_, by rw [List.intercalate_cons_cons, List.append_assoc]⟩

/-- **Items before a closing mark**, none of them beginning with it. -/
theorem enclosed (hsep : ∀ r, follow (sep ++ r)) (hx : ∀ x ∈ xs, ReadBack text good follow x)
    (hgood : ∀ x ∈ xs, good x) (hy : ∀ y ∈ ys, good y) {c : Char}
    (hopen : ∀ x, good x → ∃ d s, text x = d :: s ∧ d ≠ c) (hclose : ∀ r, follow (c :: r))
    (hend : ∀ r, ¬ sep <+: c :: r)
    (h : sep.intercalate (xs.map text) ++ c :: r = sep.intercalate (ys.map text) ++ c :: r') :
    xs = ys ∧ r = r' := by
  -- a list with something in it does not begin with the closing mark
  have hfilled : ∀ {z zs} {s s' : List Char}, good z →
      sep.intercalate ((z :: zs).map text) ++ s ≠ c :: s' := by
    intro z zs s s' hz he
    obtain ⟨d, t, hd, hne⟩ := hopen z hz
    obtain ⟨rest, hrest⟩ := intercalate_eq_append sep (text z) (zs.map text)
    rw [List.map_cons, hrest, hd, List.cons_append, List.cons_append] at he
    exact hne (List.cons.inj he).1
  cases xs with
  | nil =>
    cases ys with
    | nil => exact ⟨rfl, by simpa using h⟩
    | cons y ys => exact absurd h.symm (hfilled (hy y (by simp)))
  | cons x xs =>
    cases ys with
    | nil => exact absurd h (hfilled (hgood x (by simp)))
    | cons y ys =>
      obtain ⟨heq, hr⟩ := separated hsep hx hy (by simp) (by simp) (hclose r) (hclose r') (hend r)
        (hend r') h
      exact ⟨heq, (List.cons.inj hr).2⟩

end ReadBack

end Monomorph
