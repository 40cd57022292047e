import Mathlib.Data.List.Basic

/-!
# Result — computations that may fail

What a computation that came to a value has come to on the way, and so for a computation made for
each element of a list.
-/

namespace Monomorph

theorem bind_eq_ok {ε α β : Type} {x : Except ε α} {f : α → Except ε β} {b : β} :
    x >>= f = .ok b ↔ ∃ a, x = .ok a ∧ f a = .ok b := by
  cases x <;> simp [bind, Except.bind]

theorem map_eq_ok {ε α β : Type} {x : Except ε α} {f : α → β} {b : β} :
    f <$> x = .ok b ↔ ∃ a, x = .ok a ∧ f a = b := by
  cases x <;> simp [Functor.map, Except.map]

@[simp] theorem toOption_ok {ε α : Type} (a : α) : (.ok a : Except ε α).toOption = some a :=
  rfl

theorem toOption_eq_some {ε α : Type} {x : Except ε α} {a : α} :
    x.toOption = some a ↔ x = .ok a := by
  cases x <;> simp [Except.toOption]

/-! ## Lists -/

section

variable {ε α β : Type} {f : α → Except ε β} {l l' : List α} {bs : List β}

theorem mapM_cons_eq_ok {a : α} : (a :: l).mapM f = .ok bs ↔
    ∃ b r, f a = .ok b ∧ l.mapM f = .ok r ∧ bs = b :: r := by
  rw [List.mapM_cons, bind_eq_ok]
  constructor
  · rintro ⟨b, hb, h⟩
    obtain ⟨r, hr, h⟩ := bind_eq_ok.mp h
    exact ⟨b, r, hb, hr, (Except.ok.inj h).symm⟩
  · rintro ⟨b, r, hb, hr, rfl⟩
    exact ⟨b, hb, bind_eq_ok.mpr ⟨r, hr, rfl⟩⟩

/-- Each value comes of an element. -/
theorem exists_of_mapM (h : l.mapM f = .ok bs) : ∀ b ∈ bs, ∃ a ∈ l, f a = .ok b := by
  induction l generalizing bs with
  | nil =>
    obtain rfl := Except.ok.inj h
    exact List.forall_mem_nil _
  | cons a l ih =>
    obtain ⟨b, r, hb, hr, rfl⟩ := mapM_cons_eq_ok.mp h
    refine List.forall_mem_cons.mpr ⟨⟨a, List.mem_cons_self, hb⟩, fun c hc => ?_⟩
    obtain ⟨a', ha', hc⟩ := ih hr c hc
    exact ⟨a', List.mem_cons_of_mem _ ha', hc⟩

/-- What undoes a function on each element undoes it on the list. -/
theorem mapM_map_eq_ok {g : β → α} (h : ∀ b ∈ bs, f (g b) = .ok b) :
    (bs.map g).mapM f = .ok bs := by
  induction bs with
  | nil => rfl
  | cons b bs ih =>
    obtain ⟨hb, hbs⟩ := List.forall_mem_cons.mp h
    rw [List.map_cons]
    exact mapM_cons_eq_ok.mpr ⟨b, bs, hb, ih hbs, rfl⟩

/-- What each step keeps, all of them keep. -/
theorem foldlM_keeps {g : β → α → Except ε β} {P : β → Prop}
    (hstep : ∀ b a b', g b a = .ok b' → P b → P b') {b b' : β} (h : l.foldlM g b = .ok b')
    (hb : P b) : P b' := by
  induction l generalizing b with
  | nil => exact Except.ok.inj h ▸ hb
  | cons a l ih =>
    rw [List.foldlM_cons] at h
    obtain ⟨next, hnext, h⟩ := bind_eq_ok.mp h
    exact ih h (hstep b a next hnext hb)

/-- Elements in another order make the same values in another order. -/
theorem exists_mapM_of_perm (h : l'.Perm l) (hl : l.mapM f = .ok bs) :
    ∃ bs', l'.mapM f = .ok bs' ∧ bs'.Perm bs := by
  induction h generalizing bs with
  | nil => exact ⟨bs, hl, .refl _⟩
  | cons a _ ih =>
    obtain ⟨b, r, hb, hr, rfl⟩ := mapM_cons_eq_ok.mp hl
    obtain ⟨r', hr', hperm⟩ := ih hr
    exact ⟨b :: r', mapM_cons_eq_ok.mpr ⟨b, r', hb, hr', rfl⟩, hperm.cons b⟩
  | swap a a' l =>
    obtain ⟨b, r, hb, hr, rfl⟩ := mapM_cons_eq_ok.mp hl
    obtain ⟨b', r', hb', hr', rfl⟩ := mapM_cons_eq_ok.mp hr
    exact ⟨b' :: b :: r', mapM_cons_eq_ok.mpr ⟨b', b :: r', hb',
      mapM_cons_eq_ok.mpr ⟨b, r', hb, hr', rfl⟩, rfl⟩, .swap ..⟩
  | trans _ _ ih ih' =>
    obtain ⟨r, hr, hperm⟩ := ih' hl
    obtain ⟨r', hr', hperm'⟩ := ih hr
    exact ⟨r', hr', hperm'.trans hperm⟩

end

end Monomorph
