import Monomorph.Proofs.Ty.Readable

/-!
# Ty/Inside — what a type built of the declarations of a program is made of

The options of a type built stand in the order of their keys, and what they are made of was built as
well (`Ty.Built.option`): parts of declarations, concepts in the order of their keys, records in the
order of their names.  So each option is a type built on its own (`Ty.Built.single`).
-/

namespace Monomorph

/-! ## Parts, options, types -/

/-- Types built for plainly named parameters. -/
def Binds.Built (p : Program) (b : Binds) : Prop :=
  (∀ n ∈ b.keys, PlainName n) ∧ ∀ u ∈ b.values, u.Built p

/-- A declaration of one kind with types built for its parameters. -/
def Part.Built (p : Program) (k : TypeKind) (q : Part) : Prop :=
  ∃ d ∈ p.types, d.kind = k ∧ ∃ b : Binds, b.Built p ∧ q = .ofDecl d b

/-- A declaration of the program, with any types for its parameters. -/
def Part.From (p : Program) (q : Part) : Prop :=
  ∃ d ∈ p.types, ∃ b : Binds, q = .ofDecl d b

theorem Part.Built.declared {p : Program} {k : TypeKind} {q : Part} (h : q.Built p k) :
    q.From p := by
  obtain ⟨d, hd, -, b, -, rfl⟩ := h
  exact ⟨d, hd, b, rfl⟩

/-- An option the parts of which were built, and stand in order. -/
def Atom.Tidy (p : Program) : Atom → Prop
  | .entity q => q.Built p .entity
  | .concept qs => (qs.Pairwise fun a b => a.key < b.key) ∧ ∀ q ∈ qs, q.Built p .concept
  | .record es => es.Pairwise fun a b => ¬ b.1 < a.1
  | .tuple _ | .ephemeral _ => True

namespace Ty

variable {p : Program} {t : Ty}

theorem options_of_ofAtoms {os : List Atom} (h : Ty.ofAtoms os = .ok t) :
    t.options = Listing.distinctBy Atom.key os := by
  cases os with
  | nil => cases h
  | cons a os =>
    obtain rfl := Except.ok.inj h
    rfl

theorem tidy_concept {qs : List (TypeDecl × Binds)}
    (hd : ∀ q ∈ qs, q.1 ∈ p.types ∧ q.1.kind = .concept) (hb : ∀ q ∈ qs, q.2.Built p) :
    let a := Atom.concept (Listing.distinctBy Part.key (qs.map fun q => .ofDecl q.1 q.2))
    a.Tidy p ∧ ∀ u ∈ a.types, u.Built p := by
  have hmem : ∀ q ∈ Listing.distinctBy Part.key (qs.map fun q => Part.ofDecl q.1 q.2),
      ∃ x ∈ qs, Part.ofDecl x.1 x.2 = q := fun q hq =>
    List.mem_map.mp (Listing.mem_of_mem_distinctBy hq)
  refine ⟨⟨Listing.distinctBy_sorted .., fun q hq => ?_⟩, fun u hu => ?_⟩
  · obtain ⟨x, hx, rfl⟩ := hmem q hq
    exact ⟨x.1, (hd x hx).1, (hd x hx).2, x.2, hb x hx, rfl⟩
  · obtain ⟨q, hq, hu⟩ := List.mem_flatMap.mp hu
    obtain ⟨x, hx, rfl⟩ := hmem q hq
    exact (hb x hx).2 u hu

/-- **What the options of a type built are made of was built.** -/
theorem Built.option (h : t.Built p) {a : Atom} (ha : a ∈ t.options) :
    a.Tidy p ∧ ∀ u ∈ a.types, u.Built p := by
  induction h with
  | @entity d b t hd hn hb h _ =>
    rw [Ty.entity] at h
    cases hk : d.kind with
    | entity =>
      rw [hk] at h
      obtain rfl := Except.ok.inj h
      obtain rfl := List.mem_singleton.mp ha
      exact ⟨⟨d, hd, hk, b, ⟨hn, hb⟩, rfl⟩, hb⟩
    | concept =>
      rw [hk] at h
      cases h
  | concept hne hd hn hb _ =>
    obtain rfl := List.mem_singleton.mp ha
    exact tidy_concept hd fun q hq => ⟨hn q hq, hb q hq⟩
  | @nominal d b hd hn hb _ =>
    rw [Ty.nominal] at ha
    cases hk : d.kind with
    | entity =>
      rw [hk] at ha
      obtain rfl := List.mem_singleton.mp ha
      exact ⟨⟨d, hd, hk, b, ⟨hn, hb⟩, rfl⟩, hb⟩
    | concept =>
      rw [hk] at ha
      obtain rfl := List.mem_singleton.mp ha
      exact @tidy_concept p [(d, b)] (List.forall_mem_singleton.mpr ⟨hd, hk⟩)
        (List.forall_mem_singleton.mpr ⟨hn, hb⟩)
  | tuple ht _ =>
    obtain rfl := List.mem_singleton.mp ha
    exact ⟨trivial, List.forall_mem_map.mpr ht⟩
  | record hn ht _ =>
    obtain rfl := List.mem_singleton.mp ha
    exact ⟨Listing.sortBy_sorted .., List.forall_mem_map.mpr fun e he =>
      ht e (Listing.mem_of_mem_sortBy he)⟩
  | ephemeral ht _ =>
    obtain rfl := List.mem_singleton.mp ha
    exact ⟨trivial, ht⟩
  | union _ ho h ih =>
    rw [options_of_ofAtoms h] at ha
    obtain ⟨u, hu, ha⟩ := ho a (Listing.mem_of_mem_distinctBy ha)
    exact ih u hu ha
  | join _ h ih =>
    rw [options_of_ofAtoms h] at ha
    obtain ⟨u, hu, ha⟩ := List.mem_flatMap.mp (Listing.mem_of_mem_distinctBy ha)
    exact ih u hu ha

/-- **The options of a type built stand in the order of their keys**, each key once. -/
theorem Built.sorted (h : t.Built p) : t.options.Pairwise fun a b => a.key < b.key := by
  cases h with
  | @entity d b t hd hn hb h =>
    rw [Ty.entity] at h
    cases hk : d.kind <;> rw [hk] at h
    · obtain rfl := Except.ok.inj h
      exact List.pairwise_singleton ..
    · cases h
  | @nominal d b =>
    rw [Ty.nominal]
    cases d.kind <;> exact List.pairwise_singleton ..
  | concept | tuple | record | ephemeral => exact List.pairwise_singleton ..
  | union _ _ h | join _ h =>
    rw [options_of_ofAtoms h]
    exact Listing.distinctBy_sorted ..

/-- An option of a type built is a type built on its own. -/
theorem Built.single (h : t.Built p) {a : Atom} (ha : a ∈ t.options) : (single a).Built p :=
  @Built.union p [t] [a] _ (List.forall_mem_singleton.mpr h)
    (List.forall_mem_singleton.mpr ⟨t, List.mem_singleton_self t, ha⟩) rfl

/-- A concept is a type built on its own. -/
theorem Built.ofPart {q : Part} (h : q.Built p .concept) :
    (Ty.single (.concept [q])).Built p := by
  obtain ⟨d, hd, hkind, b, ⟨hn, hb⟩, rfl⟩ := h
  exact @Built.concept p [(d, b)] (by simp) (List.forall_mem_singleton.mpr ⟨hd, hkind⟩)
    (List.forall_mem_singleton.mpr hn) (List.forall_mem_singleton.mpr hb)

end Ty

end Monomorph
