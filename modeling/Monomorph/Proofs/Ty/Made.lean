import Monomorph.Proofs.Ty.Nominal

/-!
# Ty/Made — types of the declarations of a program, under any names

The constructors ask nothing of the names they are given: a type may be made of declarations, for
parameters and with entries of any name, and the types for its parameters may be any (`Ty.Made`).
Its options stand in order all the same, and are made of declarations and of types made before
(`Ty.Made.option`).  What such a key is the key of cannot always be told, but **what is inside a
type has a shorter key** (`Atom.key_entry_lt`, `Atom.key_part_lt`, `Ty.key_option_lt`).
-/

namespace Monomorph

/-- **Types as the constructors make them** of declarations, whatever names they are given. -/
inductive Ty.Made (p : Program) : Ty → Prop
  | entity {q : Part} (h : q.From p) : Ty.Made p (.single (.entity q))
  | concept {qs : List Part} (h : ∀ q ∈ qs, q.From p) : Ty.Made p (.concept qs)
  | tuple {es : List (Slot Ty)} (h : ∀ e ∈ es, Ty.Made p e.type) : Ty.Made p (.tuple es)
  | record {es : List (String × Slot Ty)} (h : ∀ e ∈ es, Ty.Made p e.2.type) :
      Ty.Made p (.record es)
  | ephemeral {ts : List Ty} (h : ∀ t ∈ ts, Ty.Made p t) : Ty.Made p (.ephemeral ts)
  /-- A union of options of types made before. -/
  | union {ts : List Ty} {os : List Atom} {t : Ty} (h : ∀ u ∈ ts, Ty.Made p u)
      (ho : ∀ a ∈ os, ∃ u ∈ ts, a ∈ u.options) (ht : Ty.ofAtoms os = .ok t) : Ty.Made p t

namespace Atom

/-- The types among the entries of an option. -/
def entries : Atom → List Ty
  | .entity _ | .concept _ => []
  | .tuple es => es.map (·.type)
  | .record es => es.map (·.2.type)
  | .ephemeral ts => ts

/-- An option of declarations of the program, concepts by key and fields by name. -/
def Sorted (p : Program) : Atom → Prop
  | .entity q => q.From p
  | .concept qs => (qs.Pairwise fun a b => a.key < b.key) ∧ ∀ q ∈ qs, q.From p
  | .record es => es.Pairwise fun a b => ¬ b.1 < a.1
  | .tuple _ | .ephemeral _ => True

end Atom

namespace Ty

variable {p : Program} {t : Ty}

/-! ## The constructors -/

theorem Made.nominal {d : TypeDecl} (hd : d ∈ p.types) (b : Binds) : (Ty.nominal d b).Made p := by
  rw [Ty.nominal]
  cases d.kind with
  | entity => exact .entity ⟨d, hd, b, rfl⟩
  | concept => exact .concept (List.forall_mem_singleton.mpr ⟨d, hd, b, rfl⟩)

theorem Made.of_entity {d : TypeDecl} (hd : d ∈ p.types) {b : Binds}
    (h : Ty.entity d b = .ok t) : t.Made p := by
  rw [Ty.entity] at h
  cases hk : d.kind with
  | entity =>
    rw [hk] at h
    obtain rfl := Except.ok.inj h
    exact .entity ⟨d, hd, b, rfl⟩
  | concept =>
    rw [hk] at h
    cases h

theorem Made.join {ts : List Ty} (h : ∀ u ∈ ts, u.Made p) (ht : Ty.join ts = .ok t) :
    t.Made p :=
  .union h (fun _ ha => List.mem_flatMap.mp ha) ht

/-- Types built under plain names are made. -/
theorem Built.made (h : t.Built p) : t.Made p := by
  induction h with
  | entity hd _ _ h => exact .of_entity hd h
  | concept _ hd =>
    exact .concept (List.forall_mem_map.mpr fun q hq => ⟨q.1, (hd q hq).1, q.2, rfl⟩)
  | nominal hd => exact .nominal hd _
  | tuple _ ih => exact .tuple ih
  | record _ _ ih => exact .record ih
  | ephemeral _ ih => exact .ephemeral ih
  | union _ ho h ih => exact .union ih ho h
  | join _ h ih => exact .join ih h

/-! ## Options -/

/-- **The options of a type made are of declarations, in order, and of types made.** -/
theorem Made.option (h : t.Made p) {a : Atom} (ha : a ∈ t.options) :
    a.Sorted p ∧ ∀ u ∈ a.entries, u.Made p := by
  induction h with
  | entity h =>
    obtain rfl := List.mem_singleton.mp ha
    exact ⟨h, List.forall_mem_nil _⟩
  | concept h =>
    obtain rfl := List.mem_singleton.mp ha
    exact ⟨⟨Listing.distinctBy_sorted .., fun q hq => h q (Listing.mem_of_mem_distinctBy hq)⟩,
      List.forall_mem_nil _⟩
  | tuple h _ =>
    obtain rfl := List.mem_singleton.mp ha
    exact ⟨trivial, List.forall_mem_map.mpr h⟩
  | record h _ =>
    obtain rfl := List.mem_singleton.mp ha
    exact ⟨Listing.sortBy_sorted .., List.forall_mem_map.mpr fun e he =>
      h e (Listing.mem_of_mem_sortBy he)⟩
  | ephemeral h _ =>
    obtain rfl := List.mem_singleton.mp ha
    exact ⟨trivial, h⟩
  | union _ ho h ih =>
    rw [options_of_ofAtoms h] at ha
    obtain ⟨u, hu, ha⟩ := ho a (Listing.mem_of_mem_distinctBy ha)
    exact ih u hu ha

theorem Made.sorted (h : t.Made p) : t.options.Pairwise fun a b => a.key < b.key := by
  cases h with
  | union _ _ h =>
    rw [options_of_ofAtoms h]
    exact Listing.distinctBy_sorted ..
  | entity | concept | tuple | record | ephemeral => exact List.pairwise_singleton ..

/-- An option of a type made is a type made on its own. -/
theorem Made.single (h : t.Made p) {a : Atom} (ha : a ∈ t.options) : (Ty.single a).Made p :=
  @Made.union p [t] [a] _ (List.forall_mem_singleton.mpr h)
    (List.forall_mem_singleton.mpr ⟨t, List.mem_singleton_self t, ha⟩) rfl

end Ty

/-! ## Keys inside keys -/

theorem length_le_intercalate {sep s : String} {l : List String} (h : s ∈ l) :
    s.length ≤ (sep.intercalate l).length := by
  induction l with
  | nil => cases h
  | cons a l ih =>
    cases l with
    | nil =>
      obtain rfl := List.mem_singleton.mp h
      exact String.intercalate_singleton ▸ Nat.le_refl _
    | cons b l =>
      rw [String.intercalate_cons_cons, String.length_append, String.length_append]
      rcases List.mem_cons.mp h with rfl | h
      · omega
      · exact Nat.le_trans (ih h) (Nat.le_add_left ..)

/-- Between two texts there is a separator. -/
theorem length_lt_intercalate {sep s : String} {l : List String} (hsep : 0 < sep.length)
    (hmany : 1 < l.length) (h : s ∈ l) : s.length < (sep.intercalate l).length := by
  match l with
  | a :: b :: l =>
    rw [String.intercalate_cons_cons, String.length_append, String.length_append]
    rcases List.mem_cons.mp h with rfl | h
    · omega
    · have := @length_le_intercalate sep _ _ h
      omega

/-- In front of a list there is a bracket. -/
theorem length_lt_enclosed {opening sep closing s : String} {l : List String}
    (hopening : 0 < opening.length) (h : s ∈ l) :
    s.length < (opening ++ sep.intercalate l ++ closing).length := by
  have := @length_le_intercalate sep _ _ h
  rw [String.length_append, String.length_append]
  omega

/-- **The key of an entry is shorter than that of the option**, which stands in brackets. -/
theorem Atom.key_entry_lt {a : Atom} {t : Ty} (h : t ∈ a.entries) :
    t.key.length < a.key.length := by
  cases a with
  | entity | concept => cases h
  | tuple es =>
    obtain ⟨e, he, rfl⟩ := List.mem_map.mp h
    rw [key, Ty.slotKeys_eq_map]
    refine Nat.lt_of_le_of_lt ?_ (length_lt_enclosed (by decide) (List.mem_map_of_mem he))
    rw [Slot.text, String.length_append]
    exact Nat.le_add_left ..
  | record es =>
    obtain ⟨e, he, rfl⟩ := List.mem_map.mp h
    rw [key, Ty.fieldKeys_eq_map]
    refine Nat.lt_of_le_of_lt ?_ (length_lt_enclosed (by decide) (List.mem_map_of_mem he))
    rw [fieldText, String.length_append]
    exact Nat.le_add_left ..
  | ephemeral ts =>
    rw [key, Ty.keys_eq_map]
    exact length_lt_enclosed (by decide) (List.mem_map_of_mem h)

/-- Of several concepts each has a shorter key than their intersection. -/
theorem Atom.key_part_lt {qs : List Part} (hmany : 1 < qs.length) {q : Part} (h : q ∈ qs) :
    q.key.length < (Atom.concept qs).key.length := by
  rw [Atom.key, Part.keys_eq_map]
  exact length_lt_intercalate (by decide) (by rwa [List.length_map]) (List.mem_map_of_mem h)

/-- Of several options each has a shorter key than their union. -/
theorem Ty.key_option_lt {os : List Atom} (hmany : 1 < os.length) {a : Atom} (h : a ∈ os) :
    a.key.length < (Ty.union os).key.length := by
  rw [Ty.key, Atom.keys_eq_map]
  exact length_lt_intercalate (by decide) (by rwa [List.length_map]) (List.mem_map_of_mem h)

end Monomorph
