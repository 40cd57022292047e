import Monomorph.Proofs.Listing.Order
import Monomorph.Proofs.Table.Lookup
import Monomorph.Proofs.Ty.Separated
import Monomorph.Ty.Basic

/-!
# Ty/Built — types made of the declarations of a program

Whatever the constructors make of a program's declarations (`Ty.Built`) has something in every union
and every intersection, entities and concepts in their own places, and plain names throughout
(`Ty.Proper`).  Sorting and dropping options of one key changes none of that: what is kept was
there.
-/

namespace Monomorph

/-- **Types as the constructors make them** of a program's declarations. -/
inductive Ty.Built (p : Program) : Ty → Prop
  | entity {d : TypeDecl} {b : Binds} {t : Ty} (hd : d ∈ p.types) (hn : ∀ n ∈ b.keys, PlainName n)
      (hb : ∀ u ∈ b.values, Ty.Built p u) (h : Ty.entity d b = .ok t) : Ty.Built p t
  /-- An intersection: of declarations of concepts only, and of one at least. -/
  | concept {qs : List (TypeDecl × Binds)} (hne : qs ≠ [])
      (hd : ∀ q ∈ qs, q.1 ∈ p.types ∧ q.1.kind = .concept)
      (hn : ∀ q ∈ qs, ∀ n ∈ q.2.keys, PlainName n) (hb : ∀ q ∈ qs, ∀ u ∈ q.2.values, Ty.Built p u) :
      Ty.Built p (Ty.concept (qs.map fun q => .ofDecl q.1 q.2))
  | nominal {d : TypeDecl} {b : Binds} (hd : d ∈ p.types) (hn : ∀ n ∈ b.keys, PlainName n)
      (hb : ∀ u ∈ b.values, Ty.Built p u) : Ty.Built p (Ty.nominal d b)
  | tuple {es : List (Slot Ty)} (h : ∀ e ∈ es, Ty.Built p e.type) : Ty.Built p (Ty.tuple es)
  | record {es : List (String × Slot Ty)} (hn : ∀ e ∈ es, PlainName e.1)
      (h : ∀ e ∈ es, Ty.Built p e.2.type) : Ty.Built p (Ty.record es)
  | ephemeral {ts : List Ty} (h : ∀ t ∈ ts, Ty.Built p t) : Ty.Built p (Ty.ephemeral ts)
  /-- A union of options of types built before. -/
  | union {ts : List Ty} {os : List Atom} {t : Ty} (h : ∀ u ∈ ts, Ty.Built p u)
      (ho : ∀ a ∈ os, ∃ u ∈ ts, a ∈ u.options) (ht : Ty.ofAtoms os = .ok t) : Ty.Built p t
  | join {ts : List Ty} {t : Ty} (h : ∀ u ∈ ts, Ty.Built p u) (ht : Ty.join ts = .ok t) :
      Ty.Built p t

/-! ## What every type built is -/

/-- A declaration of a program, of one kind, with types for plainly named parameters. -/
def Part.Of (p : Program) (k : TypeKind) (q : Part) : Prop :=
  (∃ d ∈ p.types, d.kind = k ∧ q.decl = ⟨d.id, d.ns, d.name⟩) ∧ ∀ e ∈ q.binds, PlainName e.1

namespace Atom

/-- The types directly inside an option. -/
def types : Atom → List Ty
  | .entity q => q.binds.map (·.2)
  | .concept qs => qs.flatMap fun q => q.binds.map (·.2)
  | .tuple es => es.map (·.type)
  | .record es => es.map (·.2.type)
  | .ephemeral ts => ts

/-- An option whose own names and declarations are in order. -/
def Proper (p : Program) : Atom → Prop
  | .entity q => q.Of p .entity
  | .concept qs => qs ≠ [] ∧ ∀ q ∈ qs, q.Of p .concept
  | .record es => ∀ e ∈ es, PlainName e.1
  | .tuple _ | .ephemeral _ => True

end Atom

/-- A type in order all through, with an option at least in every union. -/
inductive Ty.Proper (p : Program) : Ty → Prop
  | union {os : List Atom} (hne : os ≠ []) (ha : ∀ a ∈ os, a.Proper p)
      (ht : ∀ a ∈ os, ∀ t ∈ a.types, Ty.Proper p t) : Ty.Proper p (.union os)

/-! ## The constructors -/

namespace Ty

variable {p : Program}

/-- A union of options in order. -/
theorem Proper.ofAtoms {os : List Atom} {t : Ty} (ha : ∀ a ∈ os, a.Proper p)
    (ht : ∀ a ∈ os, ∀ u ∈ a.types, u.Proper p) (h : Ty.ofAtoms os = .ok t) : t.Proper p := by
  cases os with
  | nil => cases h
  | cons a os =>
    obtain rfl := Except.ok.inj h
    exact .union (Listing.distinctBy_ne_nil (by simp))
      (fun x hx => ha x (Listing.mem_of_mem_distinctBy hx))
      fun x hx => ht x (Listing.mem_of_mem_distinctBy hx)

theorem Proper.single {a : Atom} (ha : a.Proper p) (ht : ∀ u ∈ a.types, u.Proper p) :
    (single a).Proper p :=
  .union (by simp) (by simpa using ha) (by simpa using ht)

theorem Proper.option {t : Ty} (h : t.Proper p) {a : Atom} (ha : a ∈ t.options) :
    a.Proper p ∧ ∀ u ∈ a.types, u.Proper p := by
  cases h with
  | union _ hall ht => exact ⟨hall a ha, ht a ha⟩

/-- A declaration with types for its parameters. -/
theorem of_ofDecl {d : TypeDecl} {b : Binds} {k : TypeKind} (hd : d ∈ p.types) (hk : d.kind = k)
    (hn : ∀ n ∈ b.keys, PlainName n) : (Part.ofDecl d b).Of p k :=
  ⟨⟨d, hd, hk, rfl⟩, fun e he => hn e.1 (List.mem_map_of_mem he)⟩

theorem Proper.entityOf {d : TypeDecl} {b : Binds} (hd : d ∈ p.types) (hk : d.kind = .entity)
    (hn : ∀ n ∈ b.keys, PlainName n) (hb : ∀ u ∈ b.values, u.Proper p) :
    (Ty.single (.entity (.ofDecl d b))).Proper p :=
  .single (of_ofDecl hd hk hn) hb

theorem Proper.conceptOf {qs : List (TypeDecl × Binds)} (hne : qs ≠ [])
    (hd : ∀ q ∈ qs, q.1 ∈ p.types ∧ q.1.kind = .concept)
    (hn : ∀ q ∈ qs, ∀ n ∈ q.2.keys, PlainName n) (hb : ∀ q ∈ qs, ∀ u ∈ q.2.values, u.Proper p) :
    (Ty.concept (qs.map fun q => .ofDecl q.1 q.2)).Proper p := by
  have hmem : ∀ q ∈ Listing.distinctBy Part.key (qs.map fun q => Part.ofDecl q.1 q.2),
      ∃ x ∈ qs, Part.ofDecl x.1 x.2 = q := fun q hq =>
    List.mem_map.mp (Listing.mem_of_mem_distinctBy hq)
  refine .single ⟨Listing.distinctBy_ne_nil (by simpa using hne), fun q hq => ?_⟩ fun u hu => ?_
  · obtain ⟨x, hx, rfl⟩ := hmem q hq
    exact of_ofDecl (hd x hx).1 (hd x hx).2 (hn x hx)
  · obtain ⟨q, hq, hu⟩ := List.mem_flatMap.mp hu
    obtain ⟨x, hx, rfl⟩ := hmem q hq
    exact hb x hx u hu

/-- **Every type built is in order.** -/
theorem Built.proper {t : Ty} (h : t.Built p) : t.Proper p := by
  induction h with
  | @entity d b t hd hn _ h hb =>
    rw [Ty.entity] at h
    cases hk : d.kind with
    | entity =>
      rw [hk] at h
      obtain rfl := Except.ok.inj h
      exact .entityOf hd hk hn hb
    | concept =>
      rw [hk] at h
      cases h
  | concept hne hd hn _ hb => exact .conceptOf hne hd hn hb
  | @nominal d b hd hn _ hb =>
    rw [Ty.nominal]
    cases hk : d.kind with
    | entity => exact .entityOf hd hk hn hb
    | concept =>
      exact @Proper.conceptOf p [(d, b)] (by simp) (by simpa using ⟨hd, hk⟩) (by simpa using hn)
        (by simpa using hb)
  | tuple _ ht => exact .single trivial (List.forall_mem_map.mpr ht)
  | record hn _ ht =>
    refine .single (fun e he => hn e (Listing.mem_of_mem_sortBy he)) (List.forall_mem_map.mpr ?_)
    exact fun e he => ht e (Listing.mem_of_mem_sortBy he)
  | ephemeral _ ht => exact .single trivial ht
  | union _ ho h ht =>
    refine .ofAtoms (fun a ha => ?_) (fun a ha => ?_) h <;> obtain ⟨u, hu, ha⟩ := ho a ha
    · exact ((ht u hu).option ha).1
    · exact ((ht u hu).option ha).2
  | join _ h ht =>
    refine .ofAtoms (fun a ha => ?_) (fun a ha => ?_) h <;>
      obtain ⟨u, hu, ha⟩ := List.mem_flatMap.mp ha
    · exact ((ht u hu).option ha).1
    · exact ((ht u hu).option ha).2

end Ty

end Monomorph
