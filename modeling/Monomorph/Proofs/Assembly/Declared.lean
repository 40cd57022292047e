import Monomorph.Generate
import Monomorph.Proofs.Assembly.Supertypes
import Monomorph.Proofs.Program.Supertypes
import Monomorph.Proofs.Ty.Nominal

/-!
# Assembly/Declared — an assembly that charts the declarations of a program

An assembly charts a program if each type in it is declared under a key of its declaration, by its
kind, with the keys of the supertypes its declaration names, and these are declared too
(`Assembly.Charts`).  Keys tell declarations apart, so such an assembly has the edges of the program
and no others: it can be closed if the program has no cycle (`Charts.close`), and then one type is
below another just if its declaration reaches the other's.
-/

namespace Monomorph

open Relation

namespace Program

/-- The key of the type at an id, without types for parameters. -/
def Bare (p : Program) (t : TypeId) (k : String) : Prop :=
  (Work.type t ∅).key p = .ok k

/-- Whatever a declaration names as a supertype is a concept. -/
def ProvidesConcepts (p : Program) : Prop :=
  ∀ u v, p.Extends u v → ∃ e, p.type v = .ok e ∧ e.kind = .concept

/-- No declaration is among its own supertypes, at any distance. -/
def Acyclic (p : Program) : Prop :=
  ∀ t, ¬ TransGen p.Extends t t

variable {p : Program} {t t' : TypeId} {d : TypeDecl} {k k' : String}

theorem type_eq_ok : p.type t = .ok d ↔ p.type? t = some d := by
  rw [Program.type]
  cases p.type? t <;> simp

theorem bare_iff (hd : p.type t = .ok d) : p.Bare t k ↔ k = Key.type d ∅ := by
  rw [Bare, Work.key, hd]
  exact ⟨fun h => (Except.ok.inj h).symm, fun h => congrArg Except.ok h.symm⟩

theorem ProvidesConcepts.known (h : p.ProvidesConcepts) : p.Known := fun u v e => by
  obtain ⟨d, hd, -⟩ := h u v e
  rw [type_eq_ok.mp hd]
  rfl

/-- No two ids are those of one declaration. -/
theorem PlainlyNamed.id_inj (hp : p.PlainlyNamed) (h : p.type t = .ok d) (h' : p.type t' = .ok d) :
    t = t' := by
  have hnodup : p.types.Nodup := List.Nodup.of_map _ hp.distinct
  have hsame := (type_eq_ok.mp h).trans (type_eq_ok.mp h').symm
  obtain ⟨hlt, -⟩ := List.getElem?_eq_some_iff.mp (type_eq_ok.mp h)
  have := (List.getElem?_inj hlt hnodup).mp hsame
  exact congrArg TypeId.mk (UInt32.toNat_inj.mp this)

end Program

namespace Assembly

/-- The keys of the supertypes that a type is declared with, if it is declared as of that kind. -/
def declared? (m : Assembly) (kind : TypeKind) (k : String) : Option (List String) :=
  match kind with
  | .concept => (m.concepts.get? k).map (·.provides)
  | .entity => (m.entities.get? k).map (·.provides)

variable {m m' : Assembly} {p : Program} {u v k : String}

theorem isSome_declared?_concept : (m.declared? .concept k).isSome = m.concepts.contains k := by
  rw [declared?, Option.isSome_map, Table.contains]

theorem isSome_declared?_entity : (m.declared? .entity k).isSome = m.entities.contains k := by
  rw [declared?, Option.isSome_map, Table.contains]

theorem hasNominal_iff : m.hasNominal k = true ↔ ∃ kind, (m.declared? kind k).isSome = true := by
  rw [hasNominal, Bool.or_eq_true, ← isSome_declared?_concept, ← isSome_declared?_entity]
  constructor
  · rintro (h | h)
    · exact ⟨_, h⟩
    · exact ⟨_, h⟩
  · rintro ⟨_ | _, h⟩
    · exact .inr h
    · exact .inl h

theorem provides_iff : m.Provides u v ↔ ∃ ps, m.declared? .concept u = some ps ∧ v ∈ ps := by
  rw [Provides, providers, declared?]
  cases m.concepts.get? u <;> simp

theorem entityProvides_iff :
    m.EntityProvides u v ↔ ∃ ps, m.declared? .entity u = some ps ∧ v ∈ ps := by
  rw [EntityProvides, declared?]
  cases m.entities.get? u <;> simp

theorem extends_iff : m.Extends u v ↔ ∃ kind ps, m.declared? kind u = some ps ∧ v ∈ ps := by
  rw [Extends, provides_iff, entityProvides_iff]
  constructor
  · rintro (h | h)
    · exact ⟨_, h⟩
    · exact ⟨_, h⟩
  · rintro ⟨_ | _, h⟩
    · exact .inr h
    · exact .inl h

theorem Inherits.declared? (h : m.Inherits m') (kind : TypeKind) (k : String) :
    m'.declared? kind k = m.declared? kind k := by
  cases kind with
  | concept =>
    rw [Assembly.declared?, Assembly.declared?]
    cases hk : m.concepts.get? k with
    | some d =>
      obtain ⟨vtable, hv, -⟩ := h.concept k d hk
      rw [hv]
      rfl
    | none =>
      have hmissing := Table.contains_eq_false.mpr hk
      rw [Table.contains_eq_false.mp ((h.contains_concepts k).trans hmissing)]
  | entity =>
    rw [Assembly.declared?, Assembly.declared?]
    cases hk : m.entities.get? k with
    | some d =>
      obtain ⟨vtable, hv, -⟩ := h.entity k d hk
      rw [hv]
      rfl
    | none =>
      have hmissing := Table.contains_eq_false.mpr hk
      rw [Table.contains_eq_false.mp ((h.contains_entities k).trans hmissing)]

/-- A type is declared as its declaration says, with the keys of the supertypes that it names. -/
def DeclaredAs (p : Program) (d : TypeDecl) (kind : TypeKind) (ps : List String) : Prop :=
  kind = d.kind ∧ ∀ s, s ∈ ps ↔ ∃ q ∈ d.provides, p.Bare q s

/-- **An assembly charts a program**: each type in it is declared as its declaration says, and the
supertypes are declared too. -/
def Charts (m : Assembly) (p : Program) : Prop :=
  ∀ kind k ps, m.declared? kind k = some ps →
    (∃ t d b, p.type t = .ok d ∧ k = Key.type d b ∧ DeclaredAs p d kind ps) ∧
      ∀ s ∈ ps, (m.declared? .concept s).isSome = true

namespace Charts

/-- A type extends others just as its declaration does. -/
theorem edge (h : m.Charts p) (e : m.Extends u v) : ∃ t d b q f, p.type t = .ok d ∧
    u = Key.type d b ∧ p.Extends t q ∧ p.type q = .ok f ∧ v = Key.type f ∅ := by
  obtain ⟨kind, ps, hps, hv⟩ := extends_iff.mp e
  obtain ⟨⟨t, d, b, hd, rfl, -, hall⟩, -⟩ := h kind u ps hps
  obtain ⟨q, hq, hbare⟩ := (hall v).mp hv
  obtain ⟨f, hf, hkey⟩ := bind_eq_ok.mp hbare
  exact ⟨t, d, b, q, f, hd, rfl, ⟨d, Program.type_eq_ok.mp hd, hq⟩, hf, (Except.ok.inj hkey).symm⟩

/-- **What a type reaches its declaration reaches.** -/
theorem reaches (h : m.Charts p) (hp : p.PlainlyNamed) {t : TypeId} {d : TypeDecl} {b : Binds}
    (hd : p.type t = .ok d) (hway : TransGen m.Extends (Key.type d b) v) :
    ∃ q f, p.type q = .ok f ∧ v = Key.type f ∅ ∧ TransGen p.Extends t q := by
  have hstep : ∀ {t : TypeId} {d : TypeDecl} {b : Binds} {w : String}, p.type t = .ok d →
      m.Extends (Key.type d b) w →
      ∃ q f, p.type q = .ok f ∧ w = Key.type f ∅ ∧ p.Extends t q := by
    intro t d b w hd e
    obtain ⟨t', d', b', q, f, hd', hkey, hext, hf, rfl⟩ := h.edge e
    obtain rfl := Key.type_decl hp (Program.mem_types hd) (Program.mem_types hd') hkey
    obtain rfl := hp.id_inj hd hd'
    exact ⟨q, f, hf, rfl, hext⟩
  induction hway with
  | single e =>
    obtain ⟨q, f, hf, hv, hext⟩ := hstep hd e
    exact ⟨q, f, hf, hv, .single hext⟩
  | tail _ e ih =>
    obtain ⟨q, f, hf, rfl, hway⟩ := ih
    obtain ⟨q', f', hf', hv, hext⟩ := hstep hf e
    exact ⟨q', f', hf', hv, hway.tail hext⟩

/-- **What a declaration reaches its type reaches**, if it is declared. -/
theorem reached (h : m.Charts p) (hp : p.PlainlyNamed) (hconcepts : p.ProvidesConcepts)
    {t q : TypeId} {d f : TypeDecl} (hd : p.type t = .ok d) (hf : p.type q = .ok f)
    (hdeclared : m.hasNominal (Key.type d ∅) = true) (hway : ReflTransGen p.Extends t q) :
    ReflTransGen m.Extends (Key.type d ∅) (Key.type f ∅) := by
  induction hway using ReflTransGen.head_induction_on generalizing d with
  | refl =>
    obtain rfl := Except.ok.inj (hd.symm.trans hf)
    exact .refl
  | @head t u hext _ ih =>
    obtain ⟨kind, hsome⟩ := hasNominal_iff.mp hdeclared
    obtain ⟨ps, hps⟩ := Option.isSome_iff_exists.mp hsome
    obtain ⟨⟨t', d', b, hd', hkey, -, hall⟩, hclosed⟩ := h kind _ ps hps
    obtain rfl := Key.type_decl hp (Program.mem_types hd) (Program.mem_types hd') hkey
    obtain ⟨e, he, -⟩ := hconcepts t u hext
    obtain ⟨d₀, hd₀, hu⟩ := hext
    obtain rfl := Except.ok.inj (hd.symm.trans (Program.type_eq_ok.mpr hd₀))
    have hmem : Key.type e ∅ ∈ ps := (hall _).mpr ⟨u, hu, (Program.bare_iff he).mpr rfl⟩
    exact .head (extends_iff.mpr ⟨kind, ps, hps, hmem⟩)
      (ih he (hasNominal_iff.mpr ⟨.concept, hclosed _ hmem⟩))

theorem apart (h : m.Charts p) (hp : p.PlainlyNamed) : m.Apart := by
  intro k hconcept
  rw [← isSome_declared?_concept] at hconcept
  rw [← isSome_declared?_entity]
  refine Bool.eq_false_iff.mpr fun hentity => ?_
  obtain ⟨ps, hps⟩ := Option.isSome_iff_exists.mp hconcept
  obtain ⟨qs, hqs⟩ := Option.isSome_iff_exists.mp hentity
  obtain ⟨⟨t, d, b, hd, rfl, hkind, -⟩, -⟩ := h _ _ _ hps
  obtain ⟨⟨t', d', b', hd', hkey, hkind', -⟩, -⟩ := h _ _ _ hqs
  obtain rfl := Key.type_decl hp (Program.mem_types hd) (Program.mem_types hd') hkey
  cases hkind.trans hkind'.symm

theorem providesConcepts (h : m.Charts p) :
    m.ProvidesConcepts ∧ m.EntitiesProvideConcepts := by
  constructor
  · intro u v e
    obtain ⟨ps, hps, hv⟩ := provides_iff.mp e
    rw [← isSome_declared?_concept]
    exact (h _ u ps hps).2 v hv
  · intro u d hd v hv
    rw [← isSome_declared?_concept]
    exact (h .entity u d.provides (by rw [declared?, hd]; rfl)).2 v hv

theorem acyclic (h : m.Charts p) (hp : p.PlainlyNamed) (ha : p.Acyclic) : m.Acyclic := by
  intro u hcycle
  have hway : TransGen m.Extends u u := hcycle.lift id fun _ _ => .inl
  obtain ⟨v, e, -⟩ := TransGen.head'_iff.mp hway
  obtain ⟨t, d, b, q, f, hd, rfl, -, -, -⟩ := h.edge e
  obtain ⟨q, f, hf, hkey, hreach⟩ := h.reaches hp hd hway
  obtain rfl := Key.type_decl hp (Program.mem_types hd) (Program.mem_types hf) hkey
  obtain rfl := hp.id_inj hd hf
  exact ha t hreach

theorem of_declared (h : m.Charts p) (hsame : ∀ kind k, m'.declared? kind k = m.declared? kind k) :
    m'.Charts p := by
  intro kind k ps hps
  rw [hsame] at hps
  obtain ⟨hown, hclosed⟩ := h kind k ps hps
  exact ⟨hown, fun s hs => by rw [hsame]; exact hclosed s hs⟩

/-- A type reaches another just if its declaration reaches the other's. -/
theorem reaches_iff (h : m.Charts p) (hp : p.PlainlyNamed) (hconcepts : p.ProvidesConcepts)
    {t q : TypeId} {d f : TypeDecl} (hd : p.type t = .ok d) (hf : p.type q = .ok f)
    (hdeclared : m.hasNominal (Key.type d ∅) = true) :
    ReflTransGen m.Extends (Key.type d ∅) (Key.type f ∅) ↔ ReflTransGen p.Extends t q := by
  refine ⟨fun hway => ?_, h.reached hp hconcepts hd hf hdeclared⟩
  rcases reflTransGen_iff_eq_or_transGen.mp hway with hkey | hway
  · obtain rfl := Key.type_decl hp (Program.mem_types hd) (Program.mem_types hf) hkey.symm
    obtain rfl := hp.id_inj hd hf
    exact .refl
  · obtain ⟨q', f', hf', hkey, hreach⟩ := h.reaches hp hd hway
    obtain rfl := Key.type_decl hp (Program.mem_types hf) (Program.mem_types hf') hkey
    obtain rfl := hp.id_inj hf hf'
    exact hreach.to_reflTransGen

/-- **An assembly that charts a program without cycles is closed**, and then a type declared is
below another just if its declaration provides the other's at some distance. -/
theorem close (h : m.Charts p) (hp : p.PlainlyNamed) (hconcepts : p.ProvidesConcepts)
    (ha : p.Acyclic) (c : Config) : ∃ m', m.close c = .ok m' ∧
      ∀ t q d f, p.type t = .ok d → p.type q = .ok f → m.hasNominal (Key.type d ∅) = true →
        p.providesTransitively t q = .ok (m'.isSubtype (Key.type d ∅) (Key.type f ∅)) := by
  obtain ⟨hprovides, hentities⟩ := h.providesConcepts
  obtain ⟨m₁, hclose, hinherits⟩ := closeVtables_inherits hprovides (h.acyclic hp ha) hentities
  have h₁ : m₁.Charts p := h.of_declared hinherits.declared?
  obtain ⟨hprovides₁, hentities₁⟩ := h₁.providesConcepts
  obtain ⟨m₂, hrecord⟩ := recordSubtypes_isOk (h₁.apart hp) hprovides₁ (h₁.acyclic hp ha)
    hentities₁.earlier
  have hreaches := recordSubtypes_reaches (h₁.apart hp) hrecord
  have hclosed : m.close c
      = .ok (if c.inferTypes then m₂.typed c.coreNamespace else m₂) :=
    bind_eq_ok.mpr ⟨m₁, hclose, bind_eq_ok.mpr ⟨m₂, hrecord, rfl⟩⟩
  refine ⟨_, hclosed, fun t q d f hd hf hdeclared => ?_⟩
  have hsubtype : (if c.inferTypes then m₂.typed c.coreNamespace else m₂).isSubtype
      (Key.type d ∅) (Key.type f ∅) = m₂.isSubtype (Key.type d ∅) (Key.type f ∅) := by
    split <;> rfl
  have hdeclared₁ : m₁.hasNominal (Key.type d ∅) = true := by
    obtain ⟨kind, hsome⟩ := hasNominal_iff.mp hdeclared
    exact hasNominal_iff.mpr ⟨kind, by rw [hinherits.declared?]; exact hsome⟩
  obtain ⟨found, hfound, hiff⟩ := Program.providesTransitively_eq hconcepts.known t
    (by rw [Program.type_eq_ok.mp hd]; rfl) q
  rw [hfound, hsubtype, Except.ok.injEq, Bool.eq_iff_iff, hiff, hreaches.isSubtype,
    h₁.reaches_iff hp hconcepts hd hf hdeclared₁]

end Charts

end Assembly

end Monomorph
