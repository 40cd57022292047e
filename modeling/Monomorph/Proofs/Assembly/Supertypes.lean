import Monomorph.Proofs.Assembly.Inherited
import Monomorph.Proofs.Assembly.Rows

/-!
# Assembly/Supertypes — the subtype table is reachability

Concepts get their rows in post-order, which has each after those it names just if there is no cycle
(`Completes.ordered_iff_acyclic`); entities by key, after all concepts and after the entities before
them.  So an entity may name an entity with a smaller key, which no closing of slots allows
(`entity_below_entity`); apart from that the table can be made where slots can be closed.
-/

namespace Monomorph.Assembly

open Relation

/-! ## What types name -/

/-- The entity `u` names `v` as a supertype. -/
def EntityProvides (m : Assembly) (u v : String) : Prop :=
  ∃ d, m.entities.get? u = some d ∧ v ∈ d.provides

/-- The type `u` names `v` as a supertype. -/
def Extends (m : Assembly) (u v : String) : Prop :=
  m.Provides u v ∨ m.EntityProvides u v

/-- No key is both that of a concept and that of an entity. -/
def Apart (m : Assembly) : Prop :=
  ∀ k, m.concepts.contains k = true → m.entities.contains k = false

/-- Whatever an entity names as a supertype is a concept, or an entity with a smaller key. -/
def EntitiesProvideEarlier (m : Assembly) : Prop :=
  ∀ u v, m.EntityProvides u v →
    m.concepts.contains v = true ∨ m.entities.contains v = true ∧ v < u

variable {m m' : Assembly} {order : List String} {edge : String → String → Prop}

theorem EntityProvides.contains {u v : String} (h : m.EntityProvides u v) :
    m.entities.contains u = true := by
  obtain ⟨d, hd, -⟩ := h
  exact Table.contains_of_get? hd

/-- Concepts in an order, each with the supertypes it names. -/
def conceptRows (m : Assembly) (order : List String) : List (String × List String) :=
  order.map fun k => (k, m.providers k)

/-- Entities by key, each with the supertypes it names. -/
def entityRows (m : Assembly) : List (String × List String) :=
  m.entities.entries.map fun e => (e.1, e.2.provides)

@[simp] theorem map_conceptRows : (m.conceptRows order).map (·.1) = order := by
  simp [conceptRows, Function.comp_def]

@[simp] theorem map_entityRows : m.entityRows.map (·.1) = m.entities.keys := by
  simp [entityRows, Table.keys, Function.comp_def]

theorem Apart.extends_concept (h : m.Apart) (ho : m.Completes order) :
    ∀ e ∈ m.conceptRows order, ∀ s, m.Extends e.1 s ↔ s ∈ e.2 := by
  intro e he s
  obtain ⟨k, hk, rfl⟩ := List.mem_map.mp he
  refine or_iff_left fun hentity => ?_
  have := h k ((ho.mem k).mp hk)
  rw [hentity.contains] at this
  cases this

theorem Apart.extends_entity (h : m.Apart) :
    ∀ e ∈ m.entityRows, ∀ s, m.Extends e.1 s ↔ s ∈ e.2 := by
  intro e he s
  obtain ⟨⟨k, d⟩, hd, rfl⟩ := List.mem_map.mp he
  have hget := Table.mem_entries.mp hd
  constructor
  · rintro (hconcept | ⟨d', hd', hs⟩)
    · have := h k hconcept.contains
      rw [Table.contains_of_get? hget] at this
      cases this
    · obtain rfl := Option.some.inj (hget.symm.trans hd')
      exact hs
  · exact fun hs => .inr ⟨d, hget, hs⟩

theorem Completes.nodup_rows (h : m.Completes order) (ha : m.Apart) :
    ((m.conceptRows order ++ m.entityRows).map (·.1)).Nodup := by
  rw [List.map_append, map_conceptRows, map_entityRows]
  refine List.nodup_append.mpr ⟨h.nodup, m.entities.nodup_keys, fun k hk k' hk' heq => ?_⟩
  have := ha k ((h.mem k).mp hk)
  rw [heq, Table.mem_keys.mp hk'] at this
  cases this

/-- **Concepts are in order just if there is no cycle.** -/
theorem Completes.ordered_iff_acyclic (h : m.Completes order) :
    Ordered [] (m.conceptRows order) ↔ m.Acyclic := by
  constructor
  · intro hordered
    refine acyclic_of_rank order.idxOf fun u v e => ?_
    have hmem : (u, m.providers u) ∈ m.conceptRows order :=
      List.mem_map_of_mem ((h.mem u).mpr e.contains)
    have := hordered.idxOf_lt (by simpa using h.nodup) hmem e
    rwa [map_conceptRows] at this
  · intro ha
    refine ordered_iff.mpr fun first e rest heq p hp => ?_
    obtain ⟨before, after, rfl, rfl, hafter⟩ := List.map_eq_append_iff.mp heq
    obtain ⟨u, after, rfl, rfl, rfl⟩ := List.map_eq_cons_iff.mp hafter
    rw [List.nil_append, List.map_map]
    exact List.mem_map.mpr ⟨p, h.provider_mem ha rfl hp, rfl⟩

/-- **Entities are in order just if each names only concepts and entities before it.** -/
theorem Completes.ordered_entities_iff (h : m.Completes order) :
    Ordered order m.entityRows ↔ m.EntitiesProvideEarlier := by
  have hsorted := m.entities.sorted
  constructor
  · rintro hordered u v ⟨d, hd, hv⟩
    obtain ⟨first, rest, heq⟩ := List.append_of_mem (Table.mem_entries.mpr hd)
    have hsplit : m.entityRows = first.map (fun e => (e.1, e.2.provides)) ++
        (u, d.provides) :: rest.map (fun e => (e.1, e.2.provides)) := by
      rw [entityRows, heq, List.map_append, List.map_cons]
    rcases List.mem_append.mp (ordered_iff.mp hordered _ _ _ hsplit v hv) with hmem | hmem
    · exact .inl ((h.mem v).mp hmem)
    · rw [List.map_map] at hmem
      obtain ⟨e, he, rfl⟩ := List.mem_map.mp hmem
      have hmem : (e.1, e.2) ∈ m.entities.entries := by
        rw [heq]
        exact List.mem_append_left _ he
      rw [heq] at hsorted
      exact .inr ⟨Table.contains_of_get? (Table.mem_entries.mp hmem),
        (List.pairwise_append.mp hsorted).2.2 e he _ List.mem_cons_self⟩
  · intro hearlier
    refine ordered_iff.mpr fun first e rest heq p hp => ?_
    obtain ⟨before, after, hentries, rfl, hafter⟩ := List.map_eq_append_iff.mp heq
    obtain ⟨⟨u, d⟩, after, rfl, rfl, rfl⟩ := List.map_eq_cons_iff.mp hafter
    have hd : (u, d) ∈ m.entities.entries := by
      rw [hentries]
      exact List.mem_append_right _ List.mem_cons_self
    rcases hearlier u p ⟨d, Table.mem_entries.mp hd, hp⟩ with hconcept | ⟨hentity, hlt⟩
    · exact List.mem_append_left _ ((h.mem p).mpr hconcept)
    · refine List.mem_append_right _ ?_
      obtain ⟨d', hd'⟩ := Table.contains_iff.mp hentity
      have hmem := Table.mem_entries.mpr hd'
      rw [hentries] at hmem hsorted
      obtain ⟨-, hafter, -⟩ := List.pairwise_append.mp hsorted
      rw [List.map_map]
      rcases List.mem_append.mp hmem with hmem | hmem
      · exact List.mem_map.mpr ⟨_, hmem, rfl⟩
      · -- what comes later has a greater key
        rcases List.mem_cons.mp hmem with heq | hmem
        · obtain rfl := (Prod.mk.inj heq).1
          exact absurd hlt (String.lt_irrefl p)
        · exact absurd ((List.pairwise_cons.mp hafter).1 _ hmem) (String.lt_asymm hlt)

/-! ## The table -/

/-- **What a table that gets made is**: the rows of the concepts and then those of the entities,
each after those it needs. -/
theorem recordSubtypes_rows (ha : m.Apart) (h : m.recordSubtypes = .ok m') :
    ∃ order table, m.Completes order ∧ Ordered [] (m.conceptRows order ++ m.entityRows) ∧
      Rows m.Extends (order ++ m.entities.keys) table ∧ m' = { m with subtypes := table } := by
  rw [recordSubtypes] at h
  obtain ⟨order, horder, h⟩ := bind_eq_ok.mp h
  obtain ⟨concepts, hconcepts, h⟩ := bind_eq_ok.mp h
  obtain ⟨table, htable, h⟩ := bind_eq_ok.mp h
  have hc := conceptOrder_completes horder
  obtain ⟨hfirst, hrows⟩ := (Rows.empty m.Extends).run (ha.extends_concept hc) hconcepts
  rw [List.nil_append, map_conceptRows] at hrows
  obtain ⟨hsecond, hrows⟩ := hrows.run ha.extends_entity htable
  rw [map_entityRows] at hrows
  refine ⟨order, table, hc, ordered_append.mpr ⟨hfirst, ?_⟩, hrows, (Except.ok.inj h).symm⟩
  rwa [map_conceptRows]

/-- **A table gets made where each type can come after those it names.** -/
theorem recordSubtypes_isOk (ha : m.Apart) (hp : m.ProvidesConcepts) (hacyclic : m.Acyclic)
    (he : m.EntitiesProvideEarlier) : ∃ m', m.recordSubtypes = .ok m' := by
  obtain ⟨order, horder⟩ := conceptOrder_isOk hp
  have hc := conceptOrder_completes horder
  obtain ⟨concepts, hconcepts⟩ := (Rows.empty m.Extends).run_isOk
    (fun _ _ => .supertypesUnknown) (ha.extends_concept hc)
    (hc.ordered_iff_acyclic.mpr hacyclic)
  have hrows := ((Rows.empty m.Extends).run (ha.extends_concept hc) hconcepts).2
  rw [List.nil_append, map_conceptRows] at hrows
  obtain ⟨table, htable⟩ := hrows.run_isOk
    (fun k p => .entityProvidesUnknown k p) ha.extends_entity
    (hc.ordered_entities_iff.mpr he)
  exact ⟨_, bind_eq_ok.mpr ⟨order, horder, bind_eq_ok.mpr ⟨concepts, hconcepts,
    bind_eq_ok.mpr ⟨table, htable, rfl⟩⟩⟩⟩

/-- Entities that name only concepts are in order. -/
theorem EntitiesProvideConcepts.earlier (h : m.EntitiesProvideConcepts) :
    m.EntitiesProvideEarlier := by
  rintro u v ⟨d, hd, hv⟩
  exact .inl (h u d hd v hv)

/-- Types in order are on no cycle. -/
theorem Ordered.not_transGen {l : List (String × List String)} (h : Ordered [] l)
    (hnodup : (l.map (·.1)).Nodup) (hedge : ∀ u v, edge u v → ∃ e ∈ l, e.1 = u ∧ v ∈ e.2)
    (u : String) : ¬ TransGen edge u u := by
  refine not_transGen_of_rank (l.map (·.1)).idxOf (fun v w hvw => ?_) u
  obtain ⟨e, he, rfl, hw⟩ := hedge v w hvw
  exact h.idxOf_lt hnodup he hw

theorem Extends.hasNominal {u v : String} (h : m.Extends u v) : m.hasNominal u = true := by
  rw [Assembly.hasNominal, Bool.or_eq_true]
  exact h.imp Provides.contains EntityProvides.contains

theorem Extends.row {u v : String} (hc : m.Completes order) (h : m.Extends u v) :
    ∃ e ∈ m.conceptRows order ++ m.entityRows, e.1 = u ∧ v ∈ e.2 := by
  rcases h with h | ⟨d, hd, hv⟩
  · refine ⟨(u, m.providers u), List.mem_append_left _ ?_, rfl, h⟩
    exact List.mem_map_of_mem ((hc.mem u).mpr h.contains)
  · refine ⟨(u, d.provides), List.mem_append_right _ ?_, rfl, hv⟩
    exact List.mem_map.mpr ⟨(u, d), Table.mem_entries.mpr hd, rfl⟩

/-- **A type is a subtype of what its row has.** -/
theorem Rows.isSubtype_iff {keys : List String} {a b : String} (h : Rows edge keys m.subtypes)
    (hkeys : ∀ v, edge a v → a ∈ keys) : m.isSubtype a b = true ↔ ReflTransGen edge a b := by
  rw [isSubtype, Bool.or_eq_true, decide_eq_true_iff]
  cases hrow : m.subtypes.get? a with
  | some row =>
    rw [Option.any_some, findsInRow_iff (h.sorted a row hrow), h.mem a row hrow]
    exact or_iff_right_of_imp fun heq => heq ▸ .refl
  | none =>
    -- without a row, nothing is named
    have hnone : ∀ v, ¬ edge a v := fun v e => by
      have := (h.contains a).mpr (hkeys v e)
      rw [Table.contains, hrow] at this
      cases this
    rw [Option.any_none, ReflTransGen.cases_head_iff]
    refine or_congr Iff.rfl ⟨fun hf => absurd hf Bool.false_ne_true, ?_⟩
    rintro ⟨v, e, -⟩
    exact absurd e (hnone v)

/-- **One assembly is another with its table of supertypes**: what each type reaches through
`provides`, and nothing else changed. -/
structure Reaches (m m' : Assembly) : Prop where
  others : m' = { m with subtypes := m'.subtypes }
  rows : ∀ k, m'.subtypes.contains k = m.hasNominal k
  sorted : ∀ k row, m'.subtypes.get? k = some row → row.Pairwise (· < ·)
  isSubtype : ∀ a b, m'.isSubtype a b = true ↔ ReflTransGen m.Extends a b
  partialOrder : IsPartialOrder String fun a b => m'.isSubtype a b = true
  entitiesOf : ∀ b, (m'.entitiesOf b).Pairwise (· < ·) ∧ ∀ k, k ∈ m'.entitiesOf b ↔
    m.entities.contains k = true ∧ ReflTransGen m.Extends k b

/-- **A table of supertypes has what each type reaches.** -/
theorem recordSubtypes_reaches (ha : m.Apart) (h : m.recordSubtypes = .ok m') : m.Reaches m' := by
  obtain ⟨order, table, hc, hordered, hrows, rfl⟩ := recordSubtypes_rows ha h
  have hkeys : ∀ k, k ∈ order ++ m.entities.keys ↔ m.hasNominal k = true := fun k => by
    rw [List.mem_append, hc.mem, Table.mem_keys, hasNominal, Bool.or_eq_true]
  have hsub : ∀ a b, ({ m with subtypes := table } : Assembly).isSubtype a b = true ↔
      ReflTransGen m.Extends a b := fun a b =>
    hrows.isSubtype_iff fun v e => (hkeys a).mpr e.hasNominal
  have hcycle := hordered.not_transGen (hc.nodup_rows ha) fun _ _ => Extends.row hc
  refine ⟨rfl, fun k => ?_, hrows.sorted, hsub, ?_, fun b => ⟨?_, fun k => ?_⟩⟩
  · rw [Bool.eq_iff_iff, hrows.contains, hkeys]
  · refine
      { refl := fun a => ?_, trans := fun a b c hab hbc => ?_, antisymm := fun a b hab hba => ?_ }
    · exact (hsub a a).mpr .refl
    · exact (hsub a c).mpr (((hsub a b).mp hab).trans ((hsub b c).mp hbc))
    · rcases reflTransGen_iff_eq_or_transGen.mp ((hsub a b).mp hab) with heq | hway
      · exact heq.symm
      · exact absurd (hway.trans_left ((hsub b a).mp hba)) (hcycle a)
  · exact m.entities.sorted_keys.filter _
  · rw [entitiesOf, List.mem_filter, Table.mem_keys, hsub]

/-- **Where the table can be made, and what it is.**  It can where the supertypes named are concepts
without a cycle, but for an entity below another one with a smaller key; it has what each type
reaches. -/
theorem recordSubtypes_iff (ha : m.Apart) :
    ((∃ m', m.recordSubtypes = .ok m') ↔
      m.ProvidesConcepts ∧ m.Acyclic ∧ m.EntitiesProvideEarlier) ∧
    ((∀ u v, m.EntityProvides u v → m.entities.contains v = false) →
      ((∃ m', m.recordSubtypes = .ok m') ↔
        m.ProvidesConcepts ∧ m.Acyclic ∧ m.EntitiesProvideConcepts)) ∧
    ∀ m', m.recordSubtypes = .ok m' → m.Reaches m' := by
  have hiff : (∃ m', m.recordSubtypes = .ok m') ↔
      m.ProvidesConcepts ∧ m.Acyclic ∧ m.EntitiesProvideEarlier := by
    constructor
    · rintro ⟨m', h⟩
      obtain ⟨order, table, hc, hordered, -, -⟩ := recordSubtypes_rows ha h
      obtain ⟨hconcepts, hentities⟩ := ordered_append.mp hordered
      rw [List.nil_append, map_conceptRows] at hentities
      exact ⟨hc.known, hc.ordered_iff_acyclic.mp hconcepts, hc.ordered_entities_iff.mp hentities⟩
    · rintro ⟨hp, hacyclic, he⟩
      exact recordSubtypes_isOk ha hp hacyclic he
  refine ⟨hiff, fun hnone => hiff.trans ?_, fun m' h => recordSubtypes_reaches ha h⟩
  refine and_congr_right fun _ => and_congr_right fun _ => ⟨fun he u d hd v hv => ?_, (·.earlier)⟩
  refine (he u v ⟨d, hd, hv⟩).resolve_right fun hentity => ?_
  have := hnone u v ⟨d, hd, hv⟩
  rw [hentity.1] at this
  cases this

/-- The entity reaches the topmost concept, by either way to it, and not the other way round. -/
theorem hierarchy_reaches : hierarchy.Apart ∧ ∃ m', hierarchy.recordSubtypes = .ok m' ∧
    m'.isSubtype "Circle" "Base" = true ∧ m'.isSubtype "Base" "Circle" = false := by
  have ha : hierarchy.Apart := fun k hk => by
    have : ∀ k ∈ hierarchy.concepts.keys, hierarchy.entities.contains k = false := by
      decide +kernel
    exact this k (Table.mem_keys.mpr hk)
  obtain ⟨hp, hacyclic, he⟩ := hierarchy_provides
  have hcomplete := recordSubtypes_iff ha
  obtain ⟨m', h⟩ := hcomplete.1.mpr ⟨hp, hacyclic, he.earlier⟩
  have hreaches := hcomplete.2.2 m' h
  have hbase : m'.isSubtype "Circle" "Base" = true := by
    refine (hreaches.isSubtype _ _).mpr (.head (b := "Other") (.inr ⟨_, rfl, by decide⟩) ?_)
    exact .single (.inl (by decide +kernel : "Base" ∈ hierarchy.providers "Other"))
  refine ⟨ha, m', h, hbase, Bool.eq_false_iff.mpr fun hback => ?_⟩
  exact absurd (hreaches.partialOrder.antisymm _ _ hbase hback) (by decide)

/-- Two entities, the second below the first. -/
def entityBelow : Assembly where
  entities := Table.ofList [
    ("A", ⟨"A", "", "A", "", {}, [], ∅, [], [], ∅⟩),
    ("B", ⟨"B", "", "B", "", {}, [], ∅, ["A"], [], ∅⟩)]

/-- **An entity below an entity gets a row, though it has no slots to inherit.** -/
theorem entity_below_entity : entityBelow.Apart ∧ ¬ entityBelow.EntitiesProvideConcepts ∧
    (∃ m', entityBelow.recordSubtypes = .ok m' ∧ m'.isSubtype "B" "A" = true) ∧
    entityBelow.closeVtables = .error (.entityProvidesUnknown "B" "A") := by
  refine ⟨fun k hk => ?_, fun h => ?_, ⟨_, rfl, by decide +kernel⟩, by decide +kernel⟩
  · exact absurd hk (by rw [show entityBelow.concepts.contains k = false from rfl]; decide)
  · have := h "B" _ rfl "A" (by decide)
    exact absurd this (by decide +kernel)

end Monomorph.Assembly
