import Monomorph.Proofs.Assembly.Provides

/-!
# Assembly/Inherited — a slot goes to the nearest type that fills it itself

What stands in a slot of a closed type is its own entry, or else the entry of the first of its
providers that has one when it is closed (`slotEntry`).  Concepts are closed after their providers,
so the equation holds of all of them at once (`ClosedUpTo`), and it has one solution
(`Inherits.unique`): a closed assembly solves it for itself, and closing it again changes nothing.
-/

namespace Monomorph.Assembly

open Relation

/-- What stands in a slot: the type's own entry, or that of the first provider with one. -/
def slotEntry (concepts : Table ConceptDecl) (own : Table String) (provides : List String)
    (slot : String) : Option String :=
  (own.get? slot).or
    (provides.findSome? fun p => (concepts.get? p).bind fun d => d.vtable.get? slot)

/-- **One assembly is another with its slots inherited**, and nothing else changed. -/
structure Inherits (m m' : Assembly) : Prop where
  concept : ∀ key d, m.concepts.get? key = some d → ∃ vtable,
    m'.concepts.get? key = some { d with vtable } ∧
      ∀ slot, vtable.get? slot = slotEntry m'.concepts d.vtable d.provides slot
  entity : ∀ key d, m.entities.get? key = some d → ∃ vtable,
    m'.entities.get? key = some { d with vtable } ∧
      ∀ slot, vtable.get? slot = slotEntry m'.concepts d.vtable d.provides slot
  concepts : m'.concepts.keys = m.concepts.keys
  entities : m'.entities.keys = m.entities.keys
  others : m' = { m with concepts := m'.concepts, entities := m'.entities }

/-- Whatever an entity names as a supertype is a concept. -/
def EntitiesProvideConcepts (m : Assembly) : Prop :=
  ∀ key d, m.entities.get? key = some d → ∀ p ∈ d.provides, m.concepts.contains p = true

variable {m m' : Assembly}

/-! ## One type -/

/-- Only the providers count. -/
theorem slotEntry_congr {concepts concepts' : Table ConceptDecl} {provides : List String}
    (h : ∀ p ∈ provides, concepts.get? p = concepts'.get? p) (own : Table String) (slot : String) :
    slotEntry concepts own provides slot = slotEntry concepts' own provides slot := by
  rw [slotEntry, slotEntry]
  congr 1
  induction provides with
  | nil => rfl
  | cons p rest ih =>
    rw [List.findSome?_cons, List.findSome?_cons, h p (by simp),
      ih fun q hq => h q (List.mem_cons_of_mem _ hq)]

theorem get?_inherit (own provided : Table String) (slot : String) :
    (inherit own provided).get? slot = (own.get? slot).or (provided.get? slot) :=
  Table.get?_foldl_insertNew provided.entries own slot

/-- The slots of a type and those of its providers that are concepts, in turn. -/
def inheritAll (concepts : Table ConceptDecl) (own : Table String) (provides : List String) :
    Table String :=
  provides.foldl
    (fun t p => match concepts.get? p with
      | some c => inherit t c.vtable
      | none => t) own

/-- **Inheriting from providers in turn, the first with an entry counts.** -/
theorem get?_inheritAll (concepts : Table ConceptDecl) (own : Table String)
    (provides : List String) (slot : String) :
    (inheritAll concepts own provides).get? slot = slotEntry concepts own provides slot := by
  induction provides generalizing own with
  | nil => rw [inheritAll, List.foldl_nil, slotEntry, List.findSome?_nil, Option.or_none]
  | cons p rest ih =>
    rw [inheritAll, List.foldl_cons]
    refine (ih _).trans ?_
    rw [slotEntry, slotEntry, List.findSome?_cons]
    cases hp : concepts.get? p with
    | none => rw [Option.bind_none]
    | some c =>
      rw [Option.bind_some, get?_inherit, Option.or_assoc]
      cases c.vtable.get? slot with
      | none => rw [Option.none_or]
      | some k => rw [Option.some_or]

theorem closeConcept_of_get? {concepts : Table ConceptDecl} {key : String} {d : ConceptDecl}
    (h : concepts.get? key = some d) :
    closeConcept concepts key
      = concepts.insert key { d with vtable := inheritAll concepts d.vtable d.provides } := by
  rw [closeConcept, h]
  rfl

/-- Inheriting step by step goes on as long as the providers are concepts. -/
theorem foldlM_inherit {concepts : Table ConceptDecl}
    {take : Table String → String → Except Fault (Table String)}
    (htake : ∀ t p c, concepts.get? p = some c → take t p = .ok (inherit t c.vtable))
    {provides : List String} (h : ∀ p ∈ provides, concepts.contains p = true)
    (own : Table String) : provides.foldlM take own = .ok (inheritAll concepts own provides) := by
  induction provides generalizing own with
  | nil => rfl
  | cons p rest ih =>
    obtain ⟨c, hp⟩ := Table.contains_iff.mp (h p (by simp))
    rw [List.foldlM_cons, htake _ p c hp]
    refine (ih (fun q hq => h q (List.mem_cons_of_mem _ hq)) _).trans ?_
    rw [inheritAll, inheritAll, List.foldl_cons, hp]

/-- An entity with the slots of its providers. -/
def closedEntity (concepts : Table ConceptDecl) (d : EntityDecl) : EntityDecl :=
  { d with vtable := inheritAll concepts d.vtable d.provides }

/-- An entity closes if it names nothing but concepts. -/
theorem closeEntity_eq_ok {concepts : Table ConceptDecl} {d : EntityDecl}
    (h : ∀ p ∈ d.provides, concepts.contains p = true) :
    closeEntity concepts d = .ok (closedEntity concepts d) := by
  rw [closeEntity, foldlM_inherit (fun t p c hc => by rw [hc]) h]
  rfl

/-! ## All concepts -/

/-- The concepts listed are closed, the others as they were. -/
structure ClosedUpTo (m : Assembly) (before : List String) (concepts : Table ConceptDecl) :
    Prop where
  closed : ∀ key ∈ before, ∀ d, m.concepts.get? key = some d → ∃ vtable,
    concepts.get? key = some { d with vtable } ∧
      ∀ slot, vtable.get? slot = slotEntry concepts d.vtable d.provides slot
  same : ∀ key ∉ before, concepts.get? key = m.concepts.get? key

/-- A concept whose providers are closed is closed next. -/
theorem ClosedUpTo.next {before : List String} {concepts : Table ConceptDecl} {u : String}
    (h : ClosedUpTo m before concepts) (hu : u ∉ before)
    (hproviders : ∀ key ∈ before ++ [u], ∀ p, m.Provides key p → p ∈ before) :
    ClosedUpTo m (before ++ [u]) (closeConcept concepts u) := by
  cases hget : m.concepts.get? u with
  | none =>
    have hnone := (h.same u hu).trans hget
    have hstay : closeConcept concepts u = concepts := by rw [closeConcept, hnone]
    rw [hstay]
    refine ⟨fun key hkey d hd => ?_, fun key hkey => h.same key (by simp_all)⟩
    rcases List.mem_append.mp hkey with hkey | hkey
    · exact h.closed key hkey d hd
    · rw [List.mem_singleton.mp hkey, hget] at hd
      cases hd
  | some d₀ =>
    rw [closeConcept_of_get? ((h.same u hu).trans hget)]
    -- no provider of a closed concept changes
    have hentry : ∀ key ∈ before ++ [u], ∀ d, m.concepts.get? key = some d → ∀ own slot,
        slotEntry (concepts.insert u { d₀ with
            vtable := inheritAll concepts d₀.vtable d₀.provides }) own d.provides slot
          = slotEntry concepts own d.provides slot := by
      intro key hkey d hd own slot
      refine slotEntry_congr (fun p hp => ?_) own slot
      have hmem := hproviders key hkey p (by rw [Provides, providers_of_get? hd]; exact hp)
      refine Table.get?_insert_ne _ _ fun heq => hu ?_
      rwa [heq] at hmem
    refine ⟨fun key hkey d hd => ?_, fun key hkey => ?_⟩
    · by_cases hku : key = u
      · subst hku
        obtain rfl : d₀ = d := Option.some.inj (hget.symm.trans hd)
        refine ⟨_, Table.get?_insert_self _ _ _, fun slot => ?_⟩
        rw [hentry key hkey d₀ hd, get?_inheritAll]
      · have hbefore : key ∈ before := by simpa [hku] using hkey
        obtain ⟨vtable, hv, hslots⟩ := h.closed key hbefore d hd
        refine ⟨vtable, (Table.get?_insert_ne _ _ hku).trans hv, fun slot => ?_⟩
        rw [hentry key hkey d hd, hslots]
    · rw [List.mem_append, List.mem_singleton, not_or] at hkey
      rw [Table.get?_insert_ne _ _ hkey.2, h.same key hkey.1]

/-- **In the order found, all concepts get closed.** -/
theorem closedUpTo_order {order : List String} (ha : m.Acyclic) (h : m.Completes order) :
    ClosedUpTo m order (order.foldl closeConcept m.concepts) := by
  suffices hfold : ∀ rest before concepts, order = before ++ rest → ClosedUpTo m before concepts →
      ClosedUpTo m order (rest.foldl closeConcept concepts) from
    hfold order [] m.concepts rfl ⟨by simp, fun _ _ => rfl⟩
  intro rest
  induction rest with
  | nil =>
    intro before concepts heq hclosed
    rwa [heq, List.append_nil]
  | cons u rest ih =>
    intro before concepts heq hclosed
    have hnodup := h.nodup
    rw [heq] at hnodup
    have hu : u ∉ before := fun hmem =>
      (List.nodup_append.mp hnodup).2.2 u hmem u (by simp) rfl
    refine ih (before ++ [u]) _ (by rw [heq, List.append_assoc]; rfl) (hclosed.next hu ?_)
    intro key hkey p e
    rcases List.mem_append.mp hkey with hkey | hkey
    · obtain ⟨first, between, rfl⟩ := List.append_of_mem hkey
      have hsplit : order = first ++ key :: (between ++ u :: rest) := by
        rw [heq, List.append_assoc, List.cons_append]
      exact List.mem_append_left _ (h.provider_mem ha hsplit e)
    · rw [List.mem_singleton.mp hkey] at e
      exact h.provider_mem ha heq e

/-- Closing adds no concept and drops none. -/
theorem ClosedUpTo.keys {order : List String} {concepts : Table ConceptDecl}
    (h : ClosedUpTo m order concepts) (hmem : ∀ k, k ∈ order ↔ m.concepts.contains k = true) :
    concepts.keys = m.concepts.keys := by
  refine Table.keys_eq_of_contains fun key => ?_
  by_cases hkey : key ∈ order
  · obtain ⟨d, hd⟩ := Table.contains_iff.mp ((hmem key).mp hkey)
    obtain ⟨vtable, hv, -⟩ := h.closed key hkey d hd
    rw [Table.contains_of_get? hd, Table.contains_of_get? hv]
  · rw [Table.contains, h.same key hkey, Table.contains]

/-! ## All entities -/

theorem closeEntities_eq_ok {concepts : Table ConceptDecl} {l : List (String × EntityDecl)}
    (h : ∀ e ∈ l, ∀ p ∈ e.2.provides, concepts.contains p = true) (done : Table EntityDecl) :
    closeEntities concepts l done = .ok ((l.map fun e => (e.1, closedEntity concepts e.2)).foldl
      (fun t e => t.insert e.1 e.2) done) := by
  induction l generalizing done with
  | nil => rfl
  | cons e l ih =>
    rw [closeEntities, closeEntity_eq_ok (h e (by simp))]
    exact ih (fun d hd => h d (List.mem_cons_of_mem _ hd)) _

/-- **Every entity gets closed under its key.** -/
theorem closeEntities_entries {concepts : Table ConceptDecl} {entities : Table EntityDecl}
    (h : ∀ key d, entities.get? key = some d → ∀ p ∈ d.provides, concepts.contains p = true) :
    closeEntities concepts entities.entries ∅ = .ok (entities.map (closedEntity concepts)) := by
  rw [closeEntities_eq_ok fun e he => h e.1 e.2 (Table.mem_entries.mp he)]
  congr 1
  refine Table.ext_get? fun key => ?_
  rw [Table.get?_map]
  cases hkey : entities.get? key with
  | none =>
    refine Table.get?_ofList_eq_none fun hmem => ?_
    rw [List.map_map] at hmem
    rw [← Table.contains_eq_false, ← Bool.not_eq_true, ← Table.mem_keys] at hkey
    exact hkey hmem
  | some d =>
    have hentry := Table.mem_entries.mpr hkey
    refine Table.get?_ofList_of_mem (List.mem_map.mpr ⟨(key, d), hentry, rfl⟩) ?_
    rintro e he rfl
    obtain ⟨⟨key, d'⟩, hd', rfl⟩ := List.mem_map.mp he
    obtain rfl : d' = d := Option.some.inj ((Table.mem_entries.mp hd').symm.trans hkey)
    rfl

/-! ## The closed assembly -/

/-- **Closing inherits.** -/
theorem closeVtables_inherits (hp : m.ProvidesConcepts) (ha : m.Acyclic)
    (he : m.EntitiesProvideConcepts) : ∃ m', m.closeVtables = .ok m' ∧ m.Inherits m' := by
  obtain ⟨order, horder⟩ := conceptOrder_isOk hp
  have hcompletes := conceptOrder_completes horder
  have hclosed := closedUpTo_order ha hcompletes
  have hconcept : ∀ key d, m.concepts.get? key = some d → ∃ vtable,
      (order.foldl closeConcept m.concepts).get? key = some { d with vtable } ∧
        ∀ slot, vtable.get? slot
          = slotEntry (order.foldl closeConcept m.concepts) d.vtable d.provides slot :=
    fun key d hd => hclosed.closed key
      ((hcompletes.mem key).mpr (Table.contains_of_get? hd)) d hd
  have hkeys := hclosed.keys hcompletes.mem
  have hentities := @closeEntities_entries _ m.entities
    fun key d hd p hpd => Table.mem_keys.mp (hkeys ▸ Table.mem_keys.mpr (he key d hd p hpd))
  have hok : m.closeVtables = .ok { m with
      concepts := order.foldl closeConcept m.concepts
      entities := m.entities.map (closedEntity (order.foldl closeConcept m.concepts)) } := by
    rw [closeVtables, horder]
    change closeEntities _ _ ∅ >>= _ = _
    rw [hentities]
    rfl
  refine ⟨_, hok, hconcept, ?_, hkeys, ?_, rfl⟩
  · intro key d hd
    refine ⟨_, by rw [Table.get?_map, hd, Option.map_some, closedEntity], fun slot => ?_⟩
    exact get?_inheritAll _ _ _ _
  · exact Table.keys_eq_of_contains fun key => Table.contains_map _ _ key

namespace Inherits

theorem contains_concepts (h : m.Inherits m') (key : String) :
    m'.concepts.contains key = m.concepts.contains key := by
  rw [Bool.eq_iff_iff, ← Table.mem_keys, ← Table.mem_keys, h.concepts]

theorem contains_entities (h : m.Inherits m') (key : String) :
    m'.entities.contains key = m.entities.contains key := by
  rw [Bool.eq_iff_iff, ← Table.mem_keys, ← Table.mem_keys, h.entities]

theorem provides (h : m.Inherits m') (u v : String) : m'.Provides u v ↔ m.Provides u v := by
  rw [Provides, Provides, providers, providers]
  cases hu : m.concepts.get? u with
  | none =>
    have := Table.contains_eq_false.mp ((h.contains_concepts u).trans
      (Table.contains_eq_false.mpr hu))
    rw [this]
  | some d =>
    obtain ⟨vtable, hv, -⟩ := h.concept u d hu
    rw [hv]
    rfl

/-- Two tables that hold the same under the keys of a third, and nothing else, are equal. -/
theorem table_eq {δ : Type} {t t₁ t₂ : Table δ} (h₁ : t₁.keys = t.keys) (h₂ : t₂.keys = t.keys)
    (h : ∀ key d, t.get? key = some d → t₁.get? key = t₂.get? key) : t₁ = t₂ := by
  refine Table.ext_get? fun key => ?_
  cases hkey : t.get? key with
  | some d => exact h key d hkey
  | none =>
    have hout : key ∉ t.keys := by rw [Table.mem_keys, Table.contains_eq_false.mpr hkey]; decide
    rw [← h₁, Table.mem_keys, Bool.not_eq_true, Table.contains_eq_false] at hout
    rw [hout]
    have hout : key ∉ t.keys := by rw [Table.mem_keys, Table.contains_eq_false.mpr hkey]; decide
    rw [← h₂, Table.mem_keys, Bool.not_eq_true, Table.contains_eq_false] at hout
    rw [hout]

/-- **There is one way to inherit.** -/
theorem unique {m₁ m₂ : Assembly} (h₁ : m.Inherits m₁) (h₂ : m.Inherits m₂)
    (hp : m.ProvidesConcepts) (ha : m.Acyclic) : m₁ = m₂ := by
  have hconcepts : m₁.concepts = m₂.concepts := by
    refine table_eq h₁.concepts h₂.concepts fun key d hd => ?_
    refine ha.concept_induction hp (motive := fun u => ∀ d, m.concepts.get? u = some d →
      m₁.concepts.get? u = m₂.concepts.get? u) (fun u _ ih d hd => ?_) key
      (Table.contains_of_get? hd) d hd
    obtain ⟨t₁, ht₁, hslot₁⟩ := h₁.concept u d hd
    obtain ⟨t₂, ht₂, hslot₂⟩ := h₂.concept u d hd
    suffices t₁ = t₂ by rw [ht₁, ht₂, this]
    refine Table.ext_get? fun slot => ?_
    rw [hslot₁, hslot₂]
    refine slotEntry_congr (fun p hmem => ?_) d.vtable slot
    have e : m.Provides u p := by rw [Provides, providers_of_get? hd]; exact hmem
    obtain ⟨c, hc⟩ := Table.contains_iff.mp (hp u p e)
    exact ih p e c hc
  have hentities : m₁.entities = m₂.entities := by
    refine table_eq h₁.entities h₂.entities fun key d hd => ?_
    obtain ⟨t₁, ht₁, hslot₁⟩ := h₁.entity key d hd
    obtain ⟨t₂, ht₂, hslot₂⟩ := h₂.entity key d hd
    suffices t₁ = t₂ by rw [ht₁, ht₂, this]
    exact Table.ext_get? fun slot => by rw [hslot₁, hslot₂, hconcepts]
  rw [h₁.others, h₂.others, hconcepts, hentities]

/-- A closed type has nothing more to inherit. -/
theorem slotEntry_self {concepts : Table ConceptDecl} {own closed : Table String}
    {provides : List String} (h : ∀ slot, closed.get? slot = slotEntry concepts own provides slot)
    (slot : String) : closed.get? slot = slotEntry concepts closed provides slot := by
  rw [slotEntry, h, slotEntry, Option.or_assoc, Option.or_self]

/-- **A closed assembly inherits from itself.** -/
theorem self (h : m.Inherits m') : m'.Inherits m' where
  concept key d' hd' := by
    have hkey := (h.contains_concepts key).symm.trans (Table.contains_of_get? hd')
    obtain ⟨d, hd⟩ := Table.contains_iff.mp hkey
    obtain ⟨vtable, hv, hslots⟩ := h.concept key d hd
    obtain rfl : { d with vtable } = d' := Option.some.inj (hv.symm.trans hd')
    exact ⟨vtable, hd', slotEntry_self hslots⟩
  entity key d' hd' := by
    have hkey := (h.contains_entities key).symm.trans (Table.contains_of_get? hd')
    obtain ⟨d, hd⟩ := Table.contains_iff.mp hkey
    obtain ⟨vtable, hv, hslots⟩ := h.entity key d hd
    obtain rfl : { d with vtable } = d' := Option.some.inj (hv.symm.trans hd')
    exact ⟨vtable, hd', slotEntry_self hslots⟩
  concepts := rfl
  entities := rfl
  others := rfl

/-- What keeps the supertypes of every type keeps an order possible. -/
theorem provided (h : m.Inherits m') (hp : m.ProvidesConcepts) (ha : m.Acyclic)
    (he : m.EntitiesProvideConcepts) :
    m'.ProvidesConcepts ∧ m'.Acyclic ∧ m'.EntitiesProvideConcepts := by
  refine ⟨fun u v e => ?_, fun u hcycle => ?_, fun key d' hd' p hmem => ?_⟩
  · rw [h.contains_concepts]
    exact hp u v ((h.provides u v).mp e)
  · exact ha u (hcycle.lift id fun u v e => (h.provides u v).mp e)
  · have hkey := (h.contains_entities key).symm.trans (Table.contains_of_get? hd')
    obtain ⟨d, hd⟩ := Table.contains_iff.mp hkey
    obtain ⟨vtable, hv, -⟩ := h.entity key d hd
    obtain rfl : { d with vtable } = d' := Option.some.inj (hv.symm.trans hd')
    rw [h.contains_concepts]
    exact he key d hd p hmem

end Inherits

/-! ## Which slots a type has -/

/-- A concept fills a slot itself. -/
def Fills (m : Assembly) (u slot : String) : Prop :=
  ∃ d, m.concepts.get? u = some d ∧ d.vtable.contains slot = true

theorem isSome_slotEntry {concepts : Table ConceptDecl} {own : Table String}
    {provides : List String} {slot : String} :
    (slotEntry concepts own provides slot).isSome ↔
      own.contains slot = true ∨ ∃ p ∈ provides, ∃ d, concepts.get? p = some d ∧
        d.vtable.contains slot = true := by
  rw [slotEntry, Option.isSome_or, Bool.or_eq_true, List.findSome?_isSome_iff]
  refine or_congr Iff.rfl (exists_congr fun p => and_congr Iff.rfl ?_)
  cases concepts.get? p with
  | none => simp
  | some d => simp [Table.contains]

/-- **A closed concept has the slots that it or a supertype at any distance fills itself.** -/
theorem Inherits.concept_contains (h : m.Inherits m') (hp : m.ProvidesConcepts) (ha : m.Acyclic)
    {u : String} {d' : ConceptDecl} (hd' : m'.concepts.get? u = some d') (slot : String) :
    d'.vtable.contains slot = true ↔ ∃ v, ReflTransGen m.Provides u v ∧ m.Fills v slot := by
  refine ha.concept_induction hp (motive := fun u => ∀ d', m'.concepts.get? u = some d' →
    (d'.vtable.contains slot = true ↔ ∃ v, ReflTransGen m.Provides u v ∧ m.Fills v slot))
    (fun u hu ih d' hd' => ?_) u ((h.contains_concepts u).symm.trans (Table.contains_of_get? hd'))
    d' hd'
  obtain ⟨d, hd⟩ := Table.contains_iff.mp hu
  obtain ⟨vtable, hv, hslots⟩ := h.concept u d hd
  obtain rfl : { d with vtable } = d' := Option.some.inj (hv.symm.trans hd')
  have hprovides : ∀ p, p ∈ d.provides ↔ m.Provides u p := fun p => by
    rw [Provides, providers_of_get? hd]
  rw [Table.contains, hslots, isSome_slotEntry]
  constructor
  · rintro (hown | ⟨p, hmem, c, hc, hslot⟩)
    · exact ⟨u, .refl, d, hd, hown⟩
    · have e := (hprovides p).mp hmem
      obtain ⟨v, hway, hfills⟩ := (ih p e c hc).mp hslot
      exact ⟨v, .head e hway, hfills⟩
  · rintro ⟨v, hway, hfills⟩
    rcases hway.cases_head with rfl | ⟨p, e, hway⟩
    · obtain ⟨d₀, hd₀, hslot⟩ := hfills
      obtain rfl : d₀ = d := Option.some.inj (hd₀.symm.trans hd)
      exact .inl hslot
    · have hin := (h.contains_concepts p).trans (hp u p e)
      obtain ⟨c, hc⟩ := Table.contains_iff.mp hin
      exact .inr ⟨p, (hprovides p).mpr e, c, hc, (ih p e c hc).mpr ⟨v, hway, hfills⟩⟩

/-- A closed entity has its own slots and those of its closed providers. -/
theorem Inherits.entity_contains (h : m.Inherits m') (hp : m.ProvidesConcepts) (ha : m.Acyclic)
    (he : m.EntitiesProvideConcepts) {key : String} {d d' : EntityDecl}
    (hd : m.entities.get? key = some d) (hd' : m'.entities.get? key = some d') (slot : String) :
    d'.vtable.contains slot = true ↔ d.vtable.contains slot = true ∨
      ∃ p ∈ d.provides, ∃ v, ReflTransGen m.Provides p v ∧ m.Fills v slot := by
  obtain ⟨vtable, hv, hslots⟩ := h.entity key d hd
  obtain rfl : { d with vtable } = d' := Option.some.inj (hv.symm.trans hd')
  rw [Table.contains, hslots, isSome_slotEntry]
  refine or_congr Iff.rfl (exists_congr fun p => and_congr_right fun hmem => ?_)
  have hin := (h.contains_concepts p).trans (he key d hd p hmem)
  obtain ⟨c, hc⟩ := Table.contains_iff.mp hin
  constructor
  · rintro ⟨c', hc', hslot⟩
    exact (h.concept_contains hp ha hc' slot).mp hslot
  · exact fun hfills => ⟨c, hc, (h.concept_contains hp ha hc slot).mpr hfills⟩

/-- **Closing a hierarchy without cycles**: a slot has the type's own entry, or else that of its
first closed provider with one; so a type has the slots that it or a supertype fills itself; nothing
else changes, and closing again changes nothing. -/
theorem closeVtables_nearest (hp : m.ProvidesConcepts) (ha : m.Acyclic)
    (he : m.EntitiesProvideConcepts) : ∃ m', m.closeVtables = .ok m' ∧ m.Inherits m' ∧
      (∀ u d', m'.concepts.get? u = some d' → ∀ slot, d'.vtable.contains slot = true ↔
        ∃ v, ReflTransGen m.Provides u v ∧ m.Fills v slot) ∧
      (∀ key d d', m.entities.get? key = some d → m'.entities.get? key = some d' →
        ∀ slot, d'.vtable.contains slot = true ↔ d.vtable.contains slot = true ∨
          ∃ p ∈ d.provides, ∃ v, ReflTransGen m.Provides p v ∧ m.Fills v slot) ∧
      m'.closeVtables = .ok m' := by
  obtain ⟨m', hclose, h⟩ := closeVtables_inherits hp ha he
  obtain ⟨hp', ha', he'⟩ := h.provided hp ha he
  obtain ⟨m'', hagain, h'⟩ := closeVtables_inherits hp' ha' he'
  obtain rfl : m'' = m' := h'.unique h.self hp' ha'
  exact ⟨m'', hclose, h, fun _ _ hd' => h.concept_contains hp ha hd',
    fun _ _ _ hd hd' => h.entity_contains hp ha he hd hd', hagain⟩

/-- A concept that provides another one twice over, and an entity below them all. -/
def hierarchy : Assembly where
  concepts := Table.ofList [
    ("Base", ⟨"Base", "", "Base", "", {}, [], ∅, [],
      Table.ofList [("show", "Base::show"), ("hash", "Base::hash")]⟩),
    ("Mid", ⟨"Mid", "", "Mid", "", {}, [], ∅, ["Base"], Table.ofList [("show", "Mid::show")]⟩),
    ("Other", ⟨"Other", "", "Other", "", {}, [], ∅, ["Base"],
      Table.ofList [("size", "Other::size")]⟩),
    ("Leaf", ⟨"Leaf", "", "Leaf", "", {}, [], ∅, ["Mid", "Other"], ∅⟩)]
  entities := Table.ofList [
    ("Circle", ⟨"Circle", "", "Circle", "", {}, [], ∅, ["Leaf", "Other"], [],
      Table.ofList [("size", "Circle::size")]⟩)]

theorem hierarchy_provides :
    hierarchy.ProvidesConcepts ∧ hierarchy.Acyclic ∧ hierarchy.EntitiesProvideConcepts := by
  refine ⟨forall_provides.mpr (by decide +kernel), ?_, fun key d hd => ?_⟩
  · exact acyclic_of_rank (fun u => ["Base", "Mid", "Other", "Leaf"].idxOf u)
      (forall_provides.mpr (by decide +kernel))
  · have : ∀ e ∈ hierarchy.entities.entries, ∀ p ∈ e.2.provides,
        hierarchy.concepts.contains p = true := by decide +kernel
    exact this (key, d) (Table.mem_entries.mpr hd)

/-- The entity inherits what only the topmost concept fills. -/
theorem hierarchy_closes :
    hierarchy.ProvidesConcepts ∧ hierarchy.Acyclic ∧ hierarchy.EntitiesProvideConcepts ∧
      ∃ m', hierarchy.closeVtables = .ok m' ∧ m'.closeVtables = .ok m' ∧
        ∀ d', m'.entities.get? "Circle" = some d' → d'.vtable.contains "hash" = true := by
  obtain ⟨hp, ha, he⟩ := hierarchy_provides
  obtain ⟨m', hclose, -, -, hentity, hagain⟩ := closeVtables_nearest hp ha he
  refine ⟨hp, ha, he, m', hclose, hagain, fun d' hd' => ?_⟩
  obtain ⟨d, hd⟩ : ∃ d, hierarchy.entities.get? "Circle" = some d := ⟨_, rfl⟩
  refine (hentity "Circle" d d' hd hd' "hash").mpr (.inr ⟨"Other", ?_, "Base", ?_, ?_⟩)
  · obtain rfl := Option.some.inj hd
    decide
  · exact .single (by decide +kernel : "Base" ∈ hierarchy.providers "Other")
  · exact ⟨_, rfl, by decide +kernel⟩

end Monomorph.Assembly
