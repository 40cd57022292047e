import Monomorph.Proofs.Ssa.Checked

/-!
# Ssa/Reads — a converted body reads what the body as written reads

The versions at a block are those of the base names that are certain there (`Starts.contains`), and
along any way every version holds what the original name holds (`Converted.holds_along`).  A read of
a definitely assigned name therefore finds its version, and **every event of the body as written is
an event of the converted body**, with the same values read (`toSsa_past_along`).
-/

namespace Monomorph

open Versions

/-! ## One row -/

namespace Versions

variable {known : String → Prop} {V : Type} (m : Meaning V) {v u v' : Versions} {o o' : Op}
  {ops ops' : List Op}

/-- **One operation, run before and after conversion**: the event is the same, and the version it
writes holds what the name it wrote holds. -/
theorem Turns.holds (hk : Apart known) (hs : v.Sound known) (ho : o.Raw known)
    (ht : Turns v o o' u) (hr : ∀ r ∈ o.reads, v.contains r.base = true)
    {origin origin' : Option String} {s s' : Running V} (hv : v.Holds s.store s'.store)
    (hp : s'.past = s.past) :
    u.Holds (m.step origin s o).store (m.step origin' s' o').store ∧
      (m.step origin' s' o').past = (m.step origin s o).past := by
  have hread : ∀ r ∈ o.reads, s'.store (v.nameOf r) = s.store r.name := by
    intro r hmem
    obtain ⟨w, hw⟩ := Table.contains_iff.mp (hr r hmem)
    rw [nameOf_of_get? hw, hv r.base w hw, ho.unversioned r (List.mem_append_left _ hmem)]
  have hevent : m.event s'.store (v.rewrite o) = m.event s.store o := event_rewrite m hread
  have hmerge : o'.instr.isMerge = false := ht.isMerge.trans ho.noMerge
  rw [m.step_event ho.noMerge, m.step_event hmerge]
  cases ht with
  | quiet ht =>
    rw [target?_rewrite, ht, hevent, hp]
    exact ⟨hv, rfl⟩
  | @define r n ht hn =>
    have hmem : r ∈ o.reads ++ o.writes := List.mem_append_right _ (by simp [Op.writes, ht])
    rw [Op.event_named, Op.target?_named, target?_rewrite, ht, hevent, hp]
    refine ⟨?_, rfl⟩
    have hversion : Versioned r.base (r.withName n).name := by rwa [Register.name_withName]
    simp only [Option.map_some, Register.rename_byName_const, ho.unversioned r hmem]
    exact hv.insert hk hs (ho.known r hmem) hversion _

/-- **A row of operations, run before and after conversion.** -/
theorem Row.holds (hk : Apart known) (hs : v.Sound known) (ho : ∀ o ∈ ops, o.Raw known)
    (h : Row v ops ops' v') (hr : ReadsFrom (fun n => v.contains n = true) ops)
    {origin origin' : Option String} {s s' : Running V} (hv : v.Holds s.store s'.store)
    (hp : s'.past = s.past) :
    v'.Holds (m.steps origin s ops).store (m.steps origin' s' ops').store ∧
      (m.steps origin' s' ops').past = (m.steps origin s ops).past := by
  induction h generalizing s s' with
  | nil => exact ⟨hv, hp⟩
  | @cons v u v' o o' ops ops' ht _ ih =>
    obtain ⟨hfirst, hrest⟩ := hr
    obtain ⟨hu, hpast⟩ := ht.holds m hk hs (ho o (by simp)) hfirst hv hp
    simp only [← ht.contains] at hrest
    exact ih (ht.sound hs (ho o (by simp))) (fun x hx => ho x (List.mem_cons_of_mem _ hx)) hrest hu
      hpast

end Versions

namespace Blocks

variable {bs bs' : Blocks} {params : List String} {out : Table Versions}

/-! ## Versions are those of the names that are certain -/

/-- A block begins with a version of exactly those names that all its predecessors within reach have
a version of. -/
theorem Starts.contains_merge {l : String} {start : Versions} {phis : List Op}
    (hl : l ≠ entryLabel) (hr : bs.Reachable l)
    (hout : ∀ p, bs.Reachable p → bs.Edge p l → ∃ v, out.get? p = some v)
    (h : bs.Starts params out l start phis) (n : String) :
    start.contains n = true ↔ ∀ p v, bs.Reachable p → bs.Edge p l → out.get? p = some v →
      v.contains n = true := by
  cases h with
  | entry => exact absurd rfl hl
  | merge _ h =>
    rw [h.contains, or_iff_right (by simp [Table.contains])]
    constructor
    · intro hn p v hp e hv
      obtain ⟨⟨b, r⟩, hb, rfl⟩ := List.mem_map.mp hn
      exact (Incoming.shared_spec hb).2 (p, v) ((mem_incoming hr.contains).mpr ⟨⟨hp, e⟩, hv⟩)
    · intro hall
      obtain ⟨before, hway⟩ := hr
      rcases hway.eq_nil_or_step with ⟨-, rfl⟩ | ⟨way, p, rfl, hp, e⟩
      · exact absurd rfl hl
      · obtain ⟨v, hv⟩ := hout p hp.reachable e
        have hinc : (p, v) ∈ bs.incoming out l :=
          (mem_incoming hway.contains).mpr ⟨⟨hp.reachable, e⟩, hv⟩
        obtain ⟨r, hr⟩ := Incoming.mem_shared (List.ne_nil_of_mem hinc) fun q hq => by
          obtain ⟨⟨hq, e⟩, hv⟩ := (mem_incoming hway.contains).mp hq
          exact hall q.1 q.2 hq e hv
        exact List.mem_map.mpr ⟨_, hr, rfl⟩

namespace Converted

variable (h : Converted bs bs' params out)

include h

/-- A block within reach, its parts and its last versions. -/
theorem of_reachable {l : String} (hl : bs.Reachable l) : ∃ start phis ops atEnd,
    bs'.opsAt l = phis ++ ops ∧ (∀ o ∈ phis, o.instr.isMerge = true) ∧
      Row start (bs.opsAt l) ops atEnd ∧ out.get? l = some atEnd ∧
      bs.Starts params out l start phis := by
  obtain ⟨b, hb⟩ := Table.contains_iff.mp hl.contains
  obtain ⟨start, phis, ops, atEnd, hget, hphi, hrow, hr⟩ := h.block l b hb
  obtain ⟨hout, hstart⟩ := hr hl
  refine ⟨start, phis, ops, atEnd, opsAt_of_get? hget, hphi, ?_, hout, hstart⟩
  rwa [opsAt_of_get? hb]

/-- **A block begins with versions of the names certain there**, if its predecessors end with
versions of the names certain after them. -/
theorem contains_start {l : String} (hl : bs.Reachable l)
    (hpred : ∀ p, bs.Reachable p → bs.Edge p l → ∀ v, out.get? p = some v → ∀ n,
      (v.contains n = true ↔ bs.CertainAt params p n ∨ n ∈ bs.assignedAt p))
    {start : Versions} {phis : List Op} (hs : bs.Starts params out l start phis) (n : String) :
    start.contains n = true ↔ bs.CertainAt params l n := by
  by_cases he : l = entryLabel
  · subst he
    rw [certainAt_entry hl.contains]
    cases hs with
    | entry => exact contains_seed
    | merge hne => exact absurd rfl hne
  · have hout : ∀ p, bs.Reachable p → bs.Edge p l → ∃ v, out.get? p = some v := by
      intro p hp _
      obtain ⟨_, _, _, v, -, -, -, hv, -⟩ := h.of_reachable hp
      exact ⟨v, hv⟩
    rw [hs.contains_merge he hl hout, certainAt_iff_forall_pred he]
    constructor
    · intro hall p hp e
      obtain ⟨v, hv⟩ := hout p hp e
      exact (hpred p hp e v hv n).mp (hall p v hp e hv)
    · intro hall p v hp e hv
      exact (hpred p hp e v hv n).mpr (hall p hp e)

/-- **A block ends with versions of the names certain at its start, and of those it assigns.** -/
theorem contains_out (ha : bs.Acyclic) {l : String} (hl : bs.Reachable l) :
    ∀ v, out.get? l = some v → ∀ n,
      (v.contains n = true ↔ bs.CertainAt params l n ∨ n ∈ bs.assignedAt l) := by
  refine ha.reachable_induction (motive := fun l => ∀ v, out.get? l = some v → ∀ n,
    (v.contains n = true ↔ bs.CertainAt params l n ∨ n ∈ bs.assignedAt l)) ?_ hl
  intro l hl ih v hv n
  obtain ⟨start, phis, ops, atEnd, -, -, hrow, hout, hstart⟩ := h.of_reachable hl
  obtain rfl := Option.some.inj (hout.symm.trans hv)
  rw [hrow.contains, h.contains_start hl ih hstart, assignedAt]

/-- **The versions a block begins with are those of the names certain there.** -/
theorem contains_start_iff (ha : bs.Acyclic) {l : String} (hl : bs.Reachable l)
    {start : Versions} {phis : List Op} (hs : bs.Starts params out l start phis) (n : String) :
    start.contains n = true ↔ bs.CertainAt params l n :=
  h.contains_start hl (fun _ hp _ => h.contains_out ha hp) hs n

/-! ## Any way -/

/-- The merges of a block hand on what the block before left. -/
theorem holds_start {V : Type} (m : Meaning V) (hc : bs.Convertible params)
    {p l : String} {start v : Versions} {phis : List Op} (hp : bs.Reachable p) (e : bs.Edge p l)
    (hv : out.get? p = some v) (hs : bs.Starts params out l start phis) {σ : Store V}
    {s : Running V} (hh : v.Holds σ s.store) :
    start.Holds σ (m.steps (some p) s phis).store ∧ (m.steps (some p) s phis).past = s.past := by
  cases hs with
  | entry => exact absurd e (hc.acyclic.not_edge_entry hp)
  | merge hl hm =>
    have hinc : (p, v) ∈ bs.incoming out l := (mem_incoming e.2).mpr ⟨⟨hp, e⟩, hv⟩
    refine hm.holds m hc.apart (distinct_incoming bs out l) hinc (h.sound p v hv)
      (Incoming.nodup_shared _) ?_ (fun b w hw => by cases hw) (fun b w hw => by cases hw)
      fun b _ u hu => hh b u hu
    intro b r hr
    obtain ⟨⟨⟨q, w⟩, hq, hw⟩, hall⟩ := Incoming.shared_spec hr
    obtain ⟨hk, hb, hn⟩ := h.sound q w ((mem_incoming e.2).mp hq).2 b r hw
    exact ⟨hk, hb, hn, hall (p, v) hinc⟩

/-- A block whose merges have run: its events are the same, and its last versions hold what the
names hold. -/
theorem holds_block {V : Type} (m : Meaning V) (hc : bs.Convertible params)
    (hd : bs.DefinitelyAssigned params) {l : String} (hl : bs.Reachable l) {start atEnd : Versions}
    {phis ops : List Op} (hrow : Row start (bs.opsAt l) ops atEnd)
    (hs : bs.Starts params out l start phis) {origin : Option String} {s s' : Running V}
    (hh : start.Holds s.store s'.store) (hp : s'.past = s.past) :
    atEnd.Holds (m.steps origin s (bs.opsAt l)).store (m.steps origin s' ops).store ∧
      (m.steps origin s' ops).past = (m.steps origin s (bs.opsAt l)).past := by
  refine hrow.holds m hc.apart (sound_start h.sound hl.contains hs) hc.raw_opsAt ?_ hh hp
  simp only [h.contains_start_iff hc.acyclic hl hs]
  exact definitelyAssigned_iff.mp hd l hl

/-- **Along any way** the events are the same, and each version a block ends with holds what its
base name holds. -/
theorem holds_along {V : Type} (m : Meaning V) (hc : bs.Convertible params)
    (hd : bs.DefinitelyAssigned params) {s s' : Running V}
    (hv : ∀ p ∈ params, s'.store p = s.store p) (hp : s'.past = s.past) {before : List String}
    {l : String} (hway : bs.Path before l) {v : Versions} (hout : out.get? l = some v) :
    v.Holds (m.along bs none s (before ++ [l])).store
        (m.along bs' none s' (before ++ [l])).store ∧
      (m.along bs' none s' (before ++ [l])).past = (m.along bs none s (before ++ [l])).past := by
  -- on the way: the versions at the end of each block are those the next one begins with
  induction hway generalizing v with
  | entry he =>
    have hl : bs.Reachable entryLabel := (Path.entry he).reachable
    obtain ⟨start, phis, ops, atEnd, hops, -, hrow, hatEnd, hs⟩ := h.of_reachable hl
    obtain rfl := Option.some.inj (hatEnd.symm.trans hout)
    have hseed : start.Holds s.store s'.store ∧ phis = [] := by
      cases hs with
      | merge hne => exact absurd rfl hne
      | entry =>
        refine ⟨fun b w hw => ?_, rfl⟩
        rw [get?_seed] at hw
        split at hw
        · obtain rfl := Option.some.inj hw
          exact hv b ‹_›
        · cases hw
    obtain ⟨hh, rfl⟩ := hseed
    rw [List.nil_append, Meaning.along, Meaning.along, Meaning.along, Meaning.along, hops]
    exact h.holds_block m hc hd hl hrow hs hh hp
  | @step before p l hway e ih =>
    have hl : bs.Reachable l := hway.reachable.step e
    obtain ⟨start, phis, ops, atEnd, hops, -, hrow, hatEnd, hs⟩ := h.of_reachable hl
    obtain rfl := Option.some.inj (hatEnd.symm.trans hout)
    obtain ⟨_, _, _, u, -, -, -, hu, -⟩ := h.of_reachable hway.reachable
    obtain ⟨hh, hpast⟩ := ih hu
    have hlast : (before ++ [p]).getLast?.or none = some p := by simp
    obtain ⟨hh, hpast'⟩ := h.holds_start m hc hway.reachable e hu hs hh
    rw [m.along_concat bs, m.along_concat bs', hlast, hops, m.steps_append]
    exact h.holds_block m hc hd hl hrow hs hh (hpast'.trans hpast)

end Converted

/-! ## What every read sees -/

/-- **Conversion preserves what every read sees.**  Whatever the operations do, along every way from
`entry` the converted body has the events of the body as it was written: the same operations, one
after another, reading the same values. -/
theorem toSsa_past_along (hc : bs.Convertible params) (hd : bs.DefinitelyAssigned params) :
    ∃ bs' changed, bs.toSsa params = .ok (bs', changed) ∧
      ∀ {V : Type} (m : Meaning V) (σ σ' : Store V), (∀ p ∈ params, σ' p = σ p) →
        ∀ before l, bs.Path before l →
          (m.along bs' none ⟨σ', []⟩ (before ++ [l])).past
            = (m.along bs none ⟨σ, []⟩ (before ++ [l])).past := by
  obtain ⟨bs', changed, out, hrun, h⟩ := toSsa_eq_ok hc
  refine ⟨bs', changed, hrun, fun m σ σ' hσ before l hway => ?_⟩
  obtain ⟨_, _, _, v, -, -, -, hout, -⟩ := h.of_reachable hway.reachable
  have hbegin : ∀ p ∈ params, (Running.mk σ' []).store p = (Running.mk σ []).store p := hσ
  exact (h.holds_along m hc hd hbegin rfl hway hout).2

/-- The diamond along its longer way: other names may begin with other values. -/
theorem diamond_past_along : diamond.Convertible ["p"] ∧ diamond.DefinitelyAssigned ["p"] ∧
    diamond.Path ["entry", "then"] "returnassign" ∧ ∃ bs' changed,
      diamond.toSsa ["p"] = .ok (bs', changed) ∧ ∀ m : Meaning Nat,
        (m.along bs' none ⟨fun n => n.length, []⟩ ["entry", "then", "returnassign"]).past
          = (m.along diamond none ⟨fun _ => 1, []⟩ ["entry", "then", "returnassign"]).past := by
  have hway : diamond.Path ["entry", "then"] "returnassign" :=
    ((Path.entry (by decide +kernel)).step (u := "entry") (v := "then")
      ⟨by decide +kernel, by decide +kernel⟩).step ⟨by decide +kernel, by decide +kernel⟩
  obtain ⟨bs', changed, hrun, h⟩ :=
    toSsa_past_along diamond_convertible diamond_definitelyAssigned
  refine ⟨diamond_convertible, diamond_definitelyAssigned, hway, bs', changed, hrun, fun m => ?_⟩
  exact h m (fun _ => 1) (fun n => n.length) (by decide +kernel) _ _ hway

end Blocks

end Monomorph
