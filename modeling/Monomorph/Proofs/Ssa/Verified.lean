import Monomorph.Body.Lowering
import Monomorph.Proofs.Body.Checks
import Monomorph.Proofs.Ssa.Reads

/-!
# Ssa/Verified — conversion and the checks agree

The checks follow names, conversion follows versions of base names.  At every point within reach the
two tell the same: the name of every version is known, and a base name that is known has a version
(`Listed`).  A name that is certain on no account keeps its old spelling and is not known, so **a
converted body passes if and only if the body as it was written was well shaped and assigned
everything it reads** (`ssa_violations`).
-/

namespace Monomorph

namespace Versions

/-- Versions and the names known with them. -/
structure Listed (known : String → Prop) (v : Versions) (names : List String) : Prop where
  name_mem : ∀ b w, v.get? b = some w → w.name ∈ names
  contains : ∀ b, known b → b ∈ names → v.contains b = true

variable {known : String → Prop} {v u v' : Versions} {names : List String} {o o' : Op}
  {ops ops' : List Op}

/-- **A read is of a known name** if and only if its base has a version. -/
theorem Listed.nameOf_mem (h : v.Listed known names) {r : Register} (hr : r.name = r.base)
    (hk : known r.base) : v.nameOf r ∈ names ↔ v.contains r.base = true := by
  cases hv : v.get? r.base with
  | none =>
    rw [nameOf_of_none hv, hr]
    refine ⟨h.contains r.base hk, fun hc => ?_⟩
    rw [Table.contains, hv] at hc
    cases hc
  | some w =>
    rw [nameOf_of_get? hv]
    exact ⟨fun _ => Table.contains_of_get? hv, fun _ => h.name_mem r.base w hv⟩

/-- One operation: what it writes is known from there on. -/
theorem Turns.listed (ha : Apart known) (h : v.Listed known names) (ho : o.Raw known)
    (ht : Turns v o o' u) : u.Listed known (o'.writes.map Register.name ++ names) := by
  rcases ht.writes with ⟨-, hw, rfl⟩ | ⟨r, w, hr, hw, -, hv, rfl⟩
  · rw [hw]
    exact h
  · have hk : known r.base := ho.known r (by simp [hr])
    rw [hw, List.map_singleton, List.singleton_append]
    refine ⟨fun b y hy => ?_, fun b hb hmem => ?_⟩
    · rw [Table.get?_insert] at hy
      split at hy
      · rw [← Option.some.inj hy]
        exact List.mem_cons_self
      · exact List.mem_cons_of_mem _ (h.name_mem b y hy)
    · rw [Table.contains_insert, Bool.or_eq_true, decide_eq_true_eq]
      rcases List.mem_cons.mp hmem with rfl | hmem
      · exact .inl (hv.eq_of_known ha hk hb)
      · exact .inr (h.contains b hb hmem)

theorem Turns.readFaults_eq_nil (h : v.Listed known names) (ho : o.Raw known) (ht : Turns v o o' u)
    {reached : List String} {out : Table Blocks.Names} {label : String} :
    Blocks.readFaults reached out label names o' = [] ↔
      ∀ r ∈ o.reads, v.contains r.base = true := by
  rw [Blocks.readFaults_of_noMerge (ht.isMerge.trans ho.noMerge), ← List.forall_mem_map,
    ht.names_reads, List.forall_mem_map]
  refine forall₂_congr fun r hr => ?_
  have hmem : r ∈ o.reads ++ o.writes := List.mem_append_left _ hr
  exact h.nameOf_mem (ho.unversioned r hmem) (ho.known r hmem)

/-- **A row is found at fault** where the row as it was written reads a base that has no version. -/
theorem Row.readsFaults (ha : Apart known) (h : v.Listed known names)
    (ho : ∀ o ∈ ops, o.Raw known) (hrow : Row v ops ops' v') (reached : List String)
    (out : Table Blocks.Names) (label : String) :
    ((Blocks.readsFaults reached out label names ops').1 = [] ↔
        ReadsFrom (fun n => v.contains n = true) ops) ∧
      v'.Listed known (Blocks.readsFaults reached out label names ops').2 := by
  induction hrow generalizing names with
  | nil => simp [Blocks.readsFaults, ReadsFrom, h]
  | @cons v u v' o o' ops ops' ht _ ih =>
    obtain ⟨hfaults, hlisted⟩ := ih (ht.listed ha h (ho o (by simp)))
      fun x hx => ho x (List.mem_cons_of_mem _ hx)
    rw [Blocks.readsFaults]
    refine ⟨?_, hlisted⟩
    rw [List.append_eq_nil_iff, ht.readFaults_eq_nil h (ho o (by simp)), hfaults, ReadsFrom]
    simp only [ht.contains]

end Versions

open Versions

/-! ## Merges -/

/-- **Merges are never at fault**, and after them the versions of the block are known. -/
theorem Merged.readsFaults {known : String → Prop} (ha : Apart known) {inc : Incoming}
    (hd : inc.Distinct) {start : Versions} {phis : List Op} (h : Merged inc inc.shared ∅ start phis)
    {reached names : List String} {out : Table Blocks.Names}
    (hout : ∀ p ∈ inc, ∃ ns, out.get? p.1 = some ns ∧ p.2.Listed known ns)
    (hnames : ∀ n, n ∈ names ↔ inc ≠ [] ∧ ∀ p ∈ inc, ∀ ns, out.get? p.1 = some ns → n ∈ ns)
    (hs : start.Sound known) {label : String} :
    (Blocks.readsFaults reached out label names phis).1 = [] ∧
      start.Listed known (Blocks.readsFaults reached out label names phis).2 := by
  have htaken : ∀ b, start.contains b = true ↔ b ∈ inc.shared.map (·.1) := fun b => by
    rw [h.contains, or_iff_right (by simp [Table.contains])]
  refine ⟨Blocks.readsFaults_fst_eq_nil.mpr fun earlier o later heq => ?_, fun b w hw => ?_,
    fun b hb hmem => ?_⟩
  · have ho : o ∈ phis := by simp [heq]
    obtain ⟨b, w, rfl, -, -⟩ := h.exists_of_mem (Incoming.nodup_shared inc) ho
    refine Blocks.readFaults_of_phi.mpr fun l r hr _ => ?_
    obtain ⟨v, hv⟩ := Incoming.mem_versions hr
    rw [hd.get?_versions hv] at hr
    obtain ⟨ns, hns, hlisted⟩ := hout (l, v) hv
    exact ⟨ns, hns, hlisted.name_mem b r hr⟩
  · have hb := (htaken b).mp (Table.contains_of_get? hw)
    obtain ⟨x, hx, hagree⟩ := h.agree_or_merge (Incoming.nodup_shared inc) hb
    obtain rfl := Option.some.inj (hx.symm.trans hw)
    rw [Blocks.mem_readsFaults_snd, hnames]
    rcases hagree with hagree | hphi
    · obtain ⟨⟨c, r⟩, hr, rfl⟩ := List.mem_map.mp hb
      obtain ⟨⟨q, hq, -⟩, hall⟩ := Incoming.shared_spec hr
      refine .inl ⟨List.ne_nil_of_mem hq, fun p hp ns hns => ?_⟩
      obtain ⟨ns', hns', hlisted⟩ := hout p hp
      obtain rfl := Option.some.inj (hns.symm.trans hns')
      obtain ⟨u, hu⟩ := Table.contains_iff.mp (hall p hp)
      rw [← hagree p hp u hu]
      exact hlisted.name_mem c u hu
    · exact .inr (List.mem_map.mpr ⟨x, List.mem_flatMap.mpr ⟨_, hphi, by simp [Op.writes,
        Instr.target?]⟩, rfl⟩)
  · rw [Blocks.mem_readsFaults_snd, hnames] at hmem
    rcases hmem with ⟨hne, hmem⟩ | hmem
    · obtain ⟨r, hr⟩ := Incoming.mem_shared hne fun p hp => by
        obtain ⟨ns, hns, hlisted⟩ := hout p hp
        exact hlisted.contains b hb (hmem p hp ns hns)
      exact (htaken b).mpr (List.mem_map.mpr ⟨_, hr, rfl⟩)
    · obtain ⟨x, hx, hname⟩ := List.mem_map.mp hmem
      obtain ⟨o, ho, hx⟩ := List.mem_flatMap.mp hx
      obtain ⟨c, w, rfl, -, hw⟩ := h.exists_of_mem (Incoming.nodup_shared inc) ho
      obtain rfl : x = w := by simpa [Op.writes, Instr.target?] using hx
      obtain ⟨hc, -, hv⟩ := hs c x hw
      -- a name in use that a merge writes is its own base
      rw [hname] at hv
      rw [hv.eq_of_known ha hc hb]
      exact Table.contains_of_get? hw

/-! ## Bodies -/

namespace Blocks

variable {bs bs' : Blocks} {params : List String} {out : Table Versions}

/-- Merges lead nowhere. -/
theorem leads_of_isMerge {phis : List Op} (h : ∀ o ∈ phis, o.instr.isMerge = true) :
    ∀ x ∈ phis.map Op.leads, x = none := by
  rw [List.forall_mem_map]
  intro o ho
  have := h o ho
  rw [Op.leads_eq_none]
  cases hi : o.instr <;> simp_all [Instr.isMerge, Instr.isTerminator]

namespace Converted

variable (h : Converted bs bs' params out)

include h

/-- A converted block ends as the block did. -/
theorem ending {l : String} {b : Block} (hb : bs.get? l = some b) : ∃ b', bs'.get? l = some b' ∧
    b'.ending = b.ending ∧ (b'.EndsOnce ↔ b.EndsOnce) := by
  obtain ⟨start, phis, ops, atEnd, hget, hphi, hrow, -⟩ := h.block l b hb
  obtain ⟨hlast, honce⟩ := getLast?_join_append (l := ops.map Op.leads) (leads_of_isMerge hphi)
  have hleads : ops.map Op.leads = b.ops.map Op.leads := hrow.map_leads
  refine ⟨_, hget, ?_, ?_⟩
  · rw [Block.ending, Block.ending, List.map_append, hlast, hleads]
  · rw [Block.endsOnce_iff, Block.endsOnce_iff, List.map_append, honce, hleads]

/-- **Conversion leaves the graph as it is.** -/
theorem sameGraph : SameGraph bs bs' where
  contains := h.labels
  successors l := by
    cases hb : bs.get? l with
    | none =>
      have hb' : bs'.get? l = none := by
        rw [← Table.contains_eq_false, h.labels, Table.contains_eq_false, hb]
      rw [successors, successors, hb, hb']
    | some b =>
      obtain ⟨b', hb', hend, -⟩ := h.ending hb
      rw [successors_of_get? hb, successors_of_get? hb', Block.successors_eq, Block.successors_eq,
        hend]

/-- **Conversion leaves the shape as it is.** -/
theorem wellShaped_iff : bs'.WellShaped ↔ bs.WellShaped := by
  have back : ∀ {l b'}, bs'.get? l = some b' → ∃ b, bs.get? l = some b ∧ b'.ending = b.ending ∧
      (b'.EndsOnce ↔ b.EndsOnce) := by
    intro l b' hb'
    obtain ⟨b, hb⟩ := Table.contains_iff.mp ((h.labels l).symm.trans (Table.contains_of_get? hb'))
    obtain ⟨c, hc, hend⟩ := h.ending hb
    obtain rfl := Option.some.inj (hc.symm.trans hb')
    exact ⟨b, hb, hend⟩
  constructor
  · intro hw
    refine ⟨fun l hl => (h.labels l).symm.trans (hw.fixed l hl), fun l b hb => ?_,
      fun l b hb hl => ?_⟩
    · obtain ⟨b', hb', -, honce⟩ := h.ending hb
      exact honce.mp (hw.once l b' hb')
    · obtain ⟨b', hb', hend, -⟩ := h.ending hb
      rw [← Block.isSome_ending, ← hend, Block.isSome_ending]
      exact hw.ends l b' hb' hl
  · intro hw
    refine ⟨fun l hl => (h.labels l).trans (hw.fixed l hl), fun l b' hb' => ?_,
      fun l b' hb' hl => ?_⟩
    · obtain ⟨b, hb, -, honce⟩ := back hb'
      exact honce.mpr (hw.once l b hb)
    · obtain ⟨b, hb, hend, -⟩ := back hb'
      rw [← Block.isSome_ending, hend, Block.isSome_ending]
      exact hw.ends l b hb hl

/-! ## Reads, block by block -/

/-- **One block, its predecessors checked**: it is at fault where it reads a name that is not
certain, and the versions it ends with are known. -/
theorem readsFaults_opsAt (hc : bs.Convertible params) {l : String} (hl : bs.Reachable l)
    {names : Table Names} (hpred : ∀ p, bs.Reachable p → bs.Edge p l → ∃ v ns,
      out.get? p = some v ∧ names.get? p = some ns ∧ v.Listed (bs.Mentions params) ns)
    {known : Names} (hknown : known = if l = entryLabel then params else
      bs'.knownAtStart bs.reversePostOrder names l) :
    ((readsFaults bs.reversePostOrder names l known (bs'.opsAt l)).1 = [] ↔
        bs.ReadsCertain params l) ∧
      ∃ v, out.get? l = some v ∧ v.Listed (bs.Mentions params)
        (readsFaults bs.reversePostOrder names l known (bs'.opsAt l)).2 := by
  obtain ⟨start, phis, ops, atEnd, hops, -, hrow, hout, hs⟩ := h.of_reachable hl
  have hsound : start.Sound (bs.Mentions params) := sound_start h.sound hl.contains hs
  have hphis : (readsFaults bs.reversePostOrder names l known phis).1 = [] ∧
      start.Listed (bs.Mentions params) (readsFaults bs.reversePostOrder names l known phis).2 := by
    cases hs with
    | entry =>
      rw [hknown, if_pos rfl]
      refine ⟨rfl, fun b w hw => ?_, fun b _ hmem => contains_seed.mpr hmem⟩
      rw [get?_seed] at hw
      split at hw
      · obtain rfl := Option.some.inj hw
        exact ‹b ∈ params›
      · cases hw
    | merge hne hm =>
      rw [if_neg hne] at hknown
      have hmem : ∀ {p v}, (p, v) ∈ bs.incoming out l ↔
          (bs.Reachable p ∧ bs.Edge p l) ∧ out.get? p = some v := mem_incoming hl.contains
      have hpreds : ∀ p, p ∈ bs'.predecessors l ↔ bs.Edge p l := fun p => by
        rw [mem_predecessors_iff_edge ((h.labels l).trans hl.contains), h.sameGraph.edge]
      refine hm.readsFaults hc.apart (distinct_incoming bs out l) ?_ (fun n => ?_) hsound
      · rintro ⟨p, v⟩ hp
        obtain ⟨⟨hpr, e⟩, hv⟩ := hmem.mp hp
        obtain ⟨w, ns, hw, hns, hlisted⟩ := hpred p hpr e
        obtain rfl := Option.some.inj (hv.symm.trans hw)
        exact ⟨ns, hns, hlisted⟩
      · rw [hknown, mem_knownAtStart]
        simp only [hpreds, mem_reversePostOrder]
        constructor
        · rintro ⟨⟨p, e, hpr, -⟩, hall⟩
          obtain ⟨v, _, hv, -⟩ := hpred p hpr e
          refine ⟨List.ne_nil_of_mem (hmem.mpr ⟨⟨hpr, e⟩, hv⟩), fun q hq ns hns => ?_⟩
          obtain ⟨⟨hqr, e⟩, -⟩ := hmem.mp hq
          exact hall q.1 e hqr ns hns
        · rintro ⟨hne, hall⟩
          refine ⟨?_, fun q e hqr ns hns => ?_⟩
          · obtain ⟨⟨p, v⟩, hp⟩ := List.exists_mem_of_ne_nil _ hne
            obtain ⟨⟨hpr, e⟩, -⟩ := hmem.mp hp
            obtain ⟨_, ns, -, hns, -⟩ := hpred p hpr e
            exact ⟨p, e, hpr, Table.contains_of_get? hns⟩
          · obtain ⟨v, _, hv, -⟩ := hpred q hqr e
            exact hall (q, v) (hmem.mpr ⟨⟨hqr, e⟩, hv⟩) ns hns
  obtain ⟨hfaults, hlisted⟩ := hrow.readsFaults hc.apart hphis.2 hc.raw_opsAt
    bs.reversePostOrder names l
  rw [hops, readsFaults_append, hphis.1, List.nil_append]
  refine ⟨?_, atEnd, hout, hlisted⟩
  simp only [hfaults, h.contains_start_iff hc.acyclic hl hs]
  exact Iff.rfl

/-- **The converted body is at fault** where the body as it was written reads a name that is not
certain. -/
theorem useFaults_eq_nil (hc : bs.Convertible params) :
    bs'.useFaults params bs'.reversePostOrder ∅ bs'.reversePostOrder = [] ↔
      ∀ l, bs.Reachable l → bs.ReadsCertain params l := by
  rw [Blocks.useFaults_eq_nil (h.sameGraph.acyclic hc.acyclic)
    (fun l ns => ∃ v, out.get? l = some v ∧ v.Listed (bs.Mentions params) ns)
    (bs.ReadsCertain params)]
  · simp only [h.sameGraph.reachable]
  · intro l names hl hpred known hknown
    simp only [h.sameGraph.reachable, h.sameGraph.edge, h.sameGraph.reversePostOrder] at *
    refine h.readsFaults_opsAt hc hl (fun p hp e => ?_) hknown
    obtain ⟨ns, hns, v, hv, hlisted⟩ := hpred p hp e
    exact ⟨v, ns, hv, hns, hlisted⟩

end Converted

theorem names_allWrites (bs : Blocks) :
    bs.allWrites.map (·.2.name) = bs.keys.flatMap bs.namesAt := by
  rw [allWrites, Table.keys, List.map_flatMap, List.flatMap_map]
  refine List.flatMap_congr fun e he => ?_
  rw [namesAt, opsAt_of_get? (Table.mem_entries.mp he), List.map_flatMap, List.map_flatMap]
  simp only [List.map_map]
  rfl

/-- **What conversion makes passes the checks** if it was made of a body that was well shaped and
assigned everything it read. -/
theorem Converted.violations_eq_nil {out : Table Versions} (h : Converted bs bs' params out)
    (hc : bs.Convertible params) (hw : bs.WellShaped) (hd : bs.DefinitelyAssigned params) {b : Body}
    (hb : b.blocks = bs') : b.violations params = [] := by
  have hshape := (Blocks.wellShaped_iff (h.sameGraph.closed hc.closed)).mp (h.wellShaped_iff.mpr hw)
  have hnames : rewritten params bs'.allWrites = [] := by
    rw [rewritten_eq_nil, names_allWrites]
    exact ⟨h.nodup, h.notParam⟩
  rw [Body.violations_eq_nil, hb]
  exact ⟨⟨hshape, hnames⟩, (h.useFaults_eq_nil hc).mpr (definitelyAssigned_iff.mp hd)⟩

end Blocks

open Blocks

/-- **Conversion and the checks agree on definite assignment.**  All names a converted body writes,
within reach or not, differ from each other and from the parameters; and it passes the checks if and
only if the body as it was written is well shaped and assigns everything it reads. -/
theorem ssa_violations {b : Body} {params : List String} (hc : b.blocks.Convertible params) :
    ∃ b' changed, (Pass.ssa params).run b = .ok (b', changed) ∧
      (b'.blocks.allWrites.map (·.2.name)).Nodup ∧
      (∀ w ∈ b'.blocks.allWrites, w.2.name ∉ params) ∧
      (b'.violations params = [] ↔
        b.blocks.WellShaped ∧ b.blocks.DefinitelyAssigned params) := by
  obtain ⟨bs', changed, out, hrun, h⟩ := toSsa_eq_ok hc
  have hnodup : (bs'.allWrites.map (·.2.name)).Nodup := by
    rw [names_allWrites]
    exact h.nodup
  have hnew : ∀ n ∈ bs'.allWrites.map (·.2.name), n ∉ params := by
    rw [names_allWrites]
    exact h.notParam
  refine ⟨{ b with blocks := bs' }, changed, ?_, hnodup,
    fun w hw => hnew _ (List.mem_map_of_mem hw), ?_⟩
  · simp only [Pass.ssa, hrun]
    rfl
  · have hrewritten : rewritten params bs'.allWrites = [] := rewritten_eq_nil.mpr ⟨hnodup, hnew⟩
    have hassigned : bs'.useFaults params bs'.reversePostOrder ∅ bs'.reversePostOrder = [] ↔
        b.blocks.DefinitelyAssigned params :=
      (h.useFaults_eq_nil hc).trans definitelyAssigned_iff.symm
    rw [← h.wellShaped_iff, Blocks.wellShaped_iff (h.sameGraph.closed hc.closed), ← hassigned,
      Body.violations_eq_nil, and_assoc, and_iff_right hrewritten]

/-- The diamond passes once it is converted: it is well shaped and assigns what it reads. -/
theorem diamond_violations : diamond.Convertible ["p"] ∧ ∃ b' changed,
    (Pass.ssa ["p"]).run ⟨"", .synthetic, diamond, none⟩ = .ok (b', changed) ∧
      (b'.blocks.allWrites.map (·.2.name)).Nodup ∧
      (∀ w ∈ b'.blocks.allWrites, w.2.name ∉ ["p"]) ∧
      (b'.violations ["p"] = [] ↔ diamond.WellShaped ∧ diamond.DefinitelyAssigned ["p"]) :=
  ⟨diamond_convertible,
    ssa_violations (b := ⟨"", .synthetic, diamond, none⟩) diamond_convertible⟩

end Monomorph
