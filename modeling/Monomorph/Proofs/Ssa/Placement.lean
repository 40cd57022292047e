import Monomorph.Proofs.Ssa.Verified

/-!
# Ssa/Placement — where versions meet

The version of a base name at the end of a block can be read off the converted body: it is the last
one written on the way there, and no matter which way (`Blocks.Current`).  The versions conversion
keeps are these (`Converted.current`), by way of two facts: a row hands on what it writes last
(`Row.get?_eq`), and merges write just the bases on which the predecessors disagree
(`Merged.targets`).  Since no name is written twice, versions of one name are one register
(`Converted.version_inj`), so a base that goes on without a merge has one version on every way.
Hence **a base is merged just where two of its versions meet** (`ssa_placed`).
-/

namespace Monomorph

open Versions

/-! ## The last write of a base name -/

/-- The last register of a base name that a row writes. -/
def lastWrite (ops : List Op) (n : String) : Option Register :=
  ((ops.flatMap Op.writes).filter fun w => w.base = n).getLast?

variable {ops ops' : List Op} {n : String}

theorem lastWrite_append (ops ops' : List Op) (n : String) :
    lastWrite (ops ++ ops') n = (lastWrite ops' n).or (lastWrite ops n) := by
  rw [lastWrite, List.flatMap_append, List.filter_append, List.getLast?_append]
  rfl

theorem lastWrite_eq_some {w : Register} (h : lastWrite ops n = some w) :
    w ∈ ops.flatMap Op.writes ∧ w.base = n := by
  obtain ⟨hmem, hbase⟩ := List.mem_filter.mp (List.mem_of_getLast? h)
  exact ⟨hmem, of_decide_eq_true hbase⟩

theorem lastWrite_eq_none :
    lastWrite ops n = none ↔ n ∉ (ops.flatMap Op.writes).map Register.base := by
  rw [lastWrite, List.getLast?_eq_none_iff, List.filter_eq_nil_iff, List.mem_map]
  simp

namespace Versions

variable {v u v' : Versions} {o o' : Op}

theorem Turns.get?_eq (h : Turns v o o' u) (n : String) :
    u.get? n = (lastWrite [o'] n).or (v.get? n) := by
  rcases h.writes with ⟨-, hw, rfl⟩ | ⟨r, w, -, hw, hbase, -, rfl⟩
  · simp [lastWrite, hw]
  · rw [Table.get?_insert, lastWrite, List.flatMap_singleton, hw, ← hbase]
    by_cases hn : w.base = n
    · simp [hn]
    · simp [hn, Ne.symm hn]

/-- **A row hands on what it writes last**, and otherwise what reaches it. -/
theorem Row.get?_eq (h : Row v ops ops' v') (n : String) :
    v'.get? n = (lastWrite ops' n).or (v.get? n) := by
  induction h with
  | nil => rfl
  | @cons _ _ _ _ o' _ ops' ht _ ih =>
    rw [ih, ht.get?_eq, ← Option.or_assoc, ← lastWrite_append, List.singleton_append]

end Versions

/-! ## The bases that are merged -/

/-- A merge, as an operation. -/
def mergeOp (inputs : Table Register) (target : Register) : Op :=
  ⟨.synthetic, .phi inputs target⟩

theorem writes_merges (inputs : Register → Table Register) (targets : List Register) :
    (targets.map fun w => mergeOp (inputs w) w).flatMap Op.writes = targets := by
  induction targets with
  | nil => rfl
  | cons w targets ih => exact congrArg (w :: ·) ih

/-- **Merges are of the bases on which predecessors disagree**, each once; every other base goes on
with its first version. -/
theorem Merged.targets {inc : Incoming} {l : List (String × Register)} {v v' : Versions}
    {phis : List Op} (h : Merged inc l v v' phis) (hl : (l.map (·.1)).Nodup)
    (hbase : ∀ e ∈ l, e.2.base = e.1) : ∃ targets : List Register,
      phis = targets.map (fun w => mergeOp (inc.versions w.base) w) ∧
      (targets.map Register.base).Sublist (l.map (·.1)) ∧
      (∀ w ∈ targets, v'.get? w.base = some w) ∧
      ∀ e ∈ l, (e.1 ∈ targets.map Register.base ↔
          ∃ p ∈ inc, ∃ u, p.2.get? e.1 = some u ∧ u.name ≠ e.2.name) ∧
        (e.1 ∉ targets.map Register.base → v'.get? e.1 = some e.2) := by
  induction h with
  | nil => exact ⟨[], rfl, .slnil, by simp, by simp⟩
  | @agree b r rest _ v' _ ha hr ih =>
    obtain ⟨hb, hrest⟩ := List.nodup_cons.mp hl
    obtain ⟨targets, rfl, hsub, hget, hall⟩ := ih hrest fun e he => hbase e (by simp [he])
    have hnew : b ∉ targets.map Register.base := fun hmem => hb (hsub.subset hmem)
    refine ⟨targets, rfl, hsub.cons b, hget, List.forall_mem_cons.mpr ⟨⟨?_, fun _ => ?_⟩, hall⟩⟩
    · exact iff_of_false hnew fun ⟨p, hp, u, hu, hne⟩ => hne (ha p hp u hu)
    · rw [hr.get?_of_not_mem hb, Table.get?_insert_self]
  | @merge b r w rest _ v' _ hd hw _ hr ih =>
    obtain ⟨hb, hrest⟩ := List.nodup_cons.mp hl
    obtain ⟨targets, rfl, hsub, hget, hall⟩ := ih hrest fun e he => hbase e (by simp [he])
    obtain rfl : w.base = b := hw.trans (hbase (b, r) (by simp))
    refine ⟨w :: targets, rfl, hsub.cons_cons _, List.forall_mem_cons.mpr ⟨?_, hget⟩,
      List.forall_mem_cons.mpr ⟨⟨iff_of_true (by simp) hd, fun h => by simp at h⟩, fun e he => ?_⟩⟩
    · rw [hr.get?_of_not_mem hb, Table.get?_insert_self]
    · have hne : e.1 ≠ w.base := fun heq => hb (List.mem_map.mpr ⟨e, he, heq⟩)
      simpa [hne] using hall e he

namespace Blocks

variable {bs bs' : Blocks} {params : List String} {out : Table Versions} {l p q : String}

/-! ## Versions along a way -/

/-- The version of a base name once control has been through the blocks listed: the last one
written, or the parameter. -/
def lastVersion (bs : Blocks) (params way : List String) (n : String) : Option Register :=
  (lastWrite (way.flatMap bs.opsAt) n).or
    (if n ∈ params then some (.var (.ofBase n)) else none)

/-- The version of a base name at the end of a block, whichever way control got there. -/
def Current (bs : Blocks) (params : List String) (l n : String) (r : Register) : Prop :=
  ∀ before, bs.Path before l → bs.lastVersion params (before ++ [l]) n = some r

theorem lastVersion_concat (way : List String) (l n : String) :
    bs.lastVersion params (way ++ [l]) n
      = (lastWrite (bs.opsAt l) n).or (bs.lastVersion params way n) := by
  rw [lastVersion, List.flatMap_append, List.flatMap_singleton, lastWrite_append, Option.or_assoc]
  rfl

theorem Current.unique {r s : Register} (hl : bs.Reachable l) (hr : bs.Current params l n r)
    (hs : bs.Current params l n s) : r = s := by
  obtain ⟨before, hway⟩ := hl
  exact Option.some.inj ((hr before hway).symm.trans (hs before hway))

theorem mem_allWrites {w : Register} {o : Op} (ho : o ∈ bs.opsAt l) (hw : w ∈ o.writes) :
    (l, w) ∈ bs.allWrites := by
  rw [opsAt] at ho
  split at ho
  · rename_i b hb
    exact List.mem_flatMap.mpr ⟨(l, b), Table.mem_entries.mpr hb,
      List.mem_flatMap.mpr ⟨o, ho, List.mem_map_of_mem hw⟩⟩
  · cases ho

theorem lastVersion_eq_some {way : List String} {r : Register}
    (h : bs.lastVersion params way n = some r) :
    (∃ l, (l, r) ∈ bs.allWrites) ∨ n ∈ params ∧ r = .var (.ofBase n) := by
  rw [lastVersion, Option.or_eq_some_iff] at h
  rcases h with h | ⟨-, h⟩
  · obtain ⟨hmem, -⟩ := lastWrite_eq_some h
    obtain ⟨o, ho, hw⟩ := List.mem_flatMap.mp hmem
    obtain ⟨l, -, ho⟩ := List.mem_flatMap.mp ho
    exact .inl ⟨l, mem_allWrites ho hw⟩
  · split at h
    · exact .inr ⟨‹_›, (Option.some.inj h).symm⟩
    · cases h

/-- How the merges of a block stand, each given by its inputs and its target. -/
structure Placed (bs : Blocks) (params : List String) (bs' : Blocks) (l : String)
    (merges : List (Table Register × Register)) : Prop where
  /-- No base name is merged twice, -/
  nodup : (merges.map (·.2.base)).Nodup
  /-- none at `entry`, -/
  entry : l = entryLabel → merges = []
  /-- and elsewhere those certain here of which two versions arrive. -/
  mem_iff : ∀ n, n ∈ merges.map (·.2.base) ↔ bs.CertainAt params l n ∧
    ∃ p q r s, (bs.Reachable p ∧ bs.Edge p l) ∧ (bs.Reachable q ∧ bs.Edge q l) ∧
      bs'.Current params p n r ∧ bs'.Current params q n s ∧ r.name ≠ s.name
  /-- Each predecessor within reach has its input, -/
  inputs : ∀ m ∈ merges, ∀ p, m.1.contains p = true ↔ bs.Reachable p ∧ bs.Edge p l
  /-- the version current at its end. -/
  current : ∀ m ∈ merges, ∀ p r, m.1.get? p = some r →
    r.base = m.2.base ∧ bs'.Current params p m.2.base r

/-- A block without merges to which nothing within reach leads. -/
theorem placed_nil (h : ∀ p, bs.Reachable p → ¬ bs.Edge p l) : Placed bs params bs' l [] where
  nodup := List.nodup_nil
  entry _ := rfl
  mem_iff n := iff_of_false List.not_mem_nil
    fun ⟨_, p, _, _, _, ⟨hp, e⟩, _⟩ => h p hp e
  inputs _ hm := by cases hm
  current _ hm := by cases hm

namespace Converted

variable (h : Converted bs bs' params out)

include h

/-- Every name is written once, -/
theorem nodup_allWrites : (bs'.allWrites.map (·.2.name)).Nodup := by
  rw [names_allWrites]
  exact h.nodup

/-- and no parameter's is. -/
theorem allWrites_notParam : ∀ w ∈ bs'.allWrites, w.2.name ∉ params := by
  intro w hw
  refine h.notParam w.2.name ?_
  rw [← names_allWrites]
  exact List.mem_map_of_mem hw

/-- **Versions of one name are one register**, on whatever ways they are found. -/
theorem version_inj {way way' : List String} {r s : Register}
    (hr : bs'.lastVersion params way n = some r) (hs : bs'.lastVersion params way' n = some s)
    (hname : r.name = s.name) : r = s := by
  rcases lastVersion_eq_some hr with ⟨l, hr⟩ | ⟨hn, rfl⟩ <;>
    rcases lastVersion_eq_some hs with ⟨k, hs⟩ | ⟨hn', rfl⟩
  · exact congrArg Prod.snd (List.inj_on_of_nodup_map h.nodup_allWrites hr hs hname)
  · rw [Register.name, Var.ofBase] at hname
    exact absurd (hname ▸ hn') (h.allWrites_notParam _ hr)
  · rw [Register.name, Var.ofBase] at hname
    exact absurd (hname.symm ▸ hn) (h.allWrites_notParam _ hs)
  · rfl

/-- What a block takes over from its predecessors: a base name all of them have a version of, and
the first of these. -/
theorem of_shared (hl : bs.Reachable l) {e : String × Register}
    (he : e ∈ (bs.incoming out l).shared) : e.2.base = e.1 ∧
      (∃ p v, (bs.Reachable p ∧ bs.Edge p l) ∧ out.get? p = some v ∧ v.get? e.1 = some e.2) ∧
      ∀ p, bs.Reachable p → bs.Edge p l → ∃ v u, out.get? p = some v ∧ v.get? e.1 = some u := by
  obtain ⟨⟨⟨q, v⟩, hq, hv⟩, hall⟩ := Incoming.shared_spec he
  obtain ⟨hpred, hout⟩ := (mem_incoming hl.contains).mp hq
  refine ⟨(h.sound q v hout e.1 e.2 hv).2.1, ⟨q, v, hpred, hout, hv⟩, fun p hp hedge => ?_⟩
  obtain ⟨_, _, _, w, -, -, -, hw, -⟩ := h.of_reachable hp
  obtain ⟨u, hu⟩ := Table.contains_iff.mp
    (hall (p, w) ((mem_incoming hl.contains).mpr ⟨⟨hp, hedge⟩, hw⟩))
  exact ⟨w, u, hw, hu⟩

/-- **A base on which the predecessors agree has one version**, if what they end with is current. -/
theorem current_of_agree (hl : bs.Reachable l)
    (hpred : ∀ p, bs.Reachable p → bs.Edge p l → ∀ v, out.get? p = some v → ∀ n r,
      v.get? n = some r → bs'.Current params p n r)
    {e : String × Register} (he : e ∈ (bs.incoming out l).shared)
    (hagree : ∀ p ∈ bs.incoming out l, ∀ u, p.2.get? e.1 = some u → u.name = e.2.name)
    (hp : bs.Reachable p) (hedge : bs.Edge p l) : bs'.Current params p e.1 e.2 := by
  obtain ⟨-, ⟨q, w, hq, hw, hr⟩, hevery⟩ := h.of_shared hl he
  obtain ⟨v, u, hv, hu⟩ := hevery p hp hedge
  have hname : u.name = e.2.name :=
    hagree (p, v) ((mem_incoming hl.contains).mpr ⟨⟨hp, hedge⟩, hv⟩) u hu
  obtain ⟨around, haround⟩ := hq.1
  have hother := hpred q hq.1 hq.2 w hw e.1 e.2 hr around (h.sameGraph.path haround)
  intro before hway
  have hcurrent := hpred p hp hedge v hv e.1 u hu before hway
  rw [hcurrent, h.version_inj hcurrent hother hname]

/-- **A block begins with current versions**, if its predecessors end with them. -/
theorem current_start (ha : bs.Acyclic) (hl : bs.Reachable l)
    (hpred : ∀ p, bs.Reachable p → bs.Edge p l → ∀ v, out.get? p = some v → ∀ n r,
      v.get? n = some r → bs'.Current params p n r)
    {start : Versions} {phis : List Op} (hs : bs.Starts params out l start phis) {r : Register}
    (hr : start.get? n = some r) {before : List String} (hway : bs.Path before l) :
    (lastWrite phis n).or (bs'.lastVersion params before n) = some r := by
  cases hs with
  | entry =>
    rw [get?_seed] at hr
    rcases hway.eq_nil_or_step with ⟨rfl, -⟩ | ⟨way, p, -, hp, e⟩
    · exact hr
    · exact absurd e (ha.not_edge_entry hp.reachable)
  | merge hne hm =>
    obtain ⟨way, p, rfl, hp, hedge⟩ := hway.eq_nil_or_step.resolve_left fun hnil => hne hnil.2
    obtain ⟨targets, rfl, -, hget, hall⟩ :=
      hm.targets (Incoming.nodup_shared _) fun e he => (h.of_shared hl he).1
    set merges := targets.map fun w => mergeOp ((bs.incoming out l).versions w.base) w
    cases hw : lastWrite merges n with
    | some w =>
      obtain ⟨hmem, rfl⟩ := lastWrite_eq_some hw
      rw [writes_merges] at hmem
      rw [Option.some_or, ← hr, hget w hmem]
    | none =>
      rw [lastWrite_eq_none, writes_merges] at hw
      have htaken : n ∈ (bs.incoming out l).shared.map (·.1) := by
        simpa [Table.contains] using (hm.contains n).mp (Table.contains_of_get? hr)
      obtain ⟨⟨n, first⟩, he, rfl⟩ := List.mem_map.mp htaken
      obtain ⟨hmerged, hfirst⟩ := hall _ he
      obtain rfl : first = r := Option.some.inj ((hfirst hw).symm.trans hr)
      have hagree : ∀ p ∈ bs.incoming out l, ∀ u, p.2.get? n = some u → u.name = first.name := by
        intro p hp u hu
        by_contra hdiffer
        exact hw (hmerged.mpr ⟨p, hp, u, hu, hdiffer⟩)
      rw [Option.none_or]
      exact h.current_of_agree hl hpred he hagree hp.reachable hedge way (h.sameGraph.path hp)

/-- **A block ends with current versions.** -/
theorem current (ha : bs.Acyclic) (hl : bs.Reachable l) : ∀ v, out.get? l = some v → ∀ n r,
    v.get? n = some r → bs'.Current params l n r := by
  refine ha.reachable_induction (motive := fun l => ∀ v, out.get? l = some v → ∀ n r,
    v.get? n = some r → bs'.Current params l n r) ?_ hl
  intro l hl ih v hv n r hr before hway
  obtain ⟨start, phis, ops, atEnd, hops, -, hrow, hout, hs⟩ := h.of_reachable hl
  obtain rfl := Option.some.inj (hout.symm.trans hv)
  rw [hrow.get?_eq] at hr
  rw [lastVersion_concat, hops, lastWrite_append, Option.or_assoc]
  cases hw : lastWrite ops n with
  | some w => rwa [hw] at hr
  | none =>
    rw [hw, Option.none_or] at hr
    rw [Option.none_or]
    exact h.current_start ha hl ih hs hr (h.sameGraph.path_iff.mp hway)

/-- What a predecessor ends with is what is current there. -/
theorem exists_of_current (ha : bs.Acyclic) (hl : bs.Reachable l) {e : String × Register}
    (he : e ∈ (bs.incoming out l).shared) {r : Register} (hp : bs.Reachable p ∧ bs.Edge p l)
    (hr : bs'.Current params p e.1 r) :
    ∃ v, (p, v) ∈ bs.incoming out l ∧ v.get? e.1 = some r := by
  obtain ⟨-, -, hevery⟩ := h.of_shared hl he
  obtain ⟨v, u, hv, hu⟩ := hevery p hp.1 hp.2
  obtain rfl := (h.current ha hp.1 v hv e.1 u hu).unique (h.sameGraph.reachable.mpr hp.1) hr
  exact ⟨v, (mem_incoming hl.contains).mpr ⟨hp, hv⟩, hu⟩

/-- **Predecessors disagree on a base** if and only if they end with different versions of it. -/
theorem differ_iff (ha : bs.Acyclic) (hl : bs.Reachable l) {e : String × Register}
    (he : e ∈ (bs.incoming out l).shared) :
    (∃ p ∈ bs.incoming out l, ∃ u, p.2.get? e.1 = some u ∧ u.name ≠ e.2.name) ↔
      ∃ p q r s, (bs.Reachable p ∧ bs.Edge p l) ∧ (bs.Reachable q ∧ bs.Edge q l) ∧
        bs'.Current params p e.1 r ∧ bs'.Current params q e.1 s ∧ r.name ≠ s.name := by
  constructor
  · rintro ⟨⟨p, v⟩, hp, u, hu, hdiffer⟩
    obtain ⟨hp, hv⟩ := (mem_incoming hl.contains).mp hp
    obtain ⟨-, ⟨q, w, hq, hw, hr⟩, -⟩ := h.of_shared hl he
    exact ⟨p, q, u, e.2, hp, hq, h.current ha hp.1 v hv e.1 u hu,
      h.current ha hq.1 w hw e.1 e.2 hr, hdiffer⟩
  · rintro ⟨p, q, r, s, hp, hq, hr, hs, hdiffer⟩
    obtain ⟨v, hv, hr⟩ := h.exists_of_current ha hl he hp hr
    obtain ⟨w, hw, hs⟩ := h.exists_of_current ha hl he hq hs
    by_cases hfirst : r.name = e.2.name
    · exact ⟨(q, w), hw, s, hs, fun hsame => hdiffer (hfirst.trans hsame.symm)⟩
    · exact ⟨(p, v), hv, r, hr, hfirst⟩

/-- **A merge takes from each predecessor the version current at its end.** -/
theorem current_of_input (ha : bs.Acyclic) (hl : bs.Reachable l) {r : Register}
    (hr : ((bs.incoming out l).versions n).get? p = some r) :
    (bs.Reachable p ∧ bs.Edge p l) ∧ r.base = n ∧ bs'.Current params p n r := by
  obtain ⟨v, hv⟩ := Incoming.mem_versions hr
  rw [(distinct_incoming bs out l).get?_versions hv] at hr
  obtain ⟨hp, hv⟩ := (mem_incoming hl.contains).mp hv
  exact ⟨hp, (h.sound p v hv n r hr).2.1, h.current ha hp.1 v hv n r hr⟩

/-- A merge of a base taken over has an input for each predecessor. -/
theorem contains_input (hl : bs.Reachable l) {e : String × Register}
    (he : e ∈ (bs.incoming out l).shared) (hp : bs.Reachable p ∧ bs.Edge p l) :
    ((bs.incoming out l).versions e.1).contains p = true := by
  obtain ⟨v, u, hv, hu⟩ := (h.of_shared hl he).2.2 p hp.1 hp.2
  have hmem : (p, v) ∈ bs.incoming out l := (mem_incoming hl.contains).mpr ⟨hp, hv⟩
  rw [← (distinct_incoming bs out l).get?_versions hmem] at hu
  exact Table.contains_of_get? hu

/-- **Merges stand where different versions meet**, one input for each predecessor. -/
theorem placed (hc : bs.Convertible params) (hl : bs.Reachable l) : ∃ merges ops,
    bs'.opsAt l = merges.map (fun m => mergeOp m.1 m.2) ++ ops ∧
      (∀ o ∈ ops, o.instr.isMerge = false) ∧ Placed bs params bs' l merges := by
  obtain ⟨start, phis, ops, atEnd, hops, -, hrow, -, hs⟩ := h.of_reachable hl
  have hplain : ∀ o ∈ ops, o.instr.isMerge = false :=
    hrow.noMerge fun o ho => (hc.raw_opsAt o ho).noMerge
  have hcertain := h.contains_start_iff hc.acyclic hl hs
  cases hs with
  | entry => exact ⟨[], ops, hops, hplain, placed_nil fun p hp => hc.acyclic.not_edge_entry hp⟩
  | merge hne hm =>
    set inc := bs.incoming out l
    obtain ⟨targets, rfl, hsub, -, hall⟩ :=
      hm.targets (Incoming.nodup_shared _) fun e he => (h.of_shared hl he).1
    have htaken : ∀ n, start.contains n = true ↔ n ∈ inc.shared.map (·.1) := fun n => by
      simpa [Table.contains] using hm.contains n
    have hbases : (targets.map fun w => (inc.versions w.base, w)).map (·.2.base)
        = targets.map Register.base := by
      rw [List.map_map]
      rfl
    refine ⟨targets.map fun w => (inc.versions w.base, w), ops, ?_, hplain, ?_⟩
    · rw [hops, List.map_map]
      rfl
    refine ⟨?_, fun he => absurd he hne, fun n => ?_, List.forall_mem_map.mpr fun w hw p => ?_,
      List.forall_mem_map.mpr fun w _ p r hr => (h.current_of_input hc.acyclic hl hr).2⟩
    · rw [hbases]
      exact (Incoming.nodup_shared inc).sublist hsub
    · rw [hbases, ← hcertain, htaken]
      constructor
      · intro hn
        obtain ⟨e, he, rfl⟩ := List.mem_map.mp (hsub.subset hn)
        exact ⟨List.mem_map_of_mem he, (h.differ_iff hc.acyclic hl he).mp ((hall e he).1.mp hn)⟩
      · rintro ⟨hn, hmeet⟩
        obtain ⟨e, he, rfl⟩ := List.mem_map.mp hn
        exact (hall e he).1.mpr ((h.differ_iff hc.acyclic hl he).mpr hmeet)
    · constructor
      · intro hp
        obtain ⟨r, hr⟩ := Table.contains_iff.mp hp
        exact (h.current_of_input hc.acyclic hl hr).1
      · intro hp
        obtain ⟨e, he, hbase⟩ := List.mem_map.mp (hsub.subset (List.mem_map_of_mem hw))
        exact hbase ▸ h.contains_input hl he hp

end Converted

end Blocks

/-- **Where conversion merges.**  The graph stays as it is, and every version has a name of its own,
unlike a parameter's.  In every block within reach the merges stand first: one for each base name
that is certain there and that two predecessors within reach end with different versions of, none at
`entry`.  A merge has an input for each predecessor within reach, the version current at its end. -/
theorem ssa_placed {b : Body} {params : List String} (hc : b.blocks.Convertible params) :
    ∃ b' changed, (Pass.ssa params).run b = .ok (b', changed) ∧
      Blocks.SameGraph b.blocks b'.blocks ∧
      (b'.blocks.allWrites.map (·.2.name)).Nodup ∧
      (∀ w ∈ b'.blocks.allWrites, w.2.name ∉ params) ∧
      ∀ l, b.blocks.Reachable l → ∃ merges ops,
        b'.blocks.opsAt l = merges.map (fun m => mergeOp m.1 m.2) ++ ops ∧
          (∀ o ∈ ops, o.instr.isMerge = false) ∧
          Blocks.Placed b.blocks params b'.blocks l merges := by
  obtain ⟨bs', changed, out, hrun, h⟩ := Blocks.toSsa_eq_ok hc
  refine ⟨{ b with blocks := bs' }, changed, ?_, h.sameGraph, h.nodup_allWrites,
    h.allWrites_notParam, fun l hl => h.placed hc hl⟩
  simp only [Pass.ssa, hrun]
  rfl

/-- The diamond at the block where its branches meet. -/
theorem diamond_placed : Blocks.diamond.Convertible ["p"] ∧ Blocks.diamond.Reachable returnLabel ∧
    ∃ b' changed, (Pass.ssa ["p"]).run ⟨"", .synthetic, Blocks.diamond, none⟩ = .ok (b', changed) ∧
      ∃ merges ops, b'.blocks.opsAt returnLabel = merges.map (fun m => mergeOp m.1 m.2) ++ ops ∧
        Blocks.Placed Blocks.diamond ["p"] b'.blocks returnLabel merges := by
  have hreach : Blocks.diamond.Reachable returnLabel :=
    (Blocks.Path.entry (by decide +kernel)).reachable.step
      ⟨by decide +kernel, by decide +kernel⟩
  obtain ⟨b', changed, hrun, -, -, -, hall⟩ :=
    ssa_placed (b := ⟨"", .synthetic, Blocks.diamond, none⟩) Blocks.diamond_convertible
  obtain ⟨merges, ops, hops, -, hplaced⟩ := hall returnLabel hreach
  exact ⟨Blocks.diamond_convertible, hreach, b', changed, hrun, merges, ops, hops, hplaced⟩

end Monomorph
