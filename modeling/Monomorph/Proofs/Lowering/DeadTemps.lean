import Monomorph.Body.DeadTemps
import Monomorph.Proofs.Lowering.Trimming

/-!
# Lowering/DeadTemps — what nobody reads is not missed

A sweep drops operations that only write a temporary, where no operation reads it.  Stores then
agree on every name that is read (`Alike`), and that is all an event sees.  **Everything left does
what it did** (`steps_filter`), reads what it read and finds it assigned (`ReadsFrom.filter`); so a
sweep may be followed by another, and the last one is as good as the first.
-/

namespace Monomorph

/-! ## Rows with operations left out -/

/-- Stores that agree on some names, after the same acting events. -/
structure Alike {V : Type} (p : String → Prop) (s s' : Running V) : Prop where
  store : ∀ n, p n → s'.store n = s.store n
  past : acting s'.past = acting s.past

namespace Alike

variable {V : Type} {m : Meaning V} {p : String → Prop} {s s' : Running V} {o : Op} {ops : List Op}

/-- An operation that reads names agreed on. -/
theorem step (hm : m.Lawful) (h : Alike p s s') (ho : o.instr.isMerge = false)
    (hr : ∀ r ∈ o.reads, p r.name) (origin : Option String) :
    Alike p (m.step origin s o) (m.step origin s' o) := by
  have hevent : m.event s'.store o = m.event s.store o :=
    m.event_congr fun r hmem => h.store r.name (hr r hmem)
  rw [m.step_event ho, m.step_event ho, hevent, hm.gives _ _ _ h.past]
  refine ⟨fun n hn => ?_, ?_⟩
  · cases o.instr.target? with
    | none => exact h.store n hn
    | some r =>
      change Function.update s'.store r.name _ n = Function.update s.store r.name _ n
      by_cases hnr : n = r.name
      · rw [hnr, Function.update_self, Function.update_self]
      · rw [Function.update_of_ne hnr, Function.update_of_ne hnr]
        exact h.store n hn
  · change acting (s'.past ++ _) = acting (s.past ++ _)
    rw [acting, acting, List.filter_append, List.filter_append]
    exact congrArg (· ++ _) h.past

/-- An operation that is left out, whose temporary has a name not agreed on. -/
theorem drop (h : Alike p s s') {t : Temp} (ho : o.instr.removable? = some t) (ht : ¬ p t.name)
    (origin : Option String) : Alike p (m.step origin s o) s' := by
  have hmerge : o.instr.isMerge = false := by
    cases hi : o.instr <;> simp_all [Instr.removable?, Instr.isMerge]
  have hquiet : o.instr.acts = false := by simp [Instr.acts, ho]
  rw [m.step_event hmerge, Instr.target?_of_removable? ho]
  refine ⟨fun n hn => ?_, ?_⟩
  · have hne : n ≠ t.name := fun he => ht (he ▸ hn)
    exact (h.store n hn).trans (Function.update_of_ne hne _ _).symm
  · rw [h.past]
    simp [acting, hquiet]

/-- **A row with operations left out** that only write names nobody reads. -/
theorem steps_filter (hm : m.Lawful) {live : Op → Bool} (hops : ∀ o ∈ ops,
      o.instr.isMerge = false ∧ ∀ r ∈ o.reads, p r.name)
    (hdrop : ∀ o ∈ ops, live o = false → ∃ t, o.instr.removable? = some t ∧ ¬ p t.name)
    (origin : Option String) (h : Alike p s s') :
    Alike p (m.steps origin s ops) (m.steps origin s' (ops.filter live)) := by
  induction ops generalizing s s' with
  | nil => exact h
  | cons o ops ih =>
    obtain ⟨ho, hrest⟩ := List.forall_mem_cons.mp hops
    obtain ⟨hd, hdrest⟩ := List.forall_mem_cons.mp hdrop
    cases hl : live o with
    | true =>
      rw [List.filter_cons_of_pos hl]
      exact ih hrest hdrest (h.step hm ho.1 ho.2 origin)
    | false =>
      obtain ⟨t, ht, hp⟩ := hd hl
      rw [List.filter_cons_of_neg (by rw [hl]; exact Bool.false_ne_true)]
      exact ih hrest hdrest (h.drop ht hp origin)

end Alike

/-- **What is left of a row reads what is known**, if what is dropped assigns nothing that is
read. -/
theorem ReadsFrom.filter {p known known' : String → Prop} {ops : List Op} {live : Op → Bool}
    (hk : ∀ n, p n → known n → known' n) (hr : ∀ o ∈ ops, ∀ r ∈ o.reads, p r.base)
    (hd : ∀ o ∈ ops, live o = false → ∀ n ∈ o.assigns, ¬ p n) (h : ReadsFrom known ops) :
    ReadsFrom known' (ops.filter live) := by
  induction ops generalizing known known' with
  | nil => trivial
  | cons o ops ih =>
    obtain ⟨ho, hops⟩ := h
    obtain ⟨hro, hrest⟩ := List.forall_mem_cons.mp hr
    obtain ⟨hdo, hdrest⟩ := List.forall_mem_cons.mp hd
    cases hl : live o with
    | true =>
      rw [List.filter_cons_of_pos hl]
      refine ⟨fun r hmem => hk _ (hro r hmem) (ho r hmem), ih (fun n hp => ?_) hrest hdrest hops⟩
      exact Or.imp_left (hk n hp)
    | false =>
      rw [List.filter_cons_of_neg (by rw [hl]; exact Bool.false_ne_true)]
      refine ih (fun n hp hn => ?_) hrest hdrest hops
      exact hk n hp (hn.resolve_right fun ha => hdo hl n ha hp)

/-- Whether an operation reads a temporary of a name. -/
def Op.ReadsTemp (o : Op) (n : String) : Prop :=
  ∃ r ∈ o.reads, r.isTemp = true ∧ r.name = n

namespace Blocks

variable {bs : Blocks} {params : List String}

/-! ## One sweep -/

/-- A name some operation reads. -/
def ReadsName (bs : Blocks) (n : String) : Prop :=
  ∃ o ∈ bs.allOps, ∃ r ∈ o.reads, r.name = n

theorem mem_tempsRead {n : String} : n ∈ bs.tempsRead ↔ ∃ o ∈ bs.allOps, o.ReadsTemp n := by
  simp only [tempsRead, allOps, Op.ReadsTemp, List.mem_flatMap, List.mem_map, List.mem_filter]
  grind

theorem isLive_of_acts {read : List String} {o : Op} (h : o.instr.acts = true) :
    isLive read o = true := by
  rw [isLive, Option.isNone_iff_eq_none.mp h]

/-- **What is dead** only writes a temporary, of a name that is none of those given. -/
theorem exists_of_isLive_eq_false {read : List String} {o : Op} (h : isLive read o = false) :
    ∃ t, o.instr.removable? = some t ∧ t.name ∉ read := by
  rw [isLive] at h
  split at h
  · exact ⟨_, ‹_›, of_decide_eq_false h⟩
  · cases h

/-- **What a sweep drops** only writes a temporary, whose name is not read. -/
theorem Lowerable.dropped (h : bs.Lowerable params) {o : Op} (ho : o ∈ bs.allOps)
    (hl : isLive bs.tempsRead o = false) :
    ∃ t, o.instr.removable? = some t ∧ ¬ bs.ReadsName t.name := by
  obtain ⟨t, ht, hread⟩ := exists_of_isLive_eq_false hl
  refine ⟨t, ht, ?_⟩
  rintro ⟨x, hx, r, hr, hname⟩
  have hwrite : Register.temp t ∈ o.reads ++ o.writes :=
    List.mem_append_right _ (by simp [Op.writes_of_removable? ht])
  cases r with
  | temp s => exact hread (mem_tempsRead.mpr ⟨x, hx, _, hr, rfl, hname⟩)
  | var v => exact h.kinds v t ⟨x, hx, List.mem_append_left _ hr⟩ ⟨o, ho, hwrite⟩ hname

/-- What a sweep drops assigns nothing that is read. -/
theorem Lowerable.not_readsName (h : bs.Lowerable params) {o : Op} (ho : o ∈ bs.allOps)
    (hl : isLive bs.tempsRead o = false) : ∀ n ∈ o.assigns, ¬ bs.ReadsName n := by
  obtain ⟨t, ht, hread⟩ := h.dropped ho hl
  have hw := Op.writes_of_removable? ht
  have hname : t.name = t.base :=
    h.name_eq_base (r := .temp t) ⟨o, ho, List.mem_append_right _ (by simp [hw])⟩
  intro n hn
  rw [Op.assigns, hw, List.map_singleton, List.mem_singleton] at hn
  rw [hn, Register.base, ← hname]
  exact hread

theorem Lowerable.readsName_base (h : bs.Lowerable params) {o : Op} (ho : o ∈ bs.allOps) :
    ∀ r ∈ o.reads, bs.ReadsName r.base := fun r hr =>
  ⟨o, ho, r, hr, h.name_eq_base ⟨o, ho, List.mem_append_left _ hr⟩⟩

theorem opsAt_sweep (bs : Blocks) (l : String) :
    bs.sweep.opsAt l = (bs.opsAt l).filter (isLive bs.tempsRead) :=
  opsAt_mapOps (f := fun ops => ops.filter (isLive bs.tempsRead)) rfl l

theorem allOps_sweep (bs : Blocks) : bs.sweep.allOps = bs.allOps.filter (isLive bs.tempsRead) :=
  bs.allOps_mapOps_filter _

theorem mem_allOps_of_sweep {o : Op} (h : o ∈ bs.sweep.allOps) : o ∈ bs.allOps :=
  (List.mem_filter.mp (bs.allOps_sweep ▸ h)).1

theorem Settled.sameGraph_sweep (h : bs.Settled) : SameGraph bs bs.sweep := by
  refine sameGraph_mapOps fun l b hb => ?_
  rw [Block.ending_eq, Block.ending_eq,
    (h l b hb).terminator?_filter fun o _ ho => isLive_of_acts ho]

theorem Settled.sweep (h : bs.Settled) : bs.sweep.Settled := by
  intro l b' hb'
  rw [Blocks.sweep, get?_mapOps, Option.map_eq_some_iff] at hb'
  obtain ⟨b, hb, rfl⟩ := hb'
  exact (h l b hb).filter fun o _ ho => isLive_of_acts ho

theorem trims_sweep (bs : Blocks) : Trims bs bs.sweep where
  sublist l := by
    rw [sketch, sketch, opsAt_sweep]
    exact (List.filter_sublist.filter _).map _
  acting l := by
    rw [sketch, sketch, opsAt_sweep, List.filter_map, List.filter_map, List.filter_filter,
      List.filter_filter, List.filter_filter]
    refine congrArg _ (List.filter_congr fun o _ => ?_)
    by_cases ha : o.instr.acts = true
    · simp [Op.acts_bare, ha, isLive_of_acts ha]
    · simp [Op.acts_bare, ha]

/-- A name that is read is assigned where it was. -/
theorem Lowerable.mem_assignedAt_sweep (h : bs.Lowerable params) {n : String} (hn : bs.ReadsName n)
    (l : String) : n ∈ bs.sweep.assignedAt l ↔ n ∈ bs.assignedAt l := by
  rw [assignedAt, assignedAt, opsAt_sweep, List.mem_flatMap, List.mem_flatMap]
  refine exists_congr fun o => ?_
  rw [List.mem_filter, and_assoc]
  refine and_congr_right fun ho => and_iff_right_of_imp fun hmem => ?_
  have hall := mem_allOps_of_opsAt ho
  by_contra hl
  exact h.not_readsName hall (Bool.not_eq_true _ ▸ hl) n hmem hn

/-- **What is left assigns what it reads.** -/
theorem Lowerable.definitelyAssigned_sweep (h : bs.Lowerable params) (hs : bs.Settled) :
    bs.sweep.DefinitelyAssigned params := by
  have hassigned := definitelyAssigned_iff.mp h.assigned
  refine definitelyAssigned_iff.mpr fun l hl => ?_
  rw [ReadsCertain, opsAt_sweep]
  refine (hassigned l (hs.sameGraph_sweep.reachable.mp hl)).filter (p := bs.ReadsName)
    (fun n hn hc => (hs.sameGraph_sweep.certainAt (h.mem_assignedAt_sweep hn) l).mpr hc)
    (fun o ho => h.readsName_base (mem_allOps_of_opsAt ho))
    fun o ho => h.not_readsName (mem_allOps_of_opsAt ho)

/-- **A sweep does its work.** -/
theorem lowersTo_sweep (h : bs.Lowerable params) (hs : bs.Settled) :
    LowersTo params bs bs.sweep where
  lowerable := by
    refine h.of_uses hs.sameGraph_sweep ?_ ?_ (h.definitelyAssigned_sweep hs)
    · exact fun r ⟨o, ho, hr⟩ => ⟨o, mem_allOps_of_sweep ho, hr⟩
    · exact fun o ho => h.noMerge o (mem_allOps_of_sweep ho)
  settled := hs.sweep
  graph := hs.sameGraph_sweep
  trims := bs.trims_sweep
  follows m hm s := by
    have halong : ∀ way origin s s', Alike bs.ReadsName s s' →
        Alike bs.ReadsName (m.along bs origin s way) (m.along bs.sweep origin s' way) := by
      intro way
      induction way with
      | nil => exact fun _ _ _ h => h
      | cons l way ih =>
        intro origin s s' hss
        rw [Meaning.along, Meaning.along, opsAt_sweep]
        refine ih _ _ _ (hss.steps_filter hm (fun o ho => ?_) (fun o ho => ?_) origin)
        · have hall := mem_allOps_of_opsAt ho
          exact ⟨h.noMerge o hall, fun r hr => ⟨o, hall, r, hr, rfl⟩⟩
        · exact h.dropped (mem_allOps_of_opsAt ho)
    exact ⟨hs.sameGraph_sweep, rfl, fun before l _ =>
      (halong (before ++ [l]) none s s ⟨fun _ _ => rfl, rfl⟩).past⟩

/-! ## Sweep after sweep -/

/-- **Dropping dead temporaries does its work.** -/
theorem lowersTo_dropDeadTemps (h : bs.Lowerable params) (hs : bs.Settled) :
    LowersTo params bs bs.dropDeadTemps := by
  induction bs using dropDeadTemps.induct with
  | case1 bs next hlt ih =>
    have hsweep := lowersTo_sweep h hs
    rw [dropDeadTemps, if_pos hlt]
    exact hsweep.trans (ih hsweep.lowerable hsweep.settled)
  | case2 bs next hlt =>
    rw [dropDeadTemps, if_neg hlt]
    exact .refl h hs

end Blocks

end Monomorph
