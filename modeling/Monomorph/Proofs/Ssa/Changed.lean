import Monomorph.Proofs.Result
import Monomorph.Proofs.Ssa.Faults
import Monomorph.Proofs.Ssa.Verified

/-!
# Ssa/Changed — conversion says whether it changed a body, and counts no further than it writes

The word is given where a name is made and where a read is stale.  A stale read is one that changes,
and a name made is no base, so it is another than the one it replaces; a merge makes its block
longer.  **So the word is given for a block just if the block changes** (`Naming.op_changed`,
`Naming.ops_changed`, `Naming.mergeAll_changed`), and for a body just if some block does
(`Blocks.toSsa_changed`).  Nothing is asked of the body but that definitions bear the names of their
bases.

Every name that is made is written, so **no counter passes the number of definitions in the
converted body** (`Blocks.toSsa_counted`), whatever the body.  Counters only rise, so 32 bits hold
them as long as the converted body writes fewer than 2^32 registers.
-/

namespace Monomorph

/-- Renaming a target to what it is. -/
theorem Instr.mapTarget_eq_self {α : Type} {i : Instr α} {r : Renaming}
    (h : ∀ x, i.target? = some x → x.rename r = x) : i.mapTarget r = i := by
  cases i <;> simp_all [mapTarget, target?, Register.rename]

theorem Op.named_eq_self {o : Op} {n : String} (h : ∀ x, o.instr.target? = some x → x.name = n) :
    o.named n = o := by
  have hinstr : o.instr.mapTarget (.byName fun _ => n) = o.instr := by
    refine Instr.mapTarget_eq_self fun x hx => ?_
    rw [Register.rename_byName_const, ← h x hx, Register.withName_name]
  rw [named, mapInstr, hinstr]

/-! ## Reads -/

namespace Versions

variable {v : Versions} {o : Op}

theorem operand_eq_self {r : Register} (h : v.nameOf r = r.name) :
    v.operand (.register r) = .register r := by
  rw [operand]
  cases hw : v.get? r.base with
  | none => rfl
  | some w => exact if_pos ((nameOf_of_get? hw).symm.trans h)

/-- **A read is stale just if it changes.** -/
theorem stale_iff : v.stale o = true ↔ v.rewrite o ≠ o := by
  have hstale : v.stale o = true ↔ ¬ ∀ r ∈ o.reads, v.nameOf r = r.name := by
    simp [stale]
  rw [hstale, not_iff_not]
  constructor
  · intro h
    have hoperands : o.instr.map v.operand = o.instr := by
      refine Instr.map_eq_self fun a ha => ?_
      cases a with
      | register r => exact operand_eq_self (h r (Op.mem_reads_of_operand ha))
      | literal l => rfl
    have hslots : o.instr.mapSlots (.byName v.nameOf) = o.instr := by
      refine Instr.mapSlots_eq_self fun r hr => ?_
      have hname := h r (List.mem_append_right _ hr)
      cases r <;> simp_all [Register.rename, Renaming.byName, Register.name]
    rw [rewrite, Op.mapInstr, hoperands, hslots]
  · intro h
    have hnames := names_reads_rewrite v o
    rw [h] at hnames
    exact fun r hr => (List.map_inj_left.mp hnames r hr).symm

end Versions

/-! ## Rows -/

namespace Naming

variable {s : Naming} {v : Versions} {o : Op} {ops : List Op}

/-- A name that is made is no base. -/
theorem fresh_ne (s : Naming) (b : String) : (s.fresh b).1 ≠ b := by
  intro h
  have hlength := congrArg String.length h
  have hdollar : "$".length = 1 := rfl
  rw [fresh_eq, String.length_append, String.length_append] at hlength
  omega

/-- **A definition is named anew just if the word is given.** -/
theorem define_changed {r : Register} (hr : r.name = r.base) :
    (s.define r).2.changed = true ↔ s.changed = true ∨ (s.define r).1.name ≠ r.name := by
  by_cases hd : r.base ∈ s.defined
  · rw [define_of_mem hd, Register.name_withName, hr]
    exact ⟨fun _ => .inr (s.fresh_ne r.base), fun _ => rfl⟩
  · rw [define_of_notMem hd]
    simp

theorem op_changed (h : ∀ r ∈ o.writes, r.name = r.base) :
    (s.op v o).2.1.changed = true ↔ s.changed = true ∨ (s.op v o).1 ≠ o := by
  have hrw := v.target?_rewrite o
  cases ht : o.instr.target? with
  | none =>
    rw [s.op_of_none v ht, ← Versions.stale_iff]
    exact Bool.or_eq_true_iff
  | some r =>
    set s' : Naming := { s with changed := s.changed || v.stale o } with hs'
    have hflag : s'.changed = true ↔ s.changed = true ∨ v.rewrite o ≠ o := by
      rw [← Versions.stale_iff]
      exact Bool.or_eq_true_iff
    have hbase : r.name = r.base := h r (by rw [Op.writes, ht]; exact List.mem_cons_self)
    rw [s.op_of_some v ht (rfl : s'.define r = _), define_changed hbase, hflag,
      or_assoc, or_congr_right]
    by_cases hname : (s'.define r).1.name = r.name
    · -- the target stays, so the reads alone decide
      have hself : (v.rewrite o).named (s'.define r).1.name = v.rewrite o :=
        Op.named_eq_self fun x hx => by
          rw [hrw, ht] at hx
          rw [← Option.some.inj hx, hname]
      rw [hself]
      simp [hname]
    · refine iff_of_true (.inr hname) fun heq => hname ?_
      have htarget := congrArg (fun o : Op => o.instr.target?) heq
      simp only [Op.target?_named, hrw, ht, Option.map_some, Option.some.injEq] at htarget
      exact (Register.name_rename_byName _ r).symm.trans (congrArg Register.name htarget)

theorem length_ops (s : Naming) (v : Versions) (ops : List Op) :
    (s.ops v ops).1.length = ops.length := by
  induction ops generalizing s v with
  | nil => rfl
  | cons o ops ih => rw [Naming.ops, List.length_cons, List.length_cons, ih]

/-- **A row changes just if the word is given.** -/
theorem ops_changed (h : ∀ o ∈ ops, ∀ r ∈ o.writes, r.name = r.base) :
    (s.ops v ops).2.1.changed = true ↔ s.changed = true ∨ (s.ops v ops).1 ≠ ops := by
  induction ops generalizing s v with
  | nil => simp [Naming.ops]
  | cons o ops ih =>
    obtain ⟨ho, hops⟩ := List.forall_mem_cons.mp h
    rw [Naming.ops, ih hops, op_changed ho, or_assoc, ne_eq, ne_eq, ne_eq, List.cons.injEq,
      not_and_or]

/-- **Merges are made just if the word is given.** -/
theorem mergeAll_changed (inc : Incoming) (l : List (String × Register)) (s : Naming)
    (v : Versions) : (s.mergeAll inc l v).2.2.changed = true ↔
      s.changed = true ∨ (s.mergeAll inc l v).2.1 ≠ [] := by
  induction l generalizing s v with
  | nil => simp [mergeAll]
  | cons e rest ih =>
    obtain ⟨b, r⟩ := e
    by_cases ha : (inc.all fun p => (p.2.get? b).all fun w => w.name = r.name) = true
    · simp only [mergeAll, mergeOne_of_agree ha]
      exact ih s _
    · simp only [mergeAll, mergeOne_of_differ ha, ih]
      exact iff_of_true (.inl rfl) (.inr (by simp))

/-! ### Counters -/

theorem count_fresh_le (s : Naming) (b c : String) : (s.fresh b).2.count c ≤ s.count c + 1 := by
  rw [count_fresh]
  split
  case isTrue hb => exact Nat.le_of_eq (by rw [hb])
  case isFalse => exact Nat.le_succ _

theorem count_define_le (s : Naming) (r : Register) (b : String) :
    (s.define r).2.count b ≤ s.count b + 1 := by
  by_cases hd : r.base ∈ s.defined
  · rw [define_of_mem hd]
    exact s.count_fresh_le r.base b
  · rw [define_of_notMem hd]
    exact Nat.le_succ _

/-- An operation counts one up at most, and nothing if it does not write. -/
theorem count_op_le (s : Naming) (v : Versions) (o : Op) (b : String) :
    (s.op v o).2.1.count b ≤ s.count b + (s.op v o).1.writes.length := by
  cases ht : o.instr.target? with
  | none =>
    rw [s.op_of_none v ht]
    exact Nat.le_add_right _ _
  | some r =>
    have hwrites : ∀ n, ((v.rewrite o).named n).writes.length = 1 := fun n => by
      rw [Op.writes, Op.target?_named, v.target?_rewrite, ht]
      rfl
    rw [s.op_of_some v ht rfl, hwrites]
    exact count_define_le _ r b

theorem count_ops_le (s : Naming) (v : Versions) (ops : List Op) (b : String) :
    (s.ops v ops).2.1.count b ≤ s.count b + ((s.ops v ops).1.flatMap Op.writes).length := by
  induction ops generalizing s v with
  | nil => exact Nat.le_refl _
  | cons o ops ih =>
    have hfirst := s.count_op_le v o b
    rcases hop : s.op v o with ⟨o', t, u⟩
    have hrest := ih t u
    rcases hops : t.ops u ops with ⟨ops', t', u'⟩
    simp only [hop, hops, Naming.ops, List.flatMap_cons, List.length_append] at hfirst hrest ⊢
    omega

/-- Merging counts one up at most for each merge it makes. -/
theorem count_mergeAll_le (inc : Incoming) (l : List (String × Register)) (s : Naming)
    (v : Versions) (b : String) : (s.mergeAll inc l v).2.2.count b ≤
      s.count b + ((s.mergeAll inc l v).2.1.flatMap Op.writes).length := by
  induction l generalizing s v with
  | nil => exact Nat.le_refl _
  | cons e rest ih =>
    obtain ⟨c, r⟩ := e
    by_cases ha : (inc.all fun p => (p.2.get? c).all fun w => w.name = r.name) = true
    · simp only [mergeAll, mergeOne_of_agree ha]
      exact ih s _
    · have hfirst := s.count_fresh_le c b
      have hrest := ih (s.fresh c).2 (v.insert c (r.withName (s.fresh c).1))
      rcases hall : (s.fresh c).2.mergeAll inc rest (v.insert c (r.withName (s.fresh c).1)) with
        ⟨v', phis, t⟩
      simp only [hall] at hrest
      simp only [mergeAll, mergeOne_of_differ ha, hall, List.singleton_append, List.flatMap_cons,
        Op.writes, Instr.target?, Option.toList_some, List.length_cons]
      omega

end Naming

/-! ## Blocks -/

namespace Blocks

variable {bs : Blocks} {params : List String} {st st' : SsaState} {l : String}

/-- The word about what a block begins with. -/
theorem begin_changed (params : List String) (s : Naming) (inc : Incoming) (l : String) :
    (begin params s inc l).2.2.changed = true ↔
      s.changed = true ∨ (begin params s inc l).2.1 ≠ [] := by
  by_cases hl : l = entryLabel
  · simp [begin, hl]
  · rw [begin, if_neg hl, Naming.merge_eq]
    exact Naming.mergeAll_changed inc inc.shared s ∅

/-- What a block that is taken has become. -/
theorem ssaBlock_eq_ok {b : Block} (hb : st.blocks.get? l = some b)
    (h : bs.ssaBlock params bs.reversePostOrder st l = .ok st') :
    ∃ start phis s ops t atEnd, begin params st.naming (bs.arriving st.out l) l = (start, phis, s) ∧
      s.ops start b.ops = (ops, t, atEnd) ∧
      st' = ⟨st.blocks.insert l { b with ops := phis ++ ops }, st.out.insert l atEnd, t⟩ := by
  rw [ssaBlock_eq_match, hb] at h
  split at h
  · cases h
  · exact ⟨_, _, _, _, _, _, rfl, rfl, (Except.ok.inj h).symm⟩

/-- **What each block keeps holds once all are taken.** -/
theorem ssaFrom_induction {P : List String → SsaState → Prop}
    (step : ∀ {done : List String} {l : String} {b : Block} {st st' : SsaState}, P done st →
      bs.get? l = some b → l ∉ done → bs.ssaBlock params bs.reversePostOrder st l = .ok st' →
      P (done ++ [l]) st')
    {done rest : List String} (h : P done st) (hr : bs.order = done ++ rest)
    (hrun : bs.ssaFrom params bs.reversePostOrder st rest = .ok st') : P bs.order st' := by
  induction rest generalizing done st with
  | nil =>
    obtain rfl := Except.ok.inj hrun
    rwa [hr, List.append_nil]
  | cons l rest ih =>
    obtain ⟨st₁, hst₁, hrun⟩ := bind_eq_ok.mp hrun
    have hnodup := bs.nodup_order
    rw [hr] at hnodup
    have hl : l ∉ done := fun hmem =>
      (List.nodup_append.mp hnodup).2.2 l hmem l List.mem_cons_self rfl
    obtain ⟨b, hb⟩ := Table.contains_iff.mp (mem_order.mp (hr ▸ by simp : l ∈ bs.order))
    exact ih (step h hb hl hst₁) (by simp [hr]) hrun

/-- A conversion that succeeds has taken every block in turn. -/
theorem exists_of_toSsa {bs' : Blocks} {changed : Bool}
    (h : bs.toSsa params = .ok (bs', changed)) :
    ∃ st, bs.ssaFrom params bs.reversePostOrder ⟨bs, ∅, ⟨params, ∅, false⟩⟩ bs.order = .ok st ∧
      st.blocks = bs' ∧ st.naming.changed = changed := by
  rw [toSsa] at h
  split at h
  · cases h
  · obtain ⟨st, hrun, h⟩ := bind_eq_ok.mp h
    obtain ⟨hblocks, hchanged⟩ := Prod.mk.inj (Except.ok.inj h)
    exact ⟨st, hrun, hblocks, hchanged⟩

/-- What is known while blocks are taken in turn: those to come are as they were, and the word is
given if one that is done is not. -/
structure Telling (bs : Blocks) (done : List String) (st : SsaState) : Prop where
  untouched : bs.Untouched done st
  changed : st.naming.changed = true ↔ ∃ l, st.blocks.get? l ≠ bs.get? l

/-- **One more block.** -/
theorem Telling.step (hw : ∀ o ∈ bs.allOps, ∀ r ∈ o.writes, r.name = r.base) {done : List String}
    (h : bs.Telling done st) {b : Block} (hb : bs.get? l = some b) (hl : l ∉ done)
    (hst : bs.ssaBlock params bs.reversePostOrder st l = .ok st') :
    bs.Telling (done ++ [l]) st' := by
  have hst_b : st.blocks.get? l = some b := (h.untouched l hl).trans hb
  obtain ⟨start, phis, s, ops, t, atEnd, hbegin, hops, rfl⟩ := ssaBlock_eq_ok hst_b hst
  have hget : ∀ k, k ≠ l → (st.blocks.insert l { b with ops := phis ++ ops }).get? k
      = st.blocks.get? k := fun k hk => Table.get?_insert_ne _ _ hk
  have hself : (st.blocks.insert l { b with ops := phis ++ ops }).get? l
      = some { b with ops := phis ++ ops } := Table.get?_insert_self ..
  refine ⟨h.untouched.insert l _ _ _, ?_⟩
  have hs : s.changed = true ↔ st.naming.changed = true ∨ phis ≠ [] := by
    have := begin_changed params st.naming (bs.arriving st.out l) l
    rwa [hbegin] at this
  have ht : t.changed = true ↔ s.changed = true ∨ ops ≠ b.ops := by
    have := Naming.ops_changed (s := s) (v := start)
      fun o ho => hw o (mem_allOps.mpr ⟨l, b, hb, ho⟩)
    rwa [hops] at this
  -- a merge makes the block longer
  have hlength : ops.length = b.ops.length := by
    have := s.length_ops start b.ops
    rwa [hops] at this
  have hblock : ({ b with ops := phis ++ ops } : Block) = b ↔ phis = [] ∧ ops = b.ops := by
    refine ⟨fun heq => ?_, fun ⟨hp, ho⟩ => by rw [hp, ho, List.nil_append]⟩
    have heq : phis ++ ops = b.ops := congrArg Block.ops heq
    obtain rfl : phis = [] := by
      have := congrArg List.length heq
      rw [List.length_append] at this
      exact List.length_eq_zero_iff.mp (by omega)
    exact ⟨rfl, heq⟩
  rw [ht, hs, h.changed]
  constructor
  · rintro ((⟨k, hk⟩ | hphis) | hops')
    · have hkl : k ≠ l := fun heq => hk (heq ▸ hst_b.trans hb.symm)
      exact ⟨k, by rwa [hget k hkl]⟩
    · refine ⟨l, fun heq => hphis (hblock.mp (Option.some.inj ?_)).1⟩
      exact hself.symm.trans (heq.trans hb)
    · refine ⟨l, fun heq => hops' (hblock.mp (Option.some.inj ?_)).2⟩
      exact hself.symm.trans (heq.trans hb)
  · rintro ⟨k, hk⟩
    by_cases hkl : k = l
    · subst hkl
      by_contra hnone
      obtain ⟨hnone, hrow⟩ := not_or.mp hnone
      obtain ⟨-, hphis⟩ := not_or.mp hnone
      refine hk ?_
      rw [hself, hblock.mpr ⟨not_not.mp hphis, not_not.mp hrow⟩, hb]
    · exact .inl (.inl ⟨k, by rwa [hget k hkl] at hk⟩)

/-- **Conversion says that it changed something just if it did.** -/
theorem toSsa_changed (hw : ∀ o ∈ bs.allOps, ∀ r ∈ o.writes, r.name = r.base) {bs' : Blocks}
    {changed : Bool} (h : bs.toSsa params = .ok (bs', changed)) : changed = true ↔ bs' ≠ bs := by
  obtain ⟨st, hrun, rfl, rfl⟩ := exists_of_toSsa h
  have hstart : bs.Telling [] ⟨bs, ∅, ⟨params, ∅, false⟩⟩ :=
    ⟨fun _ _ => rfl, by simp⟩
  have htold := ssaFrom_induction (fun h hb hl hst => h.step hw hb hl hst) hstart
    (List.nil_append _).symm hrun
  rw [htold.changed, ne_eq, ← not_forall_not, not_iff_not]
  simp only [not_not]
  exact ⟨Table.ext_get?, fun heq l => by rw [heq]⟩

/-! ### Counters -/

/-- What is known of the counters while blocks are taken in turn: none passes the number of
definitions in the blocks that are done. -/
structure Counted (bs : Blocks) (done : List String) (st : SsaState) : Prop
    extends bs.Taking done st where
  untouched : bs.Untouched done st
  count : ∀ base, st.naming.count base ≤ (done.flatMap (namesAt st.blocks)).length

theorem count_begin_le (params : List String) (s : Naming) (inc : Incoming) (l base : String) :
    (begin params s inc l).2.2.count base ≤
      s.count base + ((begin params s inc l).2.1.flatMap Op.writes).length := by
  by_cases hl : l = entryLabel
  · rw [begin, if_pos hl]
    exact Nat.le_refl _
  · rw [begin, if_neg hl, Naming.merge_eq]
    exact Naming.count_mergeAll_le inc inc.shared s ∅ base

/-- **One more block** counts no further than it writes. -/
theorem Counted.step {done : List String} (h : bs.Counted done st) {b : Block}
    (hb : bs.get? l = some b) (hl : l ∉ done)
    (hst : bs.ssaBlock params bs.reversePostOrder st l = .ok st') :
    bs.Counted (done ++ [l]) st' := by
  obtain ⟨start, phis, s, ops, t, atEnd, hbegin, hops, rfl⟩ :=
    ssaBlock_eq_ok ((h.untouched l hl).trans hb) hst
  refine ⟨h.toTaking.insert (Table.contains_of_get? hb), h.untouched.insert l _ _ _,
    fun base => ?_⟩
  have hphis := count_begin_le params st.naming (bs.arriving st.out l) l base
  have hrow := s.count_ops_le start b.ops base
  rw [hbegin] at hphis
  rw [hops] at hrow
  have hdone := h.count base
  rw [List.flatMap_append, List.flatMap_singleton, List.length_append,
    flatMap_namesAt_insert hl, namesAt_insert_self, List.length_map, List.flatMap_append,
    List.length_append]
  simp only at hphis hrow ⊢
  omega

/-- **A conversion makes no more names for a base than the converted body has definitions.** -/
theorem toSsa_counted {bs' : Blocks} {changed : Bool} (h : bs.toSsa params = .ok (bs', changed)) :
    ∃ st, bs.ssaFrom params bs.reversePostOrder ⟨bs, ∅, ⟨params, ∅, false⟩⟩ bs.order = .ok st ∧
      st.blocks = bs' ∧ ∀ base, st.naming.count base ≤ bs'.allWrites.length := by
  obtain ⟨st, hrun, rfl, -⟩ := exists_of_toSsa h
  have hstart : bs.Counted [] ⟨bs, ∅, ⟨params, ∅, false⟩⟩ :=
    ⟨bs.taking_nil _, fun _ _ => rfl, fun _ => Nat.le_refl _⟩
  have hcounted := ssaFrom_induction (fun h hb hl hst => h.step hb hl hst) hstart
    (List.nil_append _).symm hrun
  -- every block is taken once, so what they write is what the body writes
  have hnames : (bs.order.flatMap st.blocks.namesAt).Perm
      (st.blocks.allWrites.map (·.2.name)) := by
    rw [names_allWrites, Table.keys_eq_of_contains hcounted.labels]
    exact bs.order_perm_keys.flatMap_right _
  have hlength := hnames.length_eq.trans (List.length_map _)
  exact ⟨st, hrun, rfl, fun base => hlength ▸ hcounted.count base⟩

end Blocks

end Monomorph
