import Monomorph.Proofs.Lowering.FixedPoint
import Monomorph.Proofs.Ssa.Changed

/-!
# Lowering/Truthful — a pass says whether it changed the body

Rounds are repeated as long as a pass says that it changed something, so a false word costs rounds.
Dropping dead temporaries and conversion tell the truth (`Pass.deadTemps_truthful`,
`Pass.ssa_truthful`).  Reading through copies gives its word where a read has a copy, **and is wrong
just where the copy is the temporary itself** (`Blocks.readsCopies_iff`): such a read is replaced by
itself, in this round and in all that follow.

Where no read is of that kind every pass is truthful.  Then the second round, which changes nothing,
says so, and **the rounds end after two at most, whatever their bound** (`Lowering.standard_stops`).
-/

namespace Monomorph

/-- **A pass that tells the truth about a body**: it runs, and says that it changed the body just if
it did. -/
def Pass.Truthful (p : Pass) (b : Body) : Prop :=
  ∃ b' changed, p.run b = .ok (b', changed) ∧ (changed = true ↔ b' ≠ b)

/-- A truthful pass that keeps a body says so. -/
theorem Pass.Truthful.quiet {p : Pass} {b : Body} (h : p.Truthful b) (hk : p.Keeps b) :
    p.run b = .ok (b, false) := by
  obtain ⟨b', changed, hrun, htold⟩ := h
  obtain ⟨_, hkeep⟩ := hk
  obtain ⟨rfl, -⟩ := Prod.mk.inj (Except.ok.inj (hkeep.symm.trans hrun))
  cases changed with
  | false => exact hrun
  | true => exact absurd rfl (htold.mp rfl)

/-- Other blocks make another body. -/
theorem Body.with_blocks_ne {b : Body} {bs : Blocks} :
    ({ b with blocks := bs } : Body) ≠ b ↔ bs ≠ b.blocks := by
  rw [not_iff_not]
  exact ⟨congrArg Body.blocks, fun h => by rw [h]⟩

/-! ## Temporaries that are their own copies -/

namespace Copies

variable {c c' : Copies} {o : Op} {ops : List Op}

/-- Whether a register is a temporary that copies itself. -/
def isOwn (c : Copies) : Register → Bool
  | .temp t => c.get? t.name = some (.ofTemp t)
  | .var _ => false

/-- Whether some operation, as it reads through the copies, reads a temporary that copies itself. -/
def ownAny (c : Copies) : List Op → Bool
  | [] => false
  | o :: r => let o := c.rewrite o; o.reads.any c.isOwn || (c.after o).ownAny r

theorem isOwn_iff {r : Register} :
    c.isOwn r = true ↔ ∃ t, r = .temp t ∧ c.get? t.name = some (.ofTemp t) := by
  cases r <;> simp [isOwn]

/-- An operation that reads no copy is left as it is. -/
theorem rewrite_eq_self (h : c.touches o = false) : c.rewrite o = o := by
  obtain ⟨hoperands, hslots⟩ := Bool.or_eq_false_iff.mp h
  refine rewrite_eq_self_iff.mpr ⟨fun a ha => ?_, fun x hx => ?_⟩
  · rcases c.operand_eq_or a with heq | ⟨t, rfl, ht⟩
    · exact heq
    · have hnone := List.any_eq_false.mp hoperands _ ha
      exact absurd (Table.contains_of_get? ht) hnone
  · cases x with
    | var v => rfl
    | temp t =>
      rcases c.temp_eq_or t with heq | ht
      · exact congrArg Register.temp heq
      · have hnone := List.any_eq_false.mp hslots _ hx
        rw [holdsSlot, ht] at hnone
        exact absurd rfl hnone

/-- **An operation that reads a copy changes**, unless what it reads copies itself. -/
theorem exists_isOwn (h : c.touches o = true) (ho : c.rewrite o = o) :
    ∃ r ∈ o.reads, c.isOwn r = true := by
  obtain ⟨hoperands, hslots⟩ := rewrite_eq_self_iff.mp ho
  rcases Bool.or_eq_true_iff.mp h with h | h
  · obtain ⟨a, ha, hheld⟩ := List.any_eq_true.mp h
    match a with
    | .register (.temp t) =>
      obtain ⟨b, hb⟩ := Table.contains_iff.mp hheld
      have hself : b = .ofTemp t := (operand_of_get? hb).symm.trans (hoperands _ ha)
      exact ⟨.temp t, Op.mem_reads_of_operand ha, isOwn_iff.mpr ⟨t, rfl, hself ▸ hb⟩⟩
  · obtain ⟨x, hx, hheld⟩ := List.any_eq_true.mp h
    match x with
    | .temp t =>
      rw [holdsSlot] at hheld
      split at hheld
      · next s hs =>
        have hself : s = t := by
          have htemp : Register.temp (c.temp t) = .temp t := hslots _ hx
          rw [temp, hs] at htemp
          exact Register.temp.inj htemp
        exact ⟨.temp t, List.mem_append_right _ hx, isOwn_iff.mpr ⟨t, rfl, hself ▸ hs⟩⟩
      · cases hheld

/-- **A row that reads no own copies changes just if it reads a copy.** -/
theorem touchesAny_iff (h : c.ownAny ops = false) :
    c.touchesAny ops = true ↔ c.rewriteAll ops ≠ ops := by
  induction ops generalizing c with
  | nil => simp [touchesAny, rewriteAll]
  | cons o ops ih =>
    obtain ⟨hown, hrest⟩ := Bool.or_eq_false_iff.mp h
    have ho : c.touches o = true ↔ c.rewrite o ≠ o := by
      constructor
      · intro htouches hself
        obtain ⟨r, hr, hrown⟩ := exists_isOwn htouches hself
        exact List.any_eq_false.mp hown r (hself.symm ▸ hr) hrown
      · exact fun hne => Bool.not_eq_false _ ▸ fun hquiet => hne (rewrite_eq_self hquiet)
    rw [touchesAny, Bool.or_eq_true_iff, ho, ih hrest, rewriteAll, ne_eq, ne_eq, ne_eq,
      List.cons.injEq, not_and_or]

/-- Reading through copies again, an operation reads the own copies it read. -/
theorem Resolved.ownAny_rewriteAll (h : c.Resolved) (ops : List Op) :
    c.ownAny (c.rewriteAll ops) = c.ownAny ops := by
  induction ops generalizing c with
  | nil => rfl
  | cons o ops ih => rw [rewriteAll, ownAny, ownAny, h.rewrite_rewrite, ih (h.after o)]

/-- **A row that reads no own copies reads none** when operations are dropped that write names that
are gone. -/
theorem Part.ownAny_filter {gone : String → Prop} (h : Part gone c c') {live : Op → Bool}
    (hops : c.rewriteAll ops = ops) (hown : c.ownAny ops = false)
    (hkeep : ∀ o ∈ ops, live o = true →
      ∀ a t, o.instr = .assign a t → ¬ gone t.name ∧ ¬ gone a.name)
    (hdrop : ∀ o ∈ ops, live o = false → ∃ t, o.instr.removable? = some t ∧ gone t.name) :
    c'.ownAny (ops.filter live) = false := by
  induction ops generalizing c c' with
  | nil => rfl
  | cons o ops ih =>
    obtain ⟨hk, hkrest⟩ := List.forall_mem_cons.mp hkeep
    obtain ⟨hd, hdrest⟩ := List.forall_mem_cons.mp hdrop
    obtain ⟨ho, hrest⟩ := List.cons.inj hops
    obtain ⟨hownO, hownRest⟩ := Bool.or_eq_false_iff.mp hown
    rw [ho] at hrest hownO hownRest
    cases hl : live o with
    | true =>
      rw [List.filter_cons_of_pos hl, ownAny, h.rewrite_eq_self ho,
        ih (h.keep (hk hl)) hrest hownRest hkrest hdrest, Bool.or_false, List.any_eq_false]
      intro r hr hrown
      obtain ⟨t, rfl, ht⟩ := isOwn_iff.mp hrown
      exact List.any_eq_false.mp hownO _ hr (isOwn_iff.mpr ⟨t, rfl, (h _ _ ht).1⟩)
    | false =>
      obtain ⟨t, ht, hgone⟩ := hd hl
      rw [List.filter_cons_of_neg (by rw [hl]; exact Bool.false_ne_true)]
      exact ih (h.drop ht hgone) hrest hownRest hkrest hdrest

end Copies

namespace Blocks

variable {bs : Blocks}

/-- Whether a block, as it reads through the copies made in it, reads a temporary that copies
itself. -/
def readsOwnCopies (bs : Blocks) : Bool :=
  bs.values.any fun b => Copies.ownAny ∅ b.ops

theorem readsCopies_iff (h : bs.readsOwnCopies = false) :
    bs.readsCopies = true ↔ bs.readThroughCopies ≠ bs := by
  rw [readsCopies, List.any_eq_true, readThroughCopies, ne_eq, mapOps_eq_self_iff]
  push Not
  refine exists_congr fun b => and_congr_right fun hb => Copies.touchesAny_iff ?_
  exact Bool.eq_false_of_not_eq_true (List.any_eq_false.mp h b hb)

/-- **A body has dead temporaries just if dropping them changes it.** -/
theorem hasDeadTemps_iff_ne : bs.hasDeadTemps = true ↔ bs.dropDeadTemps ≠ bs := by
  refine ⟨fun h hself => ?_, fun h => ?_⟩
  · have hnone := bs.hasDeadTemps_dropDeadTemps
    rw [hself, h] at hnone
    cases hnone
  · refine hasDeadTemps_iff.mpr ?_
    by_contra hall
    push Not at hall
    exact h (dropDeadTemps_eq_self hall)

theorem readsOwnCopies_mapOps (bs : Blocks) (f : List Op → List Op) :
    (bs.mapOps f).readsOwnCopies = bs.values.any fun b => Copies.ownAny ∅ (f b.ops) := by
  simp [readsOwnCopies, mapOps, Table.values_map, List.any_map, Function.comp_def]

theorem readsOwnCopies_readThroughCopies (bs : Blocks) :
    bs.readThroughCopies.readsOwnCopies = bs.readsOwnCopies := by
  have hnone : Copies.Resolved ∅ := fun n a ha => by cases ha
  rw [readThroughCopies, readsOwnCopies_mapOps, readsOwnCopies]
  simp only [hnone.ownAny_rewriteAll]

theorem TempsApart.readsOwnCopies_dropDeadTemps (h : bs.TempsApart)
    (hbs : bs.readThroughCopies = bs) (hown : bs.readsOwnCopies = false) :
    bs.dropDeadTemps.readsOwnCopies = false := by
  rw [dropDeadTemps_eq_mapOps, readsOwnCopies_mapOps, List.any_eq_false]
  intro b hb
  have hmem : ∀ o ∈ b.ops, o ∈ bs.allOps := fun o ho => mem_allOps_values.mpr ⟨b, hb, ho⟩
  have hnone : Copies.Part bs.Gone ∅ ∅ := fun n a ha => by cases ha
  rw [hnone.ownAny_filter (mapOps_eq_self_iff.mp hbs b hb)
    (Bool.eq_false_of_not_eq_true (List.any_eq_false.mp hown b hb))
    (fun o ho => h.not_gone_assign (hmem o ho)) fun o ho => gone_of_dropped (hmem o ho)]
  exact Bool.false_ne_true

/-- **What one round comes to** reads no own copies, if the body read none. -/
theorem TempsApart.readsOwnCopies_round (h : bs.TempsApart) (hown : bs.readsOwnCopies = false) :
    bs.readThroughCopies.dropDeadTemps.readsOwnCopies = false :=
  h.readThroughCopies.readsOwnCopies_dropDeadTemps bs.readThroughCopies_idem
    (bs.readsOwnCopies_readThroughCopies.trans hown)

end Blocks

/-! ## The passes -/

namespace Pass

variable {b : Body}

theorem copies_truthful (h : b.blocks.readsOwnCopies = false) : copies.Truthful b :=
  ⟨_, _, rfl, (Blocks.readsCopies_iff h).trans Body.with_blocks_ne.symm⟩

theorem deadTemps_truthful (b : Body) : deadTemps.Truthful b :=
  ⟨_, _, rfl, Blocks.hasDeadTemps_iff_ne.trans Body.with_blocks_ne.symm⟩

theorem ssa_truthful (params : List String)
    (hw : ∀ o ∈ b.blocks.allOps, ∀ r ∈ o.writes, r.name = r.base) (hc : b.blocks.Closed)
    (ha : b.blocks.Acyclic) : (ssa params).Truthful b := by
  obtain ⟨⟨bs', told⟩, hssa⟩ := Blocks.exists_toSsa params hc ha
  have hrun : (ssa params).run b = .ok ({ b with blocks := bs' }, told) := by
    rw [run_ssa, hssa]
    rfl
  exact ⟨_, _, hrun, (Blocks.toSsa_changed hw hssa).trans Body.with_blocks_ne.symm⟩

end Pass

/-! ## Names of literals and of temporaries -/

theorem Literal.head?_name (l : Literal) : l.name.toList.head? = some '=' := by
  match l with
  | .none | .bool true | .bool false => rfl
  | .int d | .bigInt d | .float d | .string d | .regex d =>
    rw [name, String.toList_append]
    rfl

/-- **No literal bears the name of a temporary** as it is first numbered. -/
theorem Literal.name_ne_base (l : Literal) (t : Temp) : l.name ≠ t.base := by
  intro h
  have hhead := l.head?_name
  rw [h, Temp.base, String.toList_append] at hhead
  exact absurd (Option.some.inj hhead) (by decide)

/-- Before conversion, only a variable could bear the name of a temporary. -/
theorem Blocks.tempsApart_of_kinds {bs : Blocks}
    (hraw : ∀ o ∈ bs.allOps, ∀ r ∈ o.reads ++ o.writes, r.name = r.base)
    (hkinds : ∀ v t, bs.Uses (.var v) → bs.Uses (.temp t) → v.name ≠ t.name) :
    bs.TempsApart := by
  rintro o ho a ha t ht hname
  match a with
  | .register (.temp s) => exact ⟨s, rfl⟩
  | .register (.var v) =>
    exact absurd hname
      (hkinds v t ⟨o, ho, List.mem_append_left _ (Op.mem_reads_of_operand ha)⟩ ht)
  | .literal l =>
    obtain ⟨o', ho', ht⟩ := ht
    exact absurd (hname.trans (hraw o' ho' _ ht)) (l.name_ne_base t)

/-! ## Rounds -/

namespace Lowering

variable {passes : List Pass} {b b₁ b' : Body} {s s₁ s' : LoweringStats} {changed : Bool}

/-- Passes in turn make no round. -/
theorem runAll_rounds (h : runAll passes b s = .ok (b', s', changed)) : s'.rounds = s.rounds := by
  induction passes generalizing b s changed with
  | nil =>
    obtain ⟨-, rfl, -⟩ := h
    rfl
  | cons p passes ih =>
    obtain ⟨⟨b₁, c⟩, -, h⟩ := bind_eq_ok.mp h
    obtain ⟨⟨b₂, s₂, others⟩, hrest, h⟩ := bind_eq_ok.mp h
    obtain ⟨-, rfl, -⟩ := h
    refine (ih hrest).trans ?_
    cases c <;> rfl

/-- Passes that say they change nothing, and do not. -/
theorem runAll_quiet (h : ∀ p ∈ passes, p.run b = .ok (b, false)) (s : LoweringStats) :
    runAll passes b s = .ok (b, s, false) := by
  induction passes with
  | nil => rfl
  | cons p passes ih =>
    obtain ⟨hp, hrest⟩ := List.forall_mem_cons.mp h
    rw [runAll, hp]
    simp only [bind, Except.bind, Bool.false_eq_true, if_false, ih hrest]
    rfl

/-- **Rounds that come to a body the passes leave alone** end there, and say so: after the first if
it reports nothing, else after the second. -/
theorem repeatRounds_quiet (hrun : runAll passes b s = .ok (b₁, s₁, changed))
    (h : ∀ p ∈ passes, p.run b₁ = .ok (b₁, false)) :
    ∃ r, r.rounds = s.rounds + (if changed then 2 else 1) ∧
      ∀ n, repeatRounds passes (n + 2) b s = .ok (b₁, r) := by
  have hrounds := runAll_rounds hrun
  cases changed with
  | false =>
    exact ⟨{ s₁ with rounds := s₁.rounds + 1 }, congrArg (· + 1) hrounds,
      fun n => repeatRounds_succ hrun (n + 1)⟩
  | true =>
    refine ⟨{ s₁ with rounds := s₁.rounds + 2 }, congrArg (· + 2) hrounds, fun n => ?_⟩
    rw [repeatRounds_succ hrun, if_pos rfl, repeatRounds_succ (runAll_quiet h _)]
    rfl

/-- **Where no read has itself for a copy, the rounds end of themselves**, after two at most: they
come, whatever their bound, to a body that every pass leaves alone and says so. -/
theorem standard_quiet (h : b.blocks.TempsApart) (hown : b.blocks.readsOwnCopies = false)
    (params : List String) : ∃ b₁ r,
      (∀ n, repeatRounds (standard params).passes (n + 2) b {} = .ok (b₁, r)) ∧
      (r.rounds = 1 ∧ b₁ = b ∨ r.rounds = 2 ∧ b₁ ≠ b) ∧
      ∀ p ∈ (standard params).passes, p.run b₁ = .ok (b₁, false) := by
  set b₀ : Body := { b with blocks := b.blocks.readThroughCopies } with hb₀
  set b₁ : Body := { b with blocks := b₀.blocks.dropDeadTemps } with hb₁
  have hquiet : ∀ p ∈ (standard params).passes, p.run b₁ = .ok (b₁, false) := fun p hp => by
    rcases List.mem_pair.mp hp with rfl | rfl
    · exact (Pass.copies_truthful (b := b₁) (h.readsOwnCopies_round hown)).quiet
        (Pass.copies_keeps h.round)
    · exact Pass.deadTemps_again b₀
  by_cases hsame : b₁ = b
  · rw [hsame] at hquiet
    obtain ⟨r, hr, hrounds⟩ := repeatRounds_quiet (runAll_quiet hquiet {}) hquiet
    exact ⟨b, r, hrounds, .inl ⟨hr, rfl⟩, hquiet⟩
  · obtain ⟨s, hrun⟩ : ∃ s, runAll (standard params).passes b {}
        = .ok (b₁, s, b.blocks.readsCopies || (b₀.blocks.hasDeadTemps || false)) := ⟨_, rfl⟩
    have hflag : (b.blocks.readsCopies || (b₀.blocks.hasDeadTemps || false)) = true := by
      by_contra hnone
      rw [Bool.or_false, Bool.or_eq_true_iff, Blocks.readsCopies_iff hown,
        Blocks.hasDeadTemps_iff_ne, not_or, not_not, not_not] at hnone
      refine hsame ?_
      rw [hb₁, hnone.2, hb₀, hnone.1]
    rw [hflag] at hrun
    obtain ⟨r, hr, hrounds⟩ := repeatRounds_quiet hrun hquiet
    exact ⟨b₁, r, hrounds, .inr ⟨hr, hsame⟩, hquiet⟩

end Lowering

/-- **What the passes report is true**, of every body whose registers bear the names of their bases.
Dropping dead temporaries says that it changed the body just if it did, and so does conversion,
wherever it succeeds.  So does reading through copies, as long as no operation it leaves reads a
temporary that copies itself.  If besides no variable bears the name of a temporary, the rounds of
the standard lowering stop because one reported no change: they are at most two, and their bound
plays no part. -/
theorem Lowering.standard_truthful {b : Body}
    (hraw : ∀ o ∈ b.blocks.allOps, ∀ r ∈ o.reads ++ o.writes, r.name = r.base) :
    Pass.deadTemps.Truthful b ∧
      (b.blocks.Closed → b.blocks.Acyclic → ∀ params, (Pass.ssa params).Truthful b) ∧
      (b.blocks.readsOwnCopies = false → Pass.copies.Truthful b) ∧
      (b.blocks.readsOwnCopies = false →
        (∀ v t, b.blocks.Uses (.var v) → b.blocks.Uses (.temp t) → v.name ≠ t.name) →
        ∀ params, ∃ b₁ r,
          (∀ n, repeatRounds (standard params).passes (n + 2) b {} = .ok (b₁, r)) ∧
          (r.rounds = 1 ∧ b₁ = b ∨ r.rounds = 2 ∧ b₁ ≠ b) ∧
          (∀ p ∈ (standard params).passes, p.run b₁ = .ok (b₁, false)) ∧
          ∀ b' s, (standard params).run b = .ok (b', s) → s.rounds = r.rounds) := by
  refine ⟨Pass.deadTemps_truthful b, fun hc ha params => ?_, Pass.copies_truthful,
    fun hown hkinds params => ?_⟩
  · have hwrites : ∀ o ∈ b.blocks.allOps, ∀ r ∈ o.writes, r.name = r.base :=
      fun o ho r hr => hraw o ho r (List.mem_append_right _ hr)
    exact Pass.ssa_truthful params hwrites hc ha
  · have happart := Blocks.tempsApart_of_kinds hraw hkinds
    obtain ⟨b₁, r, hrounds, hcount, hquiet⟩ := standard_quiet happart hown params
    refine ⟨b₁, r, hrounds, hcount, hquiet, fun b' s hrun => ?_⟩
    obtain ⟨⟨b₂, s₂⟩, hrepeated, hrun⟩ := bind_eq_ok.mp hrun
    obtain ⟨⟨b₃, s₃, c⟩, hfinish, hrun⟩ := bind_eq_ok.mp hrun
    obtain ⟨-, rfl⟩ := Prod.mk.inj (Except.ok.inj hrun)
    obtain ⟨-, rfl⟩ := Prod.mk.inj (Except.ok.inj (hrepeated.symm.trans (hrounds 8)))
    exact runAll_rounds hfinish

/-- A chain of copies is read through and dropped in one round, and a second finds nothing to do. -/
theorem chain_truthful : Pass.deadTemps.Truthful ⟨"", .synthetic, chain, none⟩ ∧
    (Pass.ssa []).Truthful ⟨"", .synthetic, chain, none⟩ ∧
    Pass.copies.Truthful ⟨"", .synthetic, chain, none⟩ ∧ ∃ b₁ r,
      Lowering.repeatRounds [.copies, .deadTemps] 10 ⟨"", .synthetic, chain, none⟩ {}
        = .ok (b₁, r) ∧ r.rounds ≤ 2 := by
  obtain ⟨hdead, hssa, hcopies, hrounds⟩ :=
    Lowering.standard_truthful (b := ⟨"", .synthetic, chain, none⟩) (by decide +kernel)
  have hclosed : chain.Closed := Blocks.closed_of_keys (by decide +kernel)
  have hacyclic : chain.Acyclic := Blocks.acyclic_of_rank
    (fun l => ["entry", "returnassign", "exit"].idxOf l) (by decide +kernel)
  have hown : chain.readsOwnCopies = false := by decide +kernel
  obtain ⟨b₁, r, hrepeated, hcount, -⟩ :=
    hrounds hown (Blocks.kinds_of_isTemp (by decide +kernel)) []
  refine ⟨hdead, hssa hclosed hacyclic [], hcopies hown, b₁, r, hrepeated 8, ?_⟩
  rcases hcount with ⟨h, -⟩ | ⟨h, -⟩ <;> omega

/-! ## Rounds that do not end of themselves, and rounds that end late -/

/-- A temporary assigned to itself and read. -/
def turning : Blocks := Table.ofList [
  (entryLabel, ⟨entryLabel, [
    ⟨.synthetic, .define (.const (.int "1")) (.ofId 0)⟩,
    ⟨.synthetic, .assign (.ofTemp (.ofId 0)) (.ofId 0)⟩,
    ⟨.synthetic, .returnAssign (.ofTemp (.ofId 0)) .result⟩,
    ⟨.synthetic, .jump returnLabel⟩]⟩),
  (returnLabel, ⟨returnLabel, [⟨.synthetic, .jump exitLabel⟩]⟩),
  (exitLabel, ⟨exitLabel, []⟩)]

/-- A copy of a variable, which is under the name of a temporary nobody reads. -/
def borrowed : Blocks := Table.ofList [
  (entryLabel, ⟨entryLabel, [
    ⟨.synthetic, .assign (.ofVar (.ofBase "#tmp_1")) (.ofId 0)⟩,
    ⟨.synthetic, .define (.const (.int "1")) (.ofId 1)⟩,
    ⟨.synthetic, .returnAssign (.ofTemp (.ofId 0)) .result⟩,
    ⟨.synthetic, .jump returnLabel⟩]⟩),
  (returnLabel, ⟨returnLabel, [⟨.synthetic, .jump exitLabel⟩]⟩),
  (exitLabel, ⟨exitLabel, []⟩)]

/-- **A read that has itself for a copy is reported as a change**, round after round, up to the
bound.  And where a variable bears the name of a temporary there may be a third round, every pass
telling the truth: the copy of the variable ends where the temporary is written, until that is
dropped. -/
theorem turning_rounds :
    (∀ bs ∈ [turning, borrowed], ∀ o ∈ bs.allOps, o.instr.isMerge = false ∧
      ∀ r ∈ o.reads ++ o.writes, r.name = r.base) ∧
    Pass.copies.run ⟨"", .synthetic, turning, none⟩ = .ok (⟨"", .synthetic, turning, none⟩, true) ∧
    (∃ b s, Lowering.repeatRounds (Lowering.standard []).passes 10
      ⟨"", .synthetic, turning, none⟩ {} = .ok (b, s) ∧ s.rounds = 10) ∧
    borrowed.readsOwnCopies = false ∧
    ∃ b s, Lowering.repeatRounds (Lowering.standard ["#tmp_1"]).passes 10
      ⟨"", .synthetic, borrowed, none⟩ {} = .ok (b, s) ∧ s.rounds = 3 := by
  have count : ∀ {x : Except Fault (Body × LoweringStats)} {n : Nat},
      x.toOption.map (·.2.rounds) = some n → ∃ b s, x = .ok (b, s) ∧ s.rounds = n := by
    intro x n h
    obtain ⟨⟨b, s⟩, hx, hn⟩ := Option.map_eq_some_iff.mp h
    exact ⟨b, s, toOption_eq_some.mp hx, hn⟩
  have hkept : turning.readThroughCopies = turning := by decide +kernel
  have hflag : turning.readsCopies = true := by decide +kernel
  refine ⟨by decide +kernel, ?_, count ?_, by decide +kernel, count ?_⟩
  · simp only [Pass.copies, hkept, hflag]
  · decide +kernel
  · decide +kernel

end Monomorph
