import Monomorph.Proofs.Lowering.Copies
import Monomorph.Proofs.Lowering.Kept
import Monomorph.Proofs.Lowering.Rounds

/-!
# Lowering/FixedPoint — one round of the standard passes is enough

Two things could keep a second round busy.

**Copies of copies.**  An assignment reads through the copies made before it, so what is copied is
never a copy itself, unless of itself (`Copies.Resolved`): reading through copies a second time
changes nothing.

**Copies that were cut short.**  A copy ends where its temporary or what it copies is written, and
writes get fewer when dead temporaries are dropped.  But what is dropped only writes names nobody
reads in the end: no such name is copied, or made a copy, by what is left (`Copies.Part`).  So
**every copy that is left was there before** and has been read through already.

The second needs names to mean what they say: a literal that bears the name of a temporary is taken
for it where the temporary is written (`masking_round`).
-/

namespace Monomorph

/-- One renaming, and the same again. -/
theorem Renaming.comp_self {r : Renaming} (ht : ∀ t, r.temp (r.temp t) = r.temp t)
    (hv : ∀ v, r.var (r.var v) = r.var v) : r.comp r = r := by
  obtain ⟨temp, var⟩ := r
  simp only [comp, Renaming.mk.injEq]
  exact ⟨funext ht, funext hv⟩

namespace Copies

variable {c c' : Copies} {o : Op} {ops : List Op}

/-! ## Copies of copies -/

/-- **What is copied is read as it is.** -/
def Resolved (c : Copies) : Prop :=
  ∀ n a, c.get? n = some a → c.operand a = a

theorem operand_of_get? {t : Temp} {a : Operand} (h : c.get? t.name = some a) :
    c.operand (.ofTemp t) = a := by
  change (c.get? t.name).getD _ = a
  rw [h, Option.getD_some]

/-- A temporary that is read as it is among the operands is so in slots. -/
theorem temp_eq_self {t : Temp} (h : c.operand (.ofTemp t) = .ofTemp t) : c.temp t = t := by
  rcases c.temp_eq_or t with heq | ht
  · exact heq
  · exact Register.temp.inj (Operand.register.inj ((operand_of_get? ht).symm.trans h))

theorem Resolved.operand_operand (h : c.Resolved) (a : Operand) :
    c.operand (c.operand a) = c.operand a := by
  rcases c.operand_eq_or a with heq | ⟨t, -, ht⟩
  · rw [heq, heq]
  · exact h t.name _ ht

theorem Resolved.temp_temp (h : c.Resolved) (t : Temp) : c.temp (c.temp t) = c.temp t := by
  rcases c.temp_eq_or t with heq | ht
  · rw [heq, heq]
  · exact temp_eq_self (h t.name _ ht)

/-- **Reading through the same copies twice** is reading through them once. -/
theorem Resolved.rewrite_rewrite (h : c.Resolved) (o : Op) :
    c.rewrite (c.rewrite o) = c.rewrite o := by
  have hcomp : Renaming.comp { temp := c.temp } { temp := c.temp } = { temp := c.temp } :=
    Renaming.comp_self h.temp_temp fun _ => rfl
  simp only [rewrite, Op.mapInstr, Op.mk.injEq, true_and]
  rw [← Instr.mapSlots_map, Instr.mapSlots_mapSlots, Instr.map_map, hcomp]
  simp only [h.operand_operand]

/-- What is read as it is goes on being so, unless it is copied anew. -/
theorem operand_after {a : Operand} (h : c.operand a = a)
    (hnew : ∀ b t, o.instr = .assign b t → t.name = a.name → b = a) :
    (c.after o).operand a = a := by
  rcases (c.after o).operand_eq_or a with heq | ⟨s, rfl, hs⟩
  · exact heq
  · rcases get?_after.mp hs with ⟨t, hi, hname⟩ | ⟨hc, -⟩
    · exact hnew _ t hi hname
    · exact (operand_of_get? hc).symm.trans h

/-- **Copies made by reading through copies are resolved.** -/
theorem Resolved.after (h : c.Resolved) (o : Op) : (c.after (c.rewrite o)).Resolved := by
  intro n a ha
  rcases get?_after.mp ha with ⟨t, hi, -⟩ | ⟨hc, hkept⟩
  · obtain ⟨b, -, hb⟩ := instr_rewrite_eq_assign.mp hi
    refine operand_after (hb ▸ h.operand_operand b) fun b' t' hi' _ => ?_
    exact (Instr.assign.inj (hi'.symm.trans hi)).1
  · refine operand_after (h n a hc) fun b t hi hname => ?_
    have hw : .temp t ∈ (c.rewrite o).writes := by rw [Op.writes, hi]; exact List.mem_cons_self
    exact absurd hname.symm (hkept _ hw).2

theorem Resolved.rewriteAll_rewriteAll (h : c.Resolved) (ops : List Op) :
    c.rewriteAll (c.rewriteAll ops) = c.rewriteAll ops := by
  induction ops generalizing c with
  | nil => rfl
  | cons o ops ih => rw [rewriteAll, rewriteAll, h.rewrite_rewrite, ih (h.after o)]

/-! ## Fewer copies -/

/-- **An operation is left as it is** exactly if everything it reads is read as it is. -/
theorem rewrite_eq_self_iff : c.rewrite o = o ↔ (∀ a ∈ o.instr.operands, c.operand a = a) ∧
    ∀ x ∈ o.instr.slots, x.rename { temp := c.temp } = x := by
  constructor
  · intro h
    have hinstr : (o.instr.map c.operand).mapSlots { temp := c.temp } = o.instr :=
      congrArg Op.instr h
    have hoperands := congrArg Instr.operands hinstr
    have hslots := congrArg Instr.slots hinstr
    rw [Instr.operands_mapSlots, Instr.operands_map] at hoperands
    rw [Instr.slots_mapSlots, Instr.slots_map] at hslots
    exact ⟨List.map_inj_left.mp (hoperands.trans (List.map_id _).symm),
      List.map_inj_left.mp (hslots.trans (List.map_id _).symm)⟩
  · rintro ⟨hoperands, hslots⟩
    have hinstr : (o.instr.map c.operand).mapSlots { temp := c.temp } = o.instr := by
      rw [Instr.map_eq_self hoperands, Instr.mapSlots_eq_self hslots]
    rw [rewrite, Op.mapInstr, hinstr]

/-- **Copies that are some of the others**, and have nothing to do with the names that are gone. -/
def Part (gone : String → Prop) (c c' : Copies) : Prop :=
  ∀ n a, c'.get? n = some a → c.get? n = some a ∧ ¬ gone n ∧ ¬ gone a.name

variable {gone : String → Prop}

/-- Where nothing was left to be read through, nothing is with fewer copies. -/
theorem Part.rewrite_eq_self (h : Part gone c c') (ho : c.rewrite o = o) : c'.rewrite o = o := by
  obtain ⟨hoperands, hslots⟩ := rewrite_eq_self_iff.mp ho
  refine rewrite_eq_self_iff.mpr ⟨fun a ha => ?_, fun x hx => ?_⟩
  · rcases c'.operand_eq_or a with heq | ⟨t, rfl, ht⟩
    · exact heq
    · exact (operand_of_get? (h _ _ ht).1).symm.trans (hoperands _ ha)
  · cases x with
    | var v => rfl
    | temp t =>
      rcases c'.temp_eq_or t with heq | ht
      · exact congrArg Register.temp heq
      · have htemp : c.temp t = c'.temp t := by rw [temp, (h _ _ ht).1]; rfl
        exact (congrArg Register.temp htemp).symm.trans (hslots _ hx)

/-- An operation that stays and makes no copy of, or under, a name that is gone. -/
theorem Part.keep (h : Part gone c c')
    (ho : ∀ a t, o.instr = .assign a t → ¬ gone t.name ∧ ¬ gone a.name) :
    Part gone (c.after o) (c'.after o) := by
  intro n a ha
  rcases get?_after.mp ha with ⟨t, hi, rfl⟩ | ⟨hc, hkept⟩
  · exact ⟨get?_after.mpr (.inl ⟨t, hi, rfl⟩), ho a t hi⟩
  · obtain ⟨hget, hgone⟩ := h n a hc
    exact ⟨get?_after.mpr (.inr ⟨hget, hkept⟩), hgone⟩

/-- **An operation that is dropped**, and wrote a name that is gone. -/
theorem Part.drop (h : Part gone c c') {t : Temp} (ho : o.instr.removable? = some t)
    (ht : gone t.name) : Part gone (c.after o) c' := by
  intro n a ha
  obtain ⟨hget, hn, hname⟩ := h n a ha
  refine ⟨get?_after.mpr (.inr ⟨hget, fun r hr => ?_⟩), hn, hname⟩
  rw [Op.writes_of_removable? ho, List.mem_singleton] at hr
  subst hr
  exact ⟨fun heq => hn (heq ▸ ht), fun heq => hname (heq ▸ ht)⟩

/-- **A row with nothing left to read through has nothing left** when operations are dropped that
write names that are gone. -/
theorem Part.rewriteAll_filter (h : Part gone c c') {live : Op → Bool}
    (hops : c.rewriteAll ops = ops)
    (hkeep : ∀ o ∈ ops, live o = true →
      ∀ a t, o.instr = .assign a t → ¬ gone t.name ∧ ¬ gone a.name)
    (hdrop : ∀ o ∈ ops, live o = false → ∃ t, o.instr.removable? = some t ∧ gone t.name) :
    c'.rewriteAll (ops.filter live) = ops.filter live := by
  induction ops generalizing c c' with
  | nil => rfl
  | cons o ops ih =>
    obtain ⟨hk, hkrest⟩ := List.forall_mem_cons.mp hkeep
    obtain ⟨hd, hdrest⟩ := List.forall_mem_cons.mp hdrop
    obtain ⟨ho, hrest⟩ := List.cons.inj hops
    rw [ho] at hrest
    cases hl : live o with
    | true =>
      rw [List.filter_cons_of_pos hl, rewriteAll, h.rewrite_eq_self ho,
        ih (h.keep (hk hl)) hrest hkrest hdrest]
    | false =>
      obtain ⟨t, ht, hgone⟩ := hd hl
      rw [List.filter_cons_of_neg (by rw [hl]; exact Bool.false_ne_true)]
      exact ih (h.drop ht hgone) hrest hkrest hdrest

/-! ## Operands -/

/-- Every operand that is copied satisfies `p`. -/
def Among (p : Operand → Prop) (c : Copies) : Prop :=
  ∀ n a, c.get? n = some a → p a

variable {p : Operand → Prop}

theorem Among.operands_rewrite (h : c.Among p) (ho : ∀ a ∈ o.instr.operands, p a) :
    ∀ a ∈ (c.rewrite o).instr.operands, p a := by
  rw [rewrite, Op.mapInstr, Instr.operands_mapSlots, Instr.operands_map]
  refine List.forall_mem_map.mpr fun a ha => ?_
  rcases c.operand_eq_or a with heq | ⟨t, -, ht⟩
  · rw [heq]
    exact ho a ha
  · exact h t.name _ ht

/-- **What reads through copies has no operands** but those there were, and those copied. -/
theorem Among.rewriteAll (h : c.Among p) (hops : ∀ o ∈ ops, ∀ a ∈ o.instr.operands, p a) :
    ∀ o ∈ c.rewriteAll ops, ∀ a ∈ o.instr.operands, p a := by
  induction ops generalizing c with
  | nil => exact fun o ho => absurd ho (by simp [Copies.rewriteAll])
  | cons x ops ih =>
    obtain ⟨hx, hrest⟩ := List.forall_mem_cons.mp hops
    have hx' := h.operands_rewrite hx
    refine List.forall_mem_cons.mpr ⟨hx', ih (fun n a ha => ?_) hrest⟩
    rcases get?_after.mp ha with ⟨t, hi, -⟩ | ⟨hc, -⟩
    · exact hx' a (by rw [hi]; exact List.mem_cons_self)
    · exact h n a hc

end Copies

namespace Blocks

variable {bs : Blocks}

/-- **No operand bears the name of a temporary**, unless it is one. -/
def TempsApart (bs : Blocks) : Prop :=
  ∀ o ∈ bs.allOps, ∀ a ∈ o.instr.operands, ∀ t, bs.Uses (.temp t) → a.name = t.name →
    ∃ s, a = .ofTemp s

/-- Temporaries are apart if no operand that is none has the name of one. -/
theorem tempsApart_of_isTemp (h : ∀ o ∈ bs.allOps, ∀ a ∈ o.instr.operands,
    a.register?.any Register.isTemp = false → ∀ o' ∈ bs.allOps, ∀ r ∈ o'.reads ++ o'.writes,
      r.isTemp = true → a.name ≠ r.name) : bs.TempsApart := by
  rintro o ho a ha t ⟨o', ho', ht⟩ hname
  match a with
  | .register (.temp s) => exact ⟨s, rfl⟩
  | .register (.var v) => exact absurd hname (h o ho _ ha rfl o' ho' _ ht rfl)
  | .literal l => exact absurd hname (h o ho _ ha rfl o' ho' _ ht rfl)

/-- **Reading through copies twice** is reading through them once. -/
theorem readThroughCopies_idem (bs : Blocks) :
    bs.readThroughCopies.readThroughCopies = bs.readThroughCopies := by
  have hnone : Copies.Resolved ∅ := fun n a ha => by cases ha
  rw [readThroughCopies, readThroughCopies, mapOps_mapOps]
  exact mapOps_congr fun b _ => hnone.rewriteAll_rewriteAll b.ops

/-- **Dropping dead temporaries twice** is dropping them once. -/
theorem dropDeadTemps_idem (bs : Blocks) :
    bs.dropDeadTemps.dropDeadTemps = bs.dropDeadTemps :=
  dropDeadTemps_eq_self fun _ ho => (mem_allOps_dropDeadTemps.mp ho).2

theorem hasDeadTemps_dropDeadTemps (bs : Blocks) : bs.dropDeadTemps.hasDeadTemps = false := by
  rw [← Bool.not_eq_true, hasDeadTemps_iff]
  exact fun ⟨o, ho, hdead⟩ => hdead (mem_allOps_dropDeadTemps.mp ho).2

theorem TempsApart.readThroughCopies (h : bs.TempsApart) : bs.readThroughCopies.TempsApart := by
  intro o' ho' a ha t ht
  obtain ⟨l, b, hb, ho'⟩ := mem_allOps_mapOps.mp ho'
  have hnone : Copies.Among (fun a => ∃ o ∈ bs.allOps, a ∈ o.instr.operands) ∅ :=
    fun n a ha => by cases ha
  obtain ⟨o, ho, ha⟩ := hnone.rewriteAll
    (fun o ho a ha => ⟨o, mem_allOps.mpr ⟨l, b, hb, ho⟩, ha⟩) o' ho' a ha
  exact h o ho a ha t (uses_of_readThroughCopies ht)

/-- A name of temporaries that nothing reads once dead temporaries are dropped. -/
def Gone (bs : Blocks) (n : String) : Prop :=
  n ∉ bs.dropDeadTemps.tempsRead ∧ ∃ t, bs.Uses (.temp t) ∧ t.name = n

variable {o : Op} (ho : o ∈ bs.allOps)

include ho in
/-- What stays reads none of these names, in a temporary or otherwise. -/
theorem TempsApart.not_gone_operand (h : bs.TempsApart)
    (hlive : isLive bs.dropDeadTemps.tempsRead o = true) :
    ∀ a ∈ o.instr.operands, ¬ bs.Gone a.name := by
  rintro a ha ⟨hnone, t, ht, hname⟩
  obtain ⟨s, rfl⟩ := h o ho a ha t ht hname.symm
  exact hnone (mem_tempsRead.mpr ⟨o, mem_allOps_dropDeadTemps.mpr ⟨ho, isLive_iff.mp hlive⟩,
    .temp s, Op.mem_reads_of_operand ha, rfl, rfl⟩)

include ho in
/-- So what stays makes no copy of, or under, such a name. -/
theorem TempsApart.not_gone_assign (h : bs.TempsApart)
    (hlive : isLive bs.dropDeadTemps.tempsRead o = true) :
    ∀ a t, o.instr = .assign a t → ¬ bs.Gone t.name ∧ ¬ bs.Gone a.name := by
  refine fun a t hi => ⟨fun hgone => hgone.1 (isLive_iff.mp hlive t (by rw [hi]; rfl)), ?_⟩
  exact h.not_gone_operand ho hlive a (by rw [hi]; exact List.mem_cons_self)

include ho in
/-- What is dropped wrote one of them. -/
theorem gone_of_dropped (hdead : isLive bs.dropDeadTemps.tempsRead o = false) :
    ∃ t, o.instr.removable? = some t ∧ bs.Gone t.name := by
  obtain ⟨t, ht, hnone⟩ := exists_of_isLive_eq_false hdead
  have hw : .temp t ∈ o.writes := by rw [Op.writes_of_removable? ht]; exact List.mem_cons_self
  exact ⟨t, ht, hnone, t, ⟨o, ho, List.mem_append_right _ hw⟩, rfl⟩

/-- **After dead temporaries are dropped there are no more copies to be read through** than
before. -/
theorem TempsApart.readThroughCopies_dropDeadTemps (h : bs.TempsApart)
    (hbs : bs.readThroughCopies = bs) :
    bs.dropDeadTemps.readThroughCopies = bs.dropDeadTemps := by
  rw [dropDeadTemps_eq_mapOps, Blocks.readThroughCopies, mapOps_mapOps]
  refine mapOps_congr fun b hb => ?_
  have hmem : ∀ o ∈ b.ops, o ∈ bs.allOps := fun o ho => mem_allOps_values.mpr ⟨b, hb, ho⟩
  have hnone : Copies.Part bs.Gone ∅ ∅ := fun n a ha => by cases ha
  exact hnone.rewriteAll_filter (mapOps_eq_self_iff.mp hbs b hb)
    (fun o ho => h.not_gone_assign (hmem o ho)) fun o ho => gone_of_dropped (hmem o ho)

/-- **What one round comes to** has nothing left to be read through. -/
theorem TempsApart.round (h : bs.TempsApart) :
    bs.readThroughCopies.dropDeadTemps.readThroughCopies = bs.readThroughCopies.dropDeadTemps :=
  h.readThroughCopies.readThroughCopies_dropDeadTemps bs.readThroughCopies_idem

end Blocks

/-! ## Rounds that change nothing -/

/-- A pass that gives a body back, whatever it says about having changed it: a temporary that copies
itself is replaced by itself in every round. -/
def Pass.Keeps (p : Pass) (b : Body) : Prop :=
  ∃ changed, p.run b = .ok (b, changed)

theorem Pass.copies_keeps {b : Body} (h : b.blocks.readThroughCopies = b.blocks) :
    Pass.copies.Keeps b :=
  ⟨b.blocks.readsCopies, by simp only [copies, h]⟩

theorem Pass.deadTemps_again (b : Body) :
    Pass.deadTemps.run { b with blocks := b.blocks.dropDeadTemps }
      = .ok ({ b with blocks := b.blocks.dropDeadTemps }, false) := by
  simp only [deadTemps, Blocks.dropDeadTemps_idem, Blocks.hasDeadTemps_dropDeadTemps]

namespace Lowering

variable {passes : List Pass} {b b₁ : Body}

/-- **If one round comes to a body the passes keep**, so does any number of rounds. -/
theorem repeatRounds_of_keeps {s s₁ : LoweringStats} {changed : Bool}
    (hrun : runAll passes b s = .ok (b₁, s₁, changed)) (h : ∀ p ∈ passes, p.Keeps b₁) (n : Nat) :
    ∃ s', repeatRounds passes (n + 1) b s = .ok (b₁, s') := by
  rw [repeatRounds_succ hrun]
  cases changed with
  | false => exact ⟨_, rfl⟩
  | true =>
    have hpreserves : ∀ p ∈ passes, p.Preserves (· = b₁) := by
      rintro p hp _ rfl
      obtain ⟨changed, hp⟩ := h p hp
      exact ⟨_, changed, hp, rfl⟩
    obtain ⟨_, s', hrounds, rfl⟩ :=
      repeatRounds_preserves hpreserves n rfl { s₁ with rounds := s₁.rounds + 1 }
    exact ⟨s', hrounds⟩

end Lowering

/-- **One round is enough.**  Each of the repeated passes keeps what it comes to.  Of a body with no
variable and no literal under the name of a temporary, one round makes a body that both keep, the
second without saying that it changed it; any number of rounds makes that body, and it is what the
lowering goes on with, whatever the bound on its rounds. -/
theorem Lowering.standard_fixed :
    (∀ p ∈ [Pass.copies, Pass.deadTemps], ∀ b b' changed,
      p.run b = .ok (b', changed) → p.Keeps b') ∧
    ∀ b : Body, b.blocks.TempsApart → ∃ b₀ b₁ changed₀ changed₁,
      Pass.copies.run b = .ok (b₀, changed₀) ∧ Pass.deadTemps.run b₀ = .ok (b₁, changed₁) ∧
      Pass.copies.Keeps b₁ ∧ Pass.deadTemps.run b₁ = .ok (b₁, false) ∧
      ∀ params n, ∃ s, repeatRounds (standard params).passes (n + 1) b {} = .ok (b₁, s) ∧
        { standard params with maxRounds := n + 1 }.run b
          = (runAll [.ssa params] b₁ s).map fun x => (x.1, x.2.1) := by
  constructor
  · intro p hp b b' changed hrun
    rcases List.mem_pair.mp hp with rfl | rfl
    · obtain ⟨rfl, -⟩ := Prod.mk.inj (Except.ok.inj hrun)
      exact Pass.copies_keeps b.blocks.readThroughCopies_idem
    · obtain ⟨rfl, -⟩ := Prod.mk.inj (Except.ok.inj hrun)
      exact ⟨false, Pass.deadTemps_again b⟩
  · intro b h
    refine ⟨_, _, _, _, rfl, rfl, Pass.copies_keeps h.round,
      Pass.deadTemps_again { b with blocks := b.blocks.readThroughCopies }, fun params n => ?_⟩
    have hkeeps : ∀ p ∈ [Pass.copies, Pass.deadTemps], p.Keeps
        { b with blocks := b.blocks.readThroughCopies.dropDeadTemps } := fun p hp => by
      rcases List.mem_pair.mp hp with rfl | rfl
      · exact Pass.copies_keeps h.round
      · exact ⟨false, Pass.deadTemps_again { b with blocks := b.blocks.readThroughCopies }⟩
    obtain ⟨s, hrounds⟩ := repeatRounds_of_keeps (s := {}) rfl hkeeps n
    exact ⟨s, hrounds,
      run_of_repeatRounds (l := { standard params with maxRounds := n + 1 }) hrounds⟩

/-! ## A chain, and a literal under the name of a temporary -/

/-- A copy of a copy of a copy. -/
def chain : Blocks := Table.ofList [
  (entryLabel, ⟨entryLabel, [
    ⟨.synthetic, .define (.const (.int "1")) (.ofId 0)⟩,
    ⟨.synthetic, .assign (.ofTemp (.ofId 0)) (.ofId 1)⟩,
    ⟨.synthetic, .assign (.ofTemp (.ofId 1)) (.ofId 2)⟩,
    ⟨.synthetic, .returnAssign (.ofTemp (.ofId 2)) .result⟩,
    ⟨.synthetic, .jump returnLabel⟩]⟩),
  (returnLabel, ⟨returnLabel, [⟨.synthetic, .jump exitLabel⟩]⟩),
  (exitLabel, ⟨exitLabel, []⟩)]

/-- One round leaves of the chain what its beginning needs, and ten rounds leave no less. -/
theorem chain_fixed : chain.TempsApart ∧ ∃ b₁ s,
    Lowering.repeatRounds [.copies, .deadTemps] 10 ⟨"", .synthetic, chain, none⟩ {} = .ok (b₁, s) ∧
      Pass.copies.Keeps b₁ ∧ b₁.blocks.opsAt entryLabel = [
        ⟨.synthetic, .define (.const (.int "1")) (.ofId 0)⟩,
        ⟨.synthetic, .returnAssign (.ofTemp (.ofId 0)) .result⟩,
        ⟨.synthetic, .jump returnLabel⟩] := by
  have hapart : chain.TempsApart := Blocks.tempsApart_of_isTemp (by decide +kernel)
  obtain ⟨b₀, b₁, _, _, h₀, h₁, hkeeps, -, hrounds⟩ :=
    Lowering.standard_fixed.2 ⟨"", .synthetic, chain, none⟩ hapart
  obtain ⟨s, hs, -⟩ := hrounds [] 9
  refine ⟨hapart, b₁, s, hs, hkeeps, ?_⟩
  obtain ⟨rfl, -⟩ := Prod.mk.inj (Except.ok.inj h₀)
  obtain ⟨rfl, -⟩ := Prod.mk.inj (Except.ok.inj h₁)
  decide +kernel

/-- A copy of a literal, and a temporary nobody reads under the name of the literal. -/
def masking : Blocks := Table.ofList [
  (entryLabel, ⟨entryLabel, [
    ⟨.synthetic, .assign (.literal (.int "5")) (.ofId 0)⟩,
    ⟨.synthetic, .define (.const (.int "1")) ⟨1, "=int=5"⟩⟩,
    ⟨.synthetic, .returnAssign (.ofTemp (.ofId 0)) .result⟩,
    ⟨.synthetic, .jump returnLabel⟩]⟩),
  (returnLabel, ⟨returnLabel, [⟨.synthetic, .jump exitLabel⟩]⟩),
  (exitLabel, ⟨exitLabel, []⟩)]

/-- **A temporary under the name of a literal** ends the copies of the literal, until it is
dropped: a second round changes the body again. -/
theorem masking_round :
    (∀ v t, masking.Uses (.var v) → masking.Uses (.temp t) → v.name ≠ t.name) ∧
    ∃ b₀ b₁ b₂ changed₀ changed₁ changed₂,
      Pass.copies.run ⟨"", .synthetic, masking, none⟩ = .ok (b₀, changed₀) ∧
      Pass.deadTemps.run b₀ = .ok (b₁, changed₁) ∧
      Pass.copies.run b₁ = .ok (b₂, changed₂) ∧ b₂ ≠ b₁ := by
  refine ⟨Blocks.kinds_of_isTemp (by decide +kernel), _, _, _, _, _, _, rfl, rfl, rfl, fun h => ?_⟩
  have hblocks := congrArg (fun b : Body => b.blocks.opsAt entryLabel) h
  revert hblocks
  decide +kernel

end Monomorph
