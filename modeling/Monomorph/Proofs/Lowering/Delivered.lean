import Monomorph.Proofs.Body.Draft
import Monomorph.Proofs.Lowering.Standard

/-!
# Lowering/Delivered — what a builder delivers passes the checks

Reads get other names, definitions are dropped, and versions are made, before anything is checked.
Each pass keeps a body that can be lowered one that can be lowered (`Pass.Works`), and so its
definite assignment; what it drops does not act, so **every block goes on ending with its only
jump** (`Blocks.LowersTo.wellShaped`); and conversion makes of shape and definite assignment just
what the checks look at (`ssa_violations`).

It remains to see that what was written can be lowered.  Of the calls nothing is asked but that the
registers they are given bear base names, and that is what the operations then bear as well
(`Draft.Plain`); the rest is asked of the blocks collected (`Blocks.Collected`).  Of these one thing
more is needed than how blocks other than `exit` end: `exit` is not asked to end with a jump, but a
jump in its middle is found as anywhere else (`strayed_not_delivered`).
-/

namespace Monomorph

open Blocks

/-! ## Base names in, base names out -/

/-- An operand that bears its base name, if it is a register. -/
def Operand.Plain (a : Operand) : Prop :=
  ∀ r ∈ a.register?, r.name = r.base

instance (a : Operand) : Decidable a.Plain :=
  inferInstanceAs (Decidable (∀ r ∈ a.register?, r.name = r.base))

/-- No merge, and no register under any but its base name. -/
def Op.Plain (o : Op) : Prop :=
  o.instr.isMerge = false ∧ ∀ r ∈ o.reads ++ o.writes, r.name = r.base

instance (o : Op) : Decidable o.Plain :=
  inferInstanceAs (Decidable (_ ∧ ∀ r ∈ o.reads ++ o.writes, r.name = r.base))

namespace Builder

/-- **A call given registers under their base names.** -/
def Step.Plain : Step → Prop
  | .emit o => o.Plain
  | .emitNot _ _ _ a _ target => a.Plain ∧ target.name = target.base
  | .emitBranch _ a _ _ _ => a.Plain
  | .emitTypeTest _ target _ _ a => a.Plain ∧ target.name = target.base
  | .emitCall _ _ args _ target => (∀ a ∈ args, a.Plain) ∧ target.name = target.base
  | .reset | .freshTemp | .capturedName _ | .newBlock _ | .activate _ | .finish .. => True

instance : (s : Step) → Decidable s.Plain
  | .emit o => inferInstanceAs (Decidable o.Plain)
  | .emitNot _ _ _ a _ target => inferInstanceAs (Decidable (a.Plain ∧ target.name = target.base))
  | .emitBranch _ a _ _ _ => inferInstanceAs (Decidable a.Plain)
  | .emitTypeTest _ target _ _ a => inferInstanceAs (Decidable (a.Plain ∧ target.name = target.base))
  | .emitCall _ _ args _ target =>
      inferInstanceAs (Decidable ((∀ a ∈ args, a.Plain) ∧ target.name = target.base))
  | .reset | .freshTemp | .capturedName _ | .newBlock _ | .activate _ | .finish .. => isTrue trivial

/-- An operation that only writes temporaries and only reads plain operands is plain. -/
theorem plain_of_operands {p : Position} {i : Instr Operand} (hm : i.isMerge = false)
    (ho : ∀ a ∈ i.operands, a.Plain) (hs : ∀ r ∈ i.slots, r.name = r.base)
    (ht : ∀ r, i.target? = some r → r.name = r.base) : Op.Plain ⟨p, i⟩ := by
  refine ⟨hm, fun r hr => ?_⟩
  rcases List.mem_append.mp hr with hr | hr
  · rcases List.mem_append.mp hr with hr | hr
    · obtain ⟨a, ha, har⟩ := List.mem_filterMap.mp hr
      exact ho a ha r har
    · exact hs r hr
  · exact ht r (Option.mem_toList.mp hr)

theorem plain_ofId (n : UInt32) : (Temp.ofId n).name = (Temp.ofId n).base := rfl

theorem plain_ofTemp (n : UInt32) : Operand.Plain (.ofTemp (.ofId n)) := by
  rintro _ ⟨⟩
  rfl

theorem truthOps_plain {a : Operand} (ha : a.Plain) (p : Position) (strict : Bool) (n : UInt32) :
    (truthOps p strict a n).1.Plain ∧ ∀ o ∈ (truthOps p strict a n).2.1, o.Plain := by
  cases strict with
  | true => exact ⟨ha, by simp [truthOps]⟩
  | false =>
    refine ⟨plain_ofTemp n, fun o ho => ?_⟩
    obtain rfl := List.mem_singleton.mp ho
    refine plain_of_operands rfl (List.forall_mem_singleton.mpr ha) (by simp [Instr.slots]) ?_
    rintro _ ⟨⟩
    exact plain_ofId n

theorem refOps_plain {p : Position} {list : Temp} (hl : list.name = list.base) {listType : String}
    {refs : List (String × String)} {place : Nat} {n next : UInt32} {ops : List Op}
    (h : refOps p list listType place n refs = .ok (ops, next)) : ∀ o ∈ ops, o.Plain := by
  induction refs generalizing place n next ops with
  | nil =>
    obtain ⟨rfl, -⟩ := Prod.mk.inj (Except.ok.inj h)
    simp
  | cons e refs ih =>
    rw [refOps] at h
    split at h
    case isFalse => cases h
    case isTrue =>
      cases hrest : refOps p list listType (place + 1) (n + 1) refs with
      | error f =>
        rw [hrest] at h
        cases h
      | ok w =>
        rw [hrest] at h
        obtain ⟨rfl, -⟩ := Prod.mk.inj (Except.ok.inj h)
        have hload : Op.Plain ⟨p, .define (.fromEphemeral (.temp list) e.2 listType
            (UInt64.ofNat place)) (.ofId n)⟩ := by
          refine plain_of_operands rfl (by simp [Instr.operands, Rhs.operands]) ?_ ?_
          · exact List.forall_mem_singleton.mpr hl
          · rintro _ ⟨⟩
            exact plain_ofId n
        have hstore : Op.Plain ⟨p, .store (.ofTemp (.ofId n)) (.ofBase e.1)⟩ := by
          refine plain_of_operands rfl ?_ (by simp [Instr.slots]) ?_
          · exact List.forall_mem_singleton.mpr (plain_ofTemp n)
          · rintro _ ⟨⟩
            rfl
        exact List.forall_mem_cons.mpr ⟨hload, List.forall_mem_cons.mpr ⟨hstore, ih hrest⟩⟩

theorem callOps_plain {p : Position} {key : String} {args : List Operand} {ret : Returned}
    {target : Temp} {n next : UInt32} {ops : List Op} (ha : ∀ a ∈ args, a.Plain)
    (ht : target.name = target.base) (h : callOps p key args ret target n = .ok (ops, next)) :
    ∀ o ∈ ops, o.Plain := by
  have hcall : ∀ (type : String) (t : Temp), t.name = t.base →
      Op.Plain ⟨p, .define (.call type key args) t⟩ := fun type t hname => by
    refine plain_of_operands rfl ha (by simp [Instr.slots, Rhs.slots]) ?_
    rintro _ ⟨⟩
    exact hname
  rw [callOps] at h
  split at h
  case isTrue =>
    obtain ⟨rfl, -⟩ := Prod.mk.inj (Except.ok.inj h)
    exact List.forall_mem_singleton.mpr (hcall ret.declared target ht)
  case isFalse =>
    dsimp only at h
    cases hrest : refOps p (.ofId n) ret.list ((ret.packBase.map UInt64.toNat).getD 1) (n + 1)
        ret.refs with
    | error f =>
      rw [hrest] at h
      cases h
    | ok w =>
      rw [hrest] at h
      obtain ⟨rfl, -⟩ := Prod.mk.inj (Except.ok.inj h)
      refine List.forall_mem_cons.mpr ⟨hcall _ _ (plain_ofId n),
        List.forall_mem_cons.mpr ⟨?_, refOps_plain (plain_ofId n) hrest⟩⟩
      cases ret.packBase with
      | none =>
        refine plain_of_operands rfl (by simp [Instr.operands, Rhs.operands]) ?_ ?_
        · exact List.forall_mem_singleton.mpr (plain_ofId n)
        · rintro _ ⟨⟩
          exact ht
      | some _ =>
        refine plain_of_operands rfl ?_ (by simp [Instr.slots]) ?_
        · exact List.forall_mem_singleton.mpr (plain_ofTemp n)
        · rintro _ ⟨⟩
          exact ht

/-- **Base names in, base names out.** -/
theorem Step.Plain.writes {s : Step} (hs : s.Plain) {core : String} {n next : UInt32}
    {ops : List Op} (h : s.writes core n = .ok (ops, next)) : ∀ o ∈ ops, o.Plain := by
  cases s with
  | emit o =>
    obtain ⟨rfl, -⟩ := Prod.mk.inj (Except.ok.inj h)
    exact List.forall_mem_singleton.mpr hs
  | emitNot p operator strict a type target =>
    obtain ⟨rfl, -⟩ := Prod.mk.inj (Except.ok.inj h)
    obtain ⟨ha, hops⟩ := truthOps_plain hs.1 p strict n
    refine List.forall_mem_append.mpr ⟨hops, List.forall_mem_singleton.mpr ?_⟩
    refine plain_of_operands rfl (List.forall_mem_singleton.mpr ha)
      (by simp [Instr.slots, Rhs.slots]) ?_
    rintro _ ⟨⟩
    exact hs.2
  | emitBranch p a strict x y =>
    obtain ⟨rfl, -⟩ := Prod.mk.inj (Except.ok.inj h)
    obtain ⟨ha, hops⟩ := truthOps_plain hs p strict n
    refine List.forall_mem_append.mpr ⟨hops, List.forall_mem_singleton.mpr ?_⟩
    exact plain_of_operands rfl (List.forall_mem_singleton.mpr ha) (by simp [Instr.slots])
      (by simp [Instr.target?])
  | emitTypeTest p target type argType a =>
    obtain ⟨rfl, -⟩ := Prod.mk.inj (Except.ok.inj h)
    refine List.forall_mem_singleton.mpr (plain_of_operands rfl ?_ ?_ ?_)
    · split <;> [skip; split] <;> simpa [Instr.operands, Rhs.operands] using hs.1
    · split <;> [skip; split] <;> simp [Instr.slots, Rhs.slots]
    · rintro _ ⟨⟩
      exact hs.2
  | emitCall p key args ret target => exact callOps_plain hs.1 hs.2 h
  | _ =>
    obtain ⟨rfl, -⟩ := Prod.mk.inj (Except.ok.inj h)
    simp

end Builder

namespace Draft

open Builder

/-- Only base names have been written. -/
def Plain (d : Draft) : Prop :=
  ∀ e ∈ d.written, e.2.Plain

variable {d : Draft}

theorem Plain.run (h : d.Plain) {s : Step} (hs : s.Plain) : (d.run s).2.Plain := by
  by_cases hw : s.isWrite = true
  · rw [d.run_eq_writes hw]
    cases hops : s.writes d.core d.nextTemp with
    | error f => exact h
    | ok w =>
      refine List.forall_mem_append.mpr ⟨h, List.forall_mem_map.mpr ?_⟩
      exact hs.writes hops
  · cases s with
    | reset => exact fun e he => by cases he
    | finish file p params =>
      rw [Draft.run]
      split <;> exact fun e he => by cases he
    | activate l =>
      rw [Draft.run]
      split <;> exact h
    | emit | emitNot | emitBranch | emitTypeTest | emitCall => exact absurd rfl hw
    | _ => exact h

theorem Plain.all (h : d.Plain) {steps : List Step} (hs : ∀ s ∈ steps, s.Plain) :
    (Step.all Draft.run d steps).2.Plain := by
  induction steps generalizing d with
  | nil => exact h
  | cons s steps ih =>
    obtain ⟨hfirst, hrest⟩ := List.forall_mem_cons.mp hs
    have hrun := h.run hfirst
    rw [Step.all]
    split
    case h_1 f d' hd => exact (congrArg (·.2.Plain) hd).mp hrun
    case h_2 a d' hd => exact ih ((congrArg (·.2.Plain) hd).mp hrun) hrest

end Draft

/-! ## Blocks keep their shape -/

theorem Op.isTerminator_bare (o : Op) : o.bare.2.isTerminator = o.instr.isTerminator := by
  rw [bare, Instr.plain, Instr.isTerminator_mapTarget, Instr.isTerminator_mapSlots,
    Instr.isTerminator_map]

theorem Block.endsOnce_iff_bare {b : Block} :
    b.EndsOnce ↔ ∀ x ∈ (b.ops.map Op.bare).dropLast, x.2.isTerminator = false := by
  rw [← List.map_dropLast, List.forall_mem_map]
  simp only [Op.isTerminator_bare]
  rfl

/-- **A block ends with a jump** if and only if it leads somewhere. -/
theorem Block.isSome_terminator? {b : Block} : b.terminator?.isSome = true ↔ b.successors ≠ [] := by
  have leads : ∀ i : Instr Operand, i.isTerminator = true → i.labels ≠ [] := by
    intro i hi
    cases i <;> simp_all [Instr.isTerminator, Instr.labels]
  rw [successors]
  cases hb : b.terminator? with
  | none => simp
  | some o => simpa using leads o.instr (terminator?_eq_some.mp hb).2

namespace Blocks

variable {bs bs' : Blocks} {params : List String}

/-- Where there is no merge, a sketch has all operations. -/
theorem sketch_eq {l : String} {b : Block} (hb : bs.get? l = some b)
    (hm : ∀ o ∈ bs.allOps, o.instr.isMerge = false) : bs.sketch l = b.ops.map Op.bare := by
  rw [sketch, opsAt_of_get? hb, List.filter_eq_self.mpr]
  intro o ho
  rw [hm o (mem_allOps.mpr ⟨l, b, hb, ho⟩)]
  rfl

theorem sublist_dropLast {α : Type} {l l' : List α} (h : l'.Sublist l) :
    l'.dropLast.Sublist l.dropLast := by
  rw [← List.reverse_sublist, ← List.tail_reverse, ← List.tail_reverse]
  exact (List.reverse_sublist.mpr h).tail

/-- **Passes leave the shape of a body as it is**: no jump comes to stand before another operation,
and a block that leads somewhere goes on leading there. -/
theorem LowersTo.wellShaped (h : LowersTo params bs bs')
    (hm : ∀ o ∈ bs.allOps, o.instr.isMerge = false) (hw : bs.WellShaped) : bs'.WellShaped := by
  have back : ∀ {l b'}, bs'.get? l = some b' → ∃ b, bs.get? l = some b := fun hb' =>
    Table.contains_iff.mp ((h.graph.contains _).symm.trans (Table.contains_of_get? hb'))
  refine ⟨fun l hl => (h.graph.contains l).trans (hw.fixed l hl), fun l b' hb' => ?_,
    fun l b' hb' hl => ?_⟩
  · obtain ⟨b, hb⟩ := back hb'
    have hsub := h.trims.sublist l
    rw [sketch_eq hb hm, sketch_eq hb' h.lowerable.noMerge] at hsub
    rw [Block.endsOnce_iff_bare]
    intro x hx
    exact Block.endsOnce_iff_bare.mp (hw.once l b hb) x ((sublist_dropLast hsub).subset hx)
  · obtain ⟨b, hb⟩ := back hb'
    have hleads := Block.isSome_terminator?.mp (hw.ends l b hb hl)
    rw [Block.isSome_terminator?, ← successors_of_get? hb', h.graph.successors,
      successors_of_get? hb]
    exact hleads

end Blocks

/-- **The standard lowering of a well-shaped body passes the checks.** -/
theorem Lowering.standard_passes {b : Body} {params : List String}
    (h : b.blocks.Lowerable params) (hw : b.blocks.WellShaped) :
    ∃ b' stats, (standard params).run b = .ok (b', stats) ∧ b'.violations params = [] := by
  have hworks : ∀ p ∈ [Pass.copies, Pass.deadTemps], p.Works params := by
    simp [Pass.copies_works, Pass.deadTemps_works]
  have hs : b.blocks.Settled := fun l c hc => (hw.once l c hc).settled
  obtain ⟨b₁, s₁, hrun, h₁⟩ := repeatRounds_works hworks 10 h hs {}
  obtain ⟨bs', changed, out, hssa, hconv⟩ := toSsa_eq_ok h₁.lowerable.toConvertible
  refine ⟨_, _, run_standard hrun hssa, hconv.violations_eq_nil h₁.lowerable.toConvertible ?_
    h₁.lowerable.assigned rfl⟩
  exact h₁.toLowersTo.wellShaped h.noMerge hw

/-! ## What is asked of the blocks collected -/

namespace Blocks

/-- **What has to hold of the blocks collected**: but for the last, they end with their only jump;
jumps lead to blocks there are, and never back; a variable is told by its name from temporaries, and
variables and parameters from versions of other names; and what is read is assigned on every way. -/
structure Collected (bs : Blocks) (params : List String) : Prop where
  once : ∀ l b, bs.get? l = some b → l ≠ exitLabel → b.EndsOnce
  ends : ∀ l b, bs.get? l = some b → l ≠ exitLabel → b.terminator?.isSome = true
  targets : ∀ o ∈ bs.allOps, ∀ k ∈ o.instr.labels, bs.contains k = true
  acyclic : bs.Acyclic
  kinds : ∀ v t, bs.Uses (.var v) → bs.Uses (.temp t) → v.name ≠ t.name
  apart : ∀ x, (x ∈ params ∨ ∃ v, bs.Uses (.var v) ∧ v.base = x) → ∀ c, bs.Mentions params c →
    ∀ n : Nat, x ≠ c ++ "$" ++ toString n
  assigned : bs.DefinitelyAssigned params

variable {bs : Blocks} {params : List String}

theorem Collected.closed (h : bs.Collected params) : bs.Closed := by
  intro u v hv
  rw [successors] at hv
  split at hv
  case h_1 b hb =>
    rw [Block.successors] at hv
    split at hv
    case h_1 o ho =>
      have hlast := (Block.terminator?_eq_some.mp ho).1
      exact h.targets o (mem_allOps.mpr ⟨u, b, hb, List.mem_of_getLast? hlast⟩) v hv
    case h_2 => simp at hv
  case h_2 => simp at hv

/-- The name of a temporary is no version of any name. -/
theorem temp_base_ne (t : Temp) (c : String) (n : Nat) : t.base ≠ c ++ "$" ++ toString n := by
  intro h
  have hdollar : '$' ∈ t.base.toList := by rw [h]; simp
  have hdigits : ∀ x ∈ (toString t.id.toNat).toList, x.isDigit = true := fun x hx => by
    rw [show toString t.id.toNat = t.id.toNat.repr from rfl, Nat.toList_repr] at hx
    exact Nat.isDigit_of_mem_toDigits (by decide) (by decide) hx
  rw [Temp.base, String.toList_append, List.mem_append] at hdollar
  rcases hdollar with hd | hd
  · exact absurd hd (by decide)
  · exact absurd (hdigits '$' hd) (by decide)

/-- **What was collected can be lowered**, if only base names were written and no merges. -/
theorem Collected.lowerable (h : bs.Collected params) (hp : ∀ o ∈ bs.allOps, o.Plain) :
    bs.Lowerable params where
  noMerge o ho := (hp o ho).1
  unversioned o ho := (hp o ho).2
  closed := h.closed
  acyclic := h.acyclic
  kinds := h.kinds
  assigned := h.assigned
  apart b c hb hc n := by
    rcases hb with hb | ⟨o, ho, r, hr, rfl⟩
    · exact h.apart b (.inl hb) c hc n
    · cases r with
      | temp t => exact temp_base_ne t c n
      | var v => exact h.apart v.base (.inr ⟨v, ⟨o, ho, hr⟩, rfl⟩) c hc n

/-- Of given blocks all of it can be computed. -/
theorem collected_of_checks (rank : String → Nat)
    (hends : ∀ e ∈ bs.entries, e.1 ≠ exitLabel → e.2.EndsOnce ∧ e.2.terminator?.isSome = true)
    (htargets : ∀ o ∈ bs.allOps, ∀ k ∈ o.instr.labels, bs.contains k = true)
    (hrank : ∀ u ∈ bs.keys, ∀ v ∈ bs.successors u, rank u < rank v)
    (hkinds : ∀ o ∈ bs.allOps, ∀ r ∈ o.reads ++ o.writes, ∀ o' ∈ bs.allOps,
      ∀ r' ∈ o'.reads ++ o'.writes, r.name = r'.name → r.isTemp = r'.isTemp)
    (hapart : ∀ b ∈ bs.names params, ∀ c ∈ bs.names params, ¬ (c.toList ++ ['$']) <+: b.toList)
    (hd : bs.DefinitelyAssigned params) : bs.Collected params where
  once l b hb hl := (hends (l, b) (Table.mem_entries.mpr hb) hl).1
  ends l b hb hl := (hends (l, b) (Table.mem_entries.mpr hb) hl).2
  targets := htargets
  acyclic := acyclic_of_rank rank hrank
  kinds := kinds_of_isTemp hkinds
  assigned := hd
  apart x hx c hc n := by
    have apart : Apart (bs.Mentions params) := apart_of_not_prefix fun b c hb hc =>
      hapart b (mentions_iff.mp hb) c (mentions_iff.mp hc)
    refine apart x c ?_ hc n
    rcases hx with hx | ⟨v, ⟨o, ho, hv⟩, rfl⟩
    · exact .inl hx
    · exact .inr ⟨o, ho, _, hv, rfl⟩

theorem Collected.wellShaped (h : bs.Collected params)
    (hf : ∀ l ∈ [entryLabel, returnLabel, exitLabel], bs.contains l = true)
    (hx : ∀ b, bs.get? exitLabel = some b → b.EndsOnce) : bs.WellShaped where
  fixed := hf
  once l b hb := by
    by_cases hl : l = exitLabel
    · exact hx b (hl ▸ hb)
    · exact h.once l b hb hl
  ends := h.ends

end Blocks

namespace Builder

variable {b : Builder} {d : Draft}

theorem Keeps.contains_fixed (h : b.Keeps d) {l : String} (hl : l ∈ d.fixed) :
    b.allBlocks.contains l = true := by
  rw [h.allBlocks, Draft.contains_blocks]
  exact List.mem_append_left _ hl

/-- An empty `entry` ends with no jump, so it is not what was collected. -/
theorem Keeps.not_collected (h : b.Keeps d.emptied) {params : List String} :
    ¬ b.allBlocks.Collected params := by
  intro hc
  have hentry : b.allBlocks.get? entryLabel = some ⟨entryLabel, []⟩ := by
    rw [h.allBlocks, Draft.get?_blocks]
    rfl
  have := hc.ends entryLabel _ hentry (by decide)
  cases this

theorem Keeps.plain (h : b.Keeps d) (hd : d.Plain) : ∀ o ∈ b.allBlocks.allOps, o.Plain := by
  intro o ho
  obtain ⟨l, c, hc, ho⟩ := mem_allOps.mp ho
  rw [h.allBlocks, Draft.get?_blocks] at hc
  split at hc
  case isTrue =>
    obtain rfl := Option.some.inj hc
    obtain ⟨e, he, rfl⟩ := List.mem_map.mp ho
    exact hd e (List.mem_of_mem_filter he)
  case isFalse => cases hc

/-- **A builder delivers bodies that pass the checks.**  Whatever was written, in whatever order and
into whatever blocks: if registers were passed under their base names, if the blocks collected are as
they have to be, and if nothing in `exit` jumps before its end, then a body comes out, and nothing
is wrong with it. -/
theorem delivers (core : String) (steps : List Step) (hs : ∀ s ∈ steps, s.Plain)
    (params : List String)
    (h : (Step.all Builder.run (new core) steps).2.allBlocks.Collected (Listing.distinct params))
    (hx : ∀ b, (Step.all Builder.run (new core) steps).2.allBlocks.get? exitLabel = some b →
      b.EndsOnce) (file : String) (p : Position) :
    ∃ body, (Step.all Builder.run (new core) steps).2.finish file p params = .ok body ∧
      body.violations (Listing.distinct params) = [] := by
  have hkeeps := ((Keeps.new core).all steps).2
  have hplain := hkeeps.plain (Draft.Plain.all (d := .new core) (by simp [Draft.Plain, Draft.new]) hs)
  have hfixed : (Step.all Draft.run (.new core) steps).2.fixed =
      [entryLabel, returnLabel, exitLabel] := by
    refine (Draft.fixed_all (d := .new core) rfl steps).resolve_right ?_
    rintro ⟨d, hd⟩
    exact (hd ▸ hkeeps).not_collected h
  obtain ⟨body, stats, hrun, hpass⟩ := Lowering.standard_passes
    (b := ⟨file, p, (Step.all Builder.run (new core) steps).2.allBlocks, none⟩)
    (h.lowerable hplain) (h.wellShaped (fun _ hl => hkeeps.contains_fixed (hfixed ▸ hl)) hx)
  refine ⟨body, ?_, hpass⟩
  rw [finish, hrun]
  rfl

/-- `x = 1; if p then x = x`, and `x` returned: the calls that write it. -/
def gated : List Step := [
  .emit ⟨.synthetic, .store (.literal (.int "1")) (.ofBase "x")⟩,
  .newBlock "then",
  .emitBranch .synthetic (.ofVar (.ofBase "p")) false "then_3" returnLabel,
  .activate "then_3",
  .emit ⟨.synthetic, .assign (.ofVar (.ofBase "x")) (.ofId 1)⟩,
  .emit ⟨.synthetic, .store (.ofTemp (.ofId 1)) (.ofBase "x")⟩,
  .emit ⟨.synthetic, .jump returnLabel⟩,
  .activate returnLabel,
  .emit ⟨.synthetic, .returnAssign (.ofVar (.ofBase "x")) .result⟩,
  .emit ⟨.synthetic, .jump exitLabel⟩]

/-- The blocks of `gated`. -/
def gatedBlocks : Blocks := (Step.all Builder.run (new "NSCore") gated).2.allBlocks

theorem gated_collected : gatedBlocks.Collected (Listing.distinct ["p"]) :=
  collected_of_checks (fun l => ["entry", "then_3", "returnassign", "exit"].idxOf l)
    (by decide +kernel) (by decide +kernel) (by decide +kernel) (by decide +kernel)
    (by decide +kernel)
    (definitelyAssigned_of_known (fun l => if l = entryLabel then ["p"] else ["x"])
      (by decide +kernel) (by decide +kernel) (by decide +kernel))

theorem gated_delivered : (∀ s ∈ gated, s.Plain) ∧
    gatedBlocks.Collected (Listing.distinct ["p"]) ∧
    (∀ b, gatedBlocks.get? exitLabel = some b → b.EndsOnce) ∧
    ∃ body, (Step.all Builder.run (new "NSCore") gated).2.finish "" .synthetic ["p"] = .ok body ∧
      body.violations (Listing.distinct ["p"]) = [] := by
  have hplain : ∀ s ∈ gated, s.Plain := by decide +kernel
  have hexit : ∀ b, gatedBlocks.get? exitLabel = some b → b.EndsOnce := by
    have : gatedBlocks.get? exitLabel = some ⟨exitLabel, []⟩ := by decide +kernel
    rw [this]
    rintro _ ⟨⟩
    decide
  exact ⟨hplain, gated_collected, hexit,
    delivers "NSCore" gated hplain ["p"] gated_collected hexit "" .synthetic⟩

/-! ## A jump in the middle of `exit` -/

/-- Control goes from `entry` by `returnassign` to `exit`, which does not end with its jump. -/
def strayed : List Step := [
  .emit ⟨.synthetic, .jump returnLabel⟩,
  .activate returnLabel,
  .emit ⟨.synthetic, .jump exitLabel⟩,
  .activate exitLabel,
  .emit ⟨.synthetic, .jump returnLabel⟩,
  .emit ⟨.synthetic, .debug none⟩]

/-- The blocks of `strayed`. -/
def strayedBlocks : Blocks := (Step.all Builder.run (new "NSCore") strayed).2.allBlocks

theorem strayed_collected : strayedBlocks.Collected (Listing.distinct []) :=
  collected_of_checks (fun l => ["entry", "returnassign", "exit"].idxOf l)
    (by decide +kernel) (by decide +kernel) (by decide +kernel) (by decide +kernel)
    (by decide +kernel)
    (definitelyAssigned_of_known (fun _ => []) (by decide +kernel) (by decide +kernel)
      (by decide +kernel))

/-- **A jump in the middle of `exit` is found**, though the blocks collected are as they have to
be. -/
theorem strayed_not_delivered : (∀ s ∈ strayed, s.Plain) ∧
    strayedBlocks.Collected (Listing.distinct []) ∧
    ∃ body, (Step.all Builder.run (new "NSCore") strayed).2.finish "" .synthetic [] = .ok body ∧
      body.violations (Listing.distinct []) ≠ [] := by
  have hplain : ∀ s ∈ strayed, s.Plain := by decide +kernel
  have hrounds : (Lowering.repeatRounds [.copies, .deadTemps] 10
      ⟨"", .synthetic, strayedBlocks, none⟩ {}).toOption.map (fun x => x.1.blocks)
        = some strayedBlocks := by decide +kernel
  have hops : ∀ o ∈ strayedBlocks.allOps, o.Plain := by decide +kernel
  have hconv := (strayed_collected.lowerable hops).toConvertible
  have hexit : strayedBlocks.get? exitLabel = some ⟨exitLabel,
      [⟨.synthetic, .jump returnLabel⟩, ⟨.synthetic, .debug none⟩]⟩ := by decide +kernel
  refine ⟨hplain, strayed_collected, ?_⟩
  cases hrun : Lowering.repeatRounds [.copies, .deadTemps] 10
      ⟨"", .synthetic, strayedBlocks, none⟩ {} with
  | error f =>
    rw [hrun] at hrounds
    cases hrounds
  | ok x =>
    rw [hrun] at hrounds
    have hblocks : x.1.blocks = strayedBlocks := Option.some.inj hrounds
    rw [← hblocks] at hconv hexit
    obtain ⟨bs', changed, out, hssa, h⟩ := toSsa_eq_ok hconv
    have hlowered : (Lowering.standard (Listing.distinct [])).run ⟨"", .synthetic,
        (Step.all Builder.run (new "NSCore") strayed).2.allBlocks, none⟩ = _ :=
      Lowering.run_standard hrun hssa
    refine ⟨{ x.1 with blocks := bs' }, ?_, fun hpass => ?_⟩
    · rw [finish, hlowered]
      rfl
    · have hshape := (Blocks.wellShaped_iff (h.sameGraph.closed hconv.closed)).mpr
        (Body.violations_eq_nil.mp hpass).1.1
      exact absurd ((h.wellShaped_iff.mp hshape).once exitLabel _ hexit) (by decide)

end Builder

end Monomorph
