import Monomorph.Proofs.Lowering.Copies
import Monomorph.Proofs.Lowering.DeadTemps
import Monomorph.Proofs.Lowering.Rounds
import Monomorph.Proofs.Ssa.Verified

/-!
# Lowering/Standard — the standard lowering preserves meaning

Each repeated pass turns a body that can be lowered into one that can be lowered further and does
the same (`Pass.Works`); so do any number of rounds of such passes.  Conversion comes last: stores
then no longer agree name by name, but every event is the same.  **From the same parameters a body
and its lowering visit the same blocks and act the same** (`standard_run`).
-/

namespace Monomorph

open Blocks

/-! ## Rounds of passes -/

/-- What a pass makes of a body, its place kept. -/
structure Body.LowersTo (params : List String) (b b' : Body) : Prop extends
    Blocks.LowersTo params b.blocks b'.blocks where
  file : b'.file = b.file
  position : b'.position = b.position

theorem Body.LowersTo.trans {params : List String} {b b' b'' : Body} (h : b.LowersTo params b')
    (h' : b'.LowersTo params b'') : b.LowersTo params b'' where
  toLowersTo := h.toLowersTo.trans h'.toLowersTo
  file := h'.file.trans h.file
  position := h'.position.trans h.position

/-- A pass that does its work on every body that can be lowered. -/
def Pass.Works (params : List String) (p : Pass) : Prop :=
  ∀ b : Body, b.blocks.Lowerable params → b.blocks.Settled →
    ∃ b' changed, p.run b = .ok (b', changed) ∧ b.LowersTo params b'

theorem Pass.copies_works (params : List String) : Pass.copies.Works params := fun _ h hs =>
  ⟨_, _, rfl, ⟨lowersTo_readThroughCopies h hs, rfl, rfl⟩⟩

theorem Pass.deadTemps_works (params : List String) : Pass.deadTemps.Works params := fun _ h hs =>
  ⟨_, _, rfl, ⟨lowersTo_dropDeadTemps h hs, rfl, rfl⟩⟩

namespace Lowering

variable {params : List String} {passes : List Pass}

/-- **Any number of rounds.** -/
theorem repeatRounds_works (hp : ∀ p ∈ passes, p.Works params) (n : Nat) {b : Body}
    (h : b.blocks.Lowerable params) (hs : b.blocks.Settled) (s : LoweringStats) :
    ∃ b' s', repeatRounds passes n b s = .ok (b', s') ∧ b.LowersTo params b' := by
  have hpreserves : ∀ p ∈ passes, p.Preserves (b.LowersTo params) := fun p hmem b₁ h₁ => by
    obtain ⟨b₂, changed, hrun, h₂⟩ := hp p hmem b₁ h₁.lowerable h₁.settled
    exact ⟨b₂, changed, hrun, h₁.trans h₂⟩
  exact repeatRounds_preserves hpreserves n ⟨.refl h hs, rfl, rfl⟩ s

/-- The standard lowering is ten rounds at most, and conversion. -/
theorem run_standard {b b₁ : Body} {s : LoweringStats} {bs' : Blocks} {changed : Bool}
    (h : repeatRounds [.copies, .deadTemps] 10 b {} = .ok (b₁, s))
    (h' : b₁.blocks.toSsa params = .ok (bs', changed)) : (standard params).run b
      = .ok ({ b₁ with blocks := bs' }, if changed then s.count "ssa_conversion" else s) := by
  rw [run_of_repeatRounds (l := standard params) h]
  simp only [standard, runAll, Pass.ssa, h', bind, Except.bind]
  rfl

end Lowering

/-! ## Conversion at the end -/

theorem Versions.Turns.bare {v u : Versions} {o o' : Op} (h : Turns v o o' u) :
    o'.bare = o.bare := by
  have hrewrite : (v.rewrite o).bare = o.bare := by
    rw [Op.bare, Op.bare, rewrite, Op.mapInstr, ← Instr.mapSlots_map,
      Instr.plain_mapSlots _ (by rfl), Instr.map_map]
  cases h with
  | quiet => exact hrewrite
  | define =>
    rw [← hrewrite, Op.bare, Op.bare, Op.named, Op.mapInstr, ← Instr.mapTarget_map,
      Instr.plain_mapTarget _ (by rfl)]

theorem Versions.Row.map_bare {v v' : Versions} {ops ops' : List Op} (h : Row v ops ops' v') :
    ops'.map Op.bare = ops.map Op.bare := by
  induction h with
  | nil => rfl
  | cons ht _ ih => rw [List.map_cons, List.map_cons, ht.bare, ih]

namespace Blocks.Converted

variable {bs bs' : Blocks} {params : List String} {out : Table Versions}

/-- Conversion leaves every operation where it is, and adds merges. -/
theorem trims (h : Converted bs bs' params out) (hc : bs.Convertible params) : Trims bs bs' := by
  have hsketch : ∀ l, bs'.sketch l = bs.sketch l := by
    intro l
    rw [sketch, sketch]
    cases hb : bs.get? l with
    | none =>
      have hb' : bs'.get? l = none := by
        rw [← Table.contains_eq_false, h.labels, Table.contains_eq_false, hb]
      rw [opsAt, opsAt, hb, hb']
    | some b =>
      obtain ⟨start, phis, ops, atEnd, hget, hphi, hrow, -⟩ := h.block l b hb
      have hraw : ∀ o ∈ b.ops, o.instr.isMerge = false := fun o ho =>
        hc.noMerge o (mem_allOps.mpr ⟨l, b, hb, ho⟩)
      have hphis : (phis.filter fun o => !o.instr.isMerge) = [] :=
        List.filter_eq_nil_iff.mpr fun o ho => by simp [hphi o ho]
      have hops : (ops.filter fun o => !o.instr.isMerge) = ops :=
        List.filter_eq_self.mpr fun o ho => by simp [hrow.noMerge hraw o ho]
      have hall : (b.ops.filter fun o => !o.instr.isMerge) = b.ops :=
        List.filter_eq_self.mpr fun o ho => by simp [hraw o ho]
      rw [opsAt_of_get? hget, opsAt_of_get? hb, List.filter_append, hphis, hops, hall,
        List.nil_append, hrow.map_bare]
  exact ⟨fun l => hsketch l ▸ .refl _, fun l => by rw [hsketch]⟩

/-- **A converted body does as the body did**, from stores that agree on the parameters. -/
theorem follows (h : Converted bs bs' params out) (hc : bs.Convertible params)
    (hd : bs.DefinitelyAssigned params) {V : Type} (m : Meaning V) {s s' : Running V}
    (hv : ∀ p ∈ params, s'.store p = s.store p) (hp : s'.past = s.past) :
    Follows m bs bs' s s' where
  graph := h.sameGraph
  begins := by rw [hp]
  acting before l hway := by
    obtain ⟨_, _, _, v, -, -, -, hout, -⟩ := h.of_reachable hway.reachable
    rw [(h.holds_along m hc hd hv hp hway hout).2]

end Blocks.Converted

/-! ## The standard lowering -/

/-- **The standard lowering preserves meaning.**  From stores that agree on the parameters, whatever
the operations mean — as long as an assignment copies, and what may be dropped leaves no trace — a
body and its lowering visit the same blocks, with the same acting events in the same order.  The
graph and the body's place stay as they are, and every block keeps its operations in their order but
for some that do not act. -/
theorem standard_run {b : Body} {params : List String} (h : b.blocks.Lowerable params)
    (hs : b.blocks.Settled) : ∃ b' stats, (Lowering.standard params).run b = .ok (b', stats) ∧
      b'.file = b.file ∧ b'.position = b.position ∧ SameGraph b.blocks b'.blocks ∧
      Trims b.blocks b'.blocks ∧
      ∀ {V : Type} (m : Meaning V), m.Lawful → ∀ σ σ' : Store V, (∀ p ∈ params, σ' p = σ p) →
        ∀ n, (m.execute b'.blocks n none ⟨σ', []⟩ entryLabel).1
            = (m.execute b.blocks n none ⟨σ, []⟩ entryLabel).1 ∧
          acting (m.execute b'.blocks n none ⟨σ', []⟩ entryLabel).2.past
            = acting (m.execute b.blocks n none ⟨σ, []⟩ entryLabel).2.past := by
  have hworks : ∀ p ∈ [Pass.copies, Pass.deadTemps], p.Works params := by
    simp [Pass.copies_works, Pass.deadTemps_works]
  obtain ⟨b₁, s₁, hrun, h₁⟩ := Lowering.repeatRounds_works hworks 10 h hs {}
  obtain ⟨bs', changed, out, hssa, hconv⟩ := toSsa_eq_ok h₁.lowerable.toConvertible
  refine ⟨_, _, Lowering.run_standard hrun hssa, h₁.file, h₁.position,
    h₁.graph.trans hconv.sameGraph, h₁.trims.trans (hconv.trims h₁.lowerable.toConvertible),
    fun m hm σ σ' hσ n => ?_⟩
  have hv : ∀ p ∈ params, (Running.mk σ' []).store p = (Running.mk σ []).store p := hσ
  have hfollows := (h₁.follows m hm ⟨σ, []⟩).trans
    (hconv.follows h₁.lowerable.toConvertible h₁.lowerable.assigned m hv rfl)
  exact hfollows.execute hm h.closed n

theorem diamond_lowerable : diamond.Lowerable ["p"] where
  toConvertible := diamond_convertible
  kinds := kinds_of_isTemp (by decide +kernel)
  assigned := diamond_definitelyAssigned

/-- The diamond and its lowering, one operation to be understood as the number of those before. -/
theorem diamond_run : diamond.Lowerable ["p"] ∧ diamond.Settled ∧ ∃ b' stats,
    (Lowering.standard ["p"]).run ⟨"", .synthetic, diamond, none⟩ = .ok (b', stats) ∧
      (Meaning.execute ⟨fun _ => 0, fun _ e => if let .assign a _ := e.instr then a else 7,
          fun _ _ => true⟩ b'.blocks 4 none ⟨fun n => n.length, []⟩ entryLabel).1
        = (Meaning.execute ⟨fun _ => 0, fun _ e => if let .assign a _ := e.instr then a else 7,
          fun _ _ => true⟩ diamond 4 none ⟨fun _ => 1, []⟩ entryLabel).1 := by
  have hs : diamond.Settled := settled_of_endsOnce (by decide +kernel)
  obtain ⟨b', stats, hrun, -, -, -, -, h⟩ :=
    standard_run (b := ⟨"", .synthetic, diamond, none⟩) diamond_lowerable hs
  refine ⟨diamond_lowerable, hs, b', stats, hrun, (h _ ⟨?_, ?_, ?_⟩ _ _ ?_ 4).1⟩
  · rintro past ⟨p, i, slots⟩ a t rfl
    rfl
  · exact fun _ _ _ _ => rfl
  · exact fun _ _ _ _ => rfl
  · decide +kernel

/-! ## A jump that nothing acts after

Without `Settled` the lowering can change where a block leads. -/

/-- A jump, and after it a temporary nobody reads: control does not leave this block. -/
def stray : Blocks := Table.ofList [
  (entryLabel, ⟨entryLabel, [
    ⟨.synthetic, .jump exitLabel⟩,
    ⟨.synthetic, .define (.const (.int "1")) (.ofId 0)⟩]⟩),
  (returnLabel, ⟨returnLabel, [⟨.synthetic, .jump exitLabel⟩]⟩),
  (exitLabel, ⟨exitLabel, []⟩)]

theorem stray_lowerable : stray.Lowerable [] where
  toConvertible := convertible_of_checks (fun l => ["entry", "returnassign", "exit"].idxOf l)
    (by decide +kernel) (by decide +kernel) (by decide +kernel) (by decide +kernel)
    (by decide +kernel)
  kinds := kinds_of_isTemp (by decide +kernel)
  assigned := definitelyAssigned_of_known (fun _ => []) (by decide +kernel) (by decide +kernel)
    (by decide +kernel)

/-- **What a lowering drops may uncover a jump**: the block then leads where it did not lead. -/
theorem stray_run : stray.Lowerable [] ∧ stray.successors entryLabel = [] ∧ ∃ b' stats,
    (Lowering.standard []).run ⟨"", .synthetic, stray, none⟩ = .ok (b', stats) ∧
      b'.blocks.successors entryLabel = [exitLabel] := by
  refine ⟨stray_lowerable, by decide +kernel, ?_⟩
  have hrounds : (Lowering.repeatRounds [.copies, .deadTemps] 10 ⟨"", .synthetic, stray, none⟩
      {}).toOption.map (fun x => x.1.blocks) = some stray.sweep := by decide +kernel
  have hconv : stray.sweep.Convertible [] :=
    convertible_of_checks (fun l => ["entry", "returnassign", "exit"].idxOf l) (by decide +kernel)
      (by decide +kernel) (by decide +kernel) (by decide +kernel) (by decide +kernel)
  have hsucc : stray.sweep.successors entryLabel = [exitLabel] := by decide +kernel
  cases hrun : Lowering.repeatRounds [.copies, .deadTemps] 10 ⟨"", .synthetic, stray, none⟩ {} with
  | error f =>
    rw [hrun] at hrounds
    cases hrounds
  | ok x =>
    rw [hrun] at hrounds
    have hblocks : x.1.blocks = stray.sweep := Option.some.inj hrounds
    rw [← hblocks] at hconv hsucc
    obtain ⟨bs', changed, out, hssa, h⟩ := toSsa_eq_ok hconv
    exact ⟨_, _, Lowering.run_standard hrun hssa, (h.sameGraph.successors _).trans hsucc⟩

end Monomorph
