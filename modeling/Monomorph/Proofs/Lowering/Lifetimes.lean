import Mathlib.Data.List.Induction
import Monomorph.Body.Lowering
import Monomorph.Proofs.Lowering.Copies

/-!
# Lowering/Lifetimes — a copy read late is a local read late

Markers begin and end the lifetime of a local; they are neither read nor written, so a copy of a
local outlives the local.  Reading through copies keeps every marker where it is and replaces a
temporary by what it stands for (`StandsFor`): where the temporary was read after the end of the
local, the local now is.  **Nothing else can go wrong** (`Blocks.timely_readThroughCopies`): a local
read past its lifetime was read so before, or a temporary that stands for it was.
-/

namespace Monomorph

/-! ## Lifetimes -/

/-- The local whose lifetime an operation begins (`true`) or ends (`false`). -/
def Op.marks? (o : Op) : Option (String × Bool) :=
  match o.instr with
  | .lifetimeStart n _ => some (n, true)
  | .lifetimeEnd n => some (n, false)
  | _ => none

/-- After these operations the lifetime of a local is over, and not begun again. -/
def Over (ops : List Op) (n : String) : Prop :=
  ∃ earlier o later, ops = earlier ++ o :: later ∧ o.marks? = some (n, false) ∧
    ∀ x ∈ later, x.marks? ≠ some (n, true)

/-- **Lifetimes are read off the markers alone.** -/
theorem Over.congr {ops ops' : List Op} {n : String} (h : Over ops n)
    (heq : ops'.map Op.marks? = ops.map Op.marks?) : Over ops' n := by
  obtain ⟨earlier, o, later, rfl, ho, hlater⟩ := h
  rw [List.map_append, List.map_cons] at heq
  obtain ⟨earlier', rest, rfl, -, hrest⟩ := List.map_eq_append_iff.mp heq
  obtain ⟨o', later', rfl, ho', hlater'⟩ := List.map_eq_cons_iff.mp hrest
  refine ⟨earlier', o', later', rfl, ho'.trans ho, fun x hx hmark => ?_⟩
  obtain ⟨y, hy, hyx⟩ := List.mem_map.mp (hlater' ▸ List.mem_map_of_mem hx :
    x.marks? ∈ later.map Op.marks?)
  exact hlater y hy (hyx.trans hmark)

theorem over_congr {ops ops' : List Op} {n : String}
    (heq : ops'.map Op.marks? = ops.map Op.marks?) : Over ops' n ↔ Over ops n :=
  ⟨fun h => h.congr heq.symm, fun h => h.congr heq⟩

namespace Blocks

/-- Control can come to an operation, by way of the blocks listed and then of these operations of
its own block. -/
def Comes (bs : Blocks) (way : List String) (earlier : List Op) (o : Op) : Prop :=
  ∃ l later, bs.Path way l ∧ bs.opsAt l = earlier ++ o :: later

/-- What has run on a way through blocks and on into one. -/
def ranOn (bs : Blocks) (way : List String) (earlier : List Op) : List Op :=
  way.flatMap bs.opsAt ++ earlier

/-- **No local is read past its lifetime**, whichever way control has come. -/
def Timely (bs : Blocks) : Prop :=
  ∀ way earlier o, bs.Comes way earlier o → ∀ v, .var v ∈ o.reads →
    ¬ Over (bs.ranOn way earlier) v.base

end Blocks

/-! ## What a temporary stands for -/

/-- **After a row of operations the temporary of a name stands for a variable**: it was assigned the
variable, or a temporary that stood for it, and neither has been written since. -/
inductive StandsFor : List Op → String → Var → Prop
  | copied {earlier : List Op} {o : Op} {v : Var} {t : Temp} (ho : o.instr = .assign (.ofVar v) t) :
      StandsFor (earlier ++ [o]) t.name v
  | passed {earlier : List Op} {o : Op} {v : Var} {s t : Temp}
      (ho : o.instr = .assign (.ofTemp s) t) (h : StandsFor earlier s.name v) :
      StandsFor (earlier ++ [o]) t.name v
  | kept {earlier : List Op} {o : Op} {n : String} {v : Var} (h : StandsFor earlier n v)
      (ho : ∀ r ∈ o.writes, n ≠ r.name ∧ v.name ≠ r.name) : StandsFor (earlier ++ [o]) n v

/-- What a temporary stands for after one operation more. -/
theorem standsFor_concat {earlier : List Op} {o : Op} {n : String} {v : Var} :
    StandsFor (earlier ++ [o]) n v ↔
      (∃ a t, o.instr = .assign a t ∧ t.name = n ∧
        (a = .ofVar v ∨ ∃ s, a = .ofTemp s ∧ StandsFor earlier s.name v)) ∨
      StandsFor earlier n v ∧ ∀ r ∈ o.writes, n ≠ r.name ∧ v.name ≠ r.name := by
  constructor
  · intro h
    generalize hops : earlier ++ [o] = ops at h
    cases h with
    | copied ho =>
      obtain ⟨rfl, hlast⟩ := List.append_inj' hops rfl
      obtain rfl := List.singleton_inj.mp hlast
      exact .inl ⟨_, _, ho, rfl, .inl rfl⟩
    | passed ho h =>
      obtain ⟨rfl, hlast⟩ := List.append_inj' hops rfl
      obtain rfl := List.singleton_inj.mp hlast
      exact .inl ⟨_, _, ho, rfl, .inr ⟨_, rfl, h⟩⟩
    | kept h ho =>
      obtain ⟨rfl, hlast⟩ := List.append_inj' hops rfl
      obtain rfl := List.singleton_inj.mp hlast
      exact .inr ⟨h, ho⟩
  · rintro (⟨a, t, ho, rfl, rfl | ⟨s, rfl, h⟩⟩ | ⟨h, ho⟩)
    · exact .copied ho
    · exact .passed ho h
    · exact .kept h ho

theorem not_standsFor_nil {n : String} {v : Var} : ¬ StandsFor [] n v := by
  intro h
  generalize hops : ([] : List Op) = ops at h
  cases h <;> simp at hops

namespace Copies

variable {c : Copies} {o : Op} {v : Var}

theorem marks?_rewrite (c : Copies) (o : Op) : (c.rewrite o).marks? = o.marks? := by
  obtain ⟨p, i⟩ := o
  cases i <;> rfl

/-- A variable stands for an operand that is the variable, or a temporary that copies it. -/
theorem operand_eq_var {a : Operand} : c.operand a = .ofVar v ↔
    a = .ofVar v ∨ ∃ t, a = .ofTemp t ∧ c.get? t.name = some (.ofVar v) := by
  constructor
  · intro h
    rcases c.operand_eq_or a with heq | ⟨t, ha, ht⟩
    · exact .inl (heq.symm.trans h)
    · exact .inr ⟨t, ha, h ▸ ht⟩
  · rintro (rfl | ⟨t, rfl, ht⟩)
    · rfl
    · change (c.get? t.name).getD _ = _
      rw [ht, Option.getD_some]

/-- **A variable is read** where it was, and where a temporary was that copies it. -/
theorem var_mem_reads_rewrite : .var v ∈ (c.rewrite o).reads ↔
    .var v ∈ o.reads ∨ ∃ t, .ofTemp t ∈ o.instr.operands ∧ c.get? t.name = some (.ofVar v) := by
  have hslot : (∃ x ∈ o.instr.slots, x.rename { temp := c.temp } = .var v)
      ↔ .var v ∈ o.instr.slots := by
    constructor
    · rintro ⟨x | x, hx, heq⟩
      · cases heq
      · exact (Register.var.inj heq : x = v) ▸ hx
    · exact fun h => ⟨_, h, rfl⟩
  have hreads : .var v ∈ o.reads ↔ .ofVar v ∈ o.instr.operands ∨ .var v ∈ o.instr.slots := by
    rw [Op.reads, List.mem_append, List.mem_filterMap]
    refine or_congr_left ⟨?_, fun h => ⟨_, h, rfl⟩⟩
    rintro ⟨a | a, ha, heq⟩
    · obtain rfl : a = .var v := Option.some.inj heq
      exact ha
    · cases heq
  rw [mem_reads_rewrite, hslot, hreads]
  change (∃ a ∈ o.instr.operands, c.operand a = .ofVar v) ∨ _ ↔ _
  simp only [operand_eq_var]
  grind

/-- **A temporary copies a variable exactly if it stands for it.** -/
theorem get?_through_iff {ops : List Op} {n : String} :
    (Copies.through ∅ ops).get? n = some (.ofVar v) ↔ StandsFor ops n v := by
  induction ops using List.reverseRecOn generalizing n with
  | nil => exact ⟨nofun, fun h => absurd h not_standsFor_nil⟩
  | append_singleton ops o ih =>
    rw [through_append, standsFor_concat]
    change (Copies.after _ (Copies.rewrite _ o)).get? n = _ ↔ _
    rw [get?_after, ih, writes_rewrite]
    simp only [instr_rewrite_eq_assign, operand_eq_var, ih]
    refine or_congr_left ⟨?_, ?_⟩
    · rintro ⟨t, ⟨a, ho, ha⟩, hn⟩
      exact ⟨a, t, ho, hn, ha⟩
    · rintro ⟨a, t, ho, hn, ha⟩
      exact ⟨t, ⟨a, ho, ha⟩, hn⟩

end Copies

namespace Blocks

variable {bs : Blocks}

/-- **Control comes to the same points**, and to each operation as it has been rewritten. -/
theorem comes_readThroughCopies {way : List String} {earlier' : List Op} {o' : Op} :
    bs.readThroughCopies.Comes way earlier' o' ↔ ∃ earlier o, bs.Comes way earlier o ∧
      earlier' = Copies.rewriteAll ∅ earlier ∧ o' = (Copies.through ∅ earlier).rewrite o := by
  simp only [Comes, bs.sameGraph_readThroughCopies.path_iff, opsAt_readThroughCopies]
  constructor
  · rintro ⟨l, later', hpath, hops⟩
    obtain ⟨earlier, o, later, hsplit, rfl, rfl⟩ := Copies.rewriteAll_eq_split hops
    exact ⟨earlier, o, ⟨l, later, hpath, hsplit⟩, rfl, rfl⟩
  · rintro ⟨earlier, o, ⟨l, later, hpath, hsplit⟩, rfl, rfl⟩
    exact ⟨l, _, hpath, by rw [hsplit, Copies.rewriteAll_append]; rfl⟩

/-- Lifetimes are over where they were. -/
theorem over_ranOn_readThroughCopies (way : List String) (earlier : List Op) (n : String) :
    Over (bs.readThroughCopies.ranOn way (Copies.rewriteAll ∅ earlier)) n
      ↔ Over (bs.ranOn way earlier) n := by
  refine over_congr ?_
  rw [ranOn, ranOn, List.map_append, List.map_append, List.map_flatMap, List.map_flatMap,
    Copies.map_rewriteAll _ Copies.marks?_rewrite]
  simp only [bs.map_opsAt_readThroughCopies _ Copies.marks?_rewrite]

/-- Where a body that reads through copies reads locals, told of the body. -/
theorem timely_readThroughCopies_iff : bs.readThroughCopies.Timely ↔
    ∀ way earlier o, bs.Comes way earlier o →
      ∀ v, .var v ∈ ((Copies.through ∅ earlier).rewrite o).reads →
        ¬ Over (bs.ranOn way earlier) v.base := by
  constructor
  · intro h way earlier o hcomes v hv hover
    exact h way _ _ (comes_readThroughCopies.mpr ⟨earlier, o, hcomes, rfl, rfl⟩) v hv
      ((over_ranOn_readThroughCopies way earlier v.base).mpr hover)
  · intro h way earlier' o' hcomes' v hv hover
    obtain ⟨earlier, o, hcomes, rfl, rfl⟩ := comes_readThroughCopies.mp hcomes'
    exact h way earlier o hcomes v hv ((over_ranOn_readThroughCopies way earlier v.base).mp hover)

/-- **No copy is read past the lifetime** of the local it stands for. -/
def CopiesTimely (bs : Blocks) : Prop :=
  ∀ way earlier o, bs.Comes way earlier o → ∀ t, .ofTemp t ∈ o.instr.operands →
    ∀ v, StandsFor earlier t.name v → ¬ Over (bs.ranOn way earlier) v.base

theorem timely_readThroughCopies :
    bs.readThroughCopies.Timely ↔ bs.Timely ∧ bs.CopiesTimely := by
  simp only [timely_readThroughCopies_iff, Copies.var_mem_reads_rewrite, Copies.get?_through_iff]
  constructor
  · intro h
    exact ⟨fun way earlier o hcomes v hv => h way earlier o hcomes v (.inl hv),
      fun way earlier o hcomes t ht v hv => h way earlier o hcomes v (.inr ⟨t, ht, hv⟩)⟩
  · rintro ⟨htimely, hcopies⟩ way earlier o hcomes v (hv | ⟨t, ht, hv⟩)
    · exact htimely way earlier o hcomes v hv
    · exact hcopies way earlier o hcomes t ht v hv

end Blocks

open Blocks

/-- **Reading through copies respects lifetimes exactly where copies are read in time**: no local is
read past its lifetime afterwards if, and only if, none was before, and no temporary was that stands
for one. -/
theorem Pass.copies_timely (b : Body) : ∃ bs' changed,
    Pass.copies.run b = .ok ({ b with blocks := bs' }, changed) ∧
      (bs'.Timely ↔ b.blocks.Timely ∧ b.blocks.CopiesTimely) :=
  ⟨_, _, rfl, timely_readThroughCopies⟩

/-! ## A copy that outlives its local -/

/-- The result is a copy of a local, taken before the local's end and left after it. -/
def outliving : Blocks := Table.ofList [
  (entryLabel, ⟨entryLabel, [
    ⟨.synthetic, .lifetimeStart "x" "NSCore::Int"⟩,
    ⟨.synthetic, .store (.literal (.int "1")) (.ofBase "x")⟩,
    ⟨.synthetic, .assign (.ofVar (.ofBase "x")) (.ofId 0)⟩,
    ⟨.synthetic, .lifetimeEnd "x"⟩,
    ⟨.synthetic, .returnAssign (.ofTemp (.ofId 0)) .result⟩,
    ⟨.synthetic, .jump returnLabel⟩]⟩),
  (returnLabel, ⟨returnLabel, [⟨.synthetic, .jump exitLabel⟩]⟩),
  (exitLabel, ⟨exitLabel, []⟩)]

theorem outliving_timely : outliving.Timely := by
  have hback : ∀ u ∈ outliving.keys, entryLabel ∉ outliving.successors u := by decide +kernel
  have hothers : ∀ e ∈ outliving.entries, e.1 ≠ entryLabel → ∀ o ∈ e.2.ops, o.reads = [] := by
    decide +kernel
  have hentry : ∀ e ∈ (outliving.opsAt entryLabel).zipIdx, ∀ r ∈ e.1.reads, r.isTemp = false →
      ∀ x ∈ (outliving.opsAt entryLabel).take e.2, x.marks? ≠ some (r.base, false) := by
    decide +kernel
  rintro way earlier o ⟨l, later, hpath, hops⟩ v hv ⟨before, x, after, hran, hx, -⟩
  by_cases hl : l = entryLabel
  · subst hl
    have hway : way = [] := by
      rcases hpath.eq_nil_or_step with ⟨rfl, -⟩ | ⟨_, u, -, -, hedge⟩
      · rfl
      · exact absurd hedge.1 (hback u (mem_keys_of_edge hedge))
    subst hway
    have hran : earlier = before ++ x :: after := hran
    have ho : (o, earlier.length) ∈ (outliving.opsAt entryLabel).zipIdx :=
      List.mem_zipIdx_iff_getElem?.mpr (by simp [hops])
    refine hentry _ ho (.var v) hv rfl x ?_ hx
    rw [hops, List.take_left' rfl, hran]
    simp
  · obtain ⟨b, hb⟩ := Table.contains_iff.mp hpath.contains
    rw [opsAt_of_get? hb] at hops
    have hnone := hothers (l, b) (Table.mem_entries.mpr hb) hl o (by simp [hops])
    rw [hnone] at hv
    cases hv

/-- **A read that was in time is so no more** once it reads through the copy. -/
theorem outliving_untimely : (∀ o ∈ outliving.allOps, o.instr.isMerge = false) ∧
    outliving.Timely ∧ ∃ bs' changed, Pass.copies.run ⟨"", .synthetic, outliving, none⟩
      = .ok (⟨"", .synthetic, bs', none⟩, changed) ∧ ¬ bs'.Timely := by
  refine ⟨by decide +kernel, outliving_timely, outliving.readThroughCopies, outliving.readsCopies,
    rfl, fun h => ?_⟩
  have hcomes : outliving.readThroughCopies.Comes [] ((outliving.opsAt entryLabel).take 4)
      ⟨.synthetic, .returnAssign (.ofVar (.ofBase "x")) .result⟩ :=
    ⟨entryLabel, [⟨.synthetic, .jump returnLabel⟩], .entry (by decide +kernel), by decide +kernel⟩
  refine h [] _ _ hcomes (.ofBase "x") (by decide +kernel) ?_
  exact ⟨(outliving.opsAt entryLabel).take 3, ⟨.synthetic, .lifetimeEnd "x"⟩, [],
    by decide +kernel, rfl, by simp⟩

end Monomorph
