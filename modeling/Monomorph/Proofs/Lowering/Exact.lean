import Monomorph.Body.Lowering
import Monomorph.Proofs.Lowering.Copies

/-!
# Lowering/Exact — block by block, reading through copies is exact

What a block comes to is the same (`Copies.steps_rewriteAll`); here the same is said of every point
on the way, and of every value that is read.  At each point the copies made so far hold what they
copy, whatever has been written over in between (`Copies.Valid.through`), so **an operation that
reads through them sees what it saw** (`Copies.Valid.seen_rewrite`).
-/

namespace Monomorph

/-- **The same operation, other registers read**: something stands for each temporary among the
operands, and a temporary for each temporary in a slot.  Literals and variables are read as they
were. -/
def Op.Rereads (o o' : Op) : Prop :=
  ∃ (f : Operand → Operand) (g : Temp → Temp), (∀ l, f (.literal l) = .literal l) ∧
    (∀ v, f (.ofVar v) = .ofVar v) ∧ o' = o.mapInstr fun i => (i.map f).mapSlots { temp := g }

namespace Meaning

variable {V : Type} (m : Meaning V)

/-- The values an operation reads: of its operands, and of the registers in its slots. -/
def seen (σ : Store V) (o : Op) : List V :=
  o.instr.operands.map (m.value σ) ++ o.instr.slots.map fun r => σ r.name

/-- **A row that runs as another**: from whatever is in the store, after each operation the same is
in it, and each operation reads the same values. -/
structure RunsAs (ops ops' : List Op) : Prop where
  steps : ∀ origin s n, m.steps origin s (ops'.take n) = m.steps origin s (ops.take n)
  seen : ∀ origin s n o o', ops[n]? = some o → ops'[n]? = some o' →
    m.seen (m.steps origin s (ops'.take n)).store o'
      = m.seen (m.steps origin s (ops.take n)).store o

end Meaning

namespace Copies

variable {V : Type} {m : Meaning V} {σ : Store V} {c : Copies} {ops : List Op}

theorem rereads_rewrite (c : Copies) (o : Op) : o.Rereads (c.rewrite o) :=
  ⟨c.operand, c.temp, fun _ => rfl, fun _ => rfl, rfl⟩

/-- Operation by operation, a row that reads through copies is the row but for what it reads. -/
theorem forall₂_rewriteAll (c : Copies) (ops : List Op) :
    List.Forall₂ Op.Rereads ops (c.rewriteAll ops) := by
  induction ops generalizing c with
  | nil => exact .nil
  | cons o ops ih => exact .cons (c.rereads_rewrite o) (ih _)

/-- **Reading a copy, an operation sees what it saw.** -/
theorem Valid.seen_rewrite (h : c.Valid m σ) (o : Op) : m.seen σ (c.rewrite o) = m.seen σ o := by
  rw [Meaning.seen, Meaning.seen, rewrite, Op.mapInstr, Instr.operands_mapSlots,
    Instr.operands_map, Instr.slots_mapSlots, Instr.slots_map, List.map_map, List.map_map]
  simp only [Function.comp_def, h.value_operand, h.name_slot]

/-- **A row that reads through its copies runs as it did**, operation by operation. -/
theorem runsAs_rewriteAll (hm : m.Assigning) (hops : ∀ o ∈ ops, o.instr.isMerge = false) :
    m.RunsAs ops (Copies.rewriteAll ∅ ops) := by
  have hnone : ∀ σ, Copies.Valid m ∅ σ := fun σ n a ha => by cases ha
  have hsteps : ∀ origin s n, m.steps origin s ((Copies.rewriteAll ∅ ops).take n)
      = m.steps origin s (ops.take n) := fun origin s n => by
    rw [take_rewriteAll]
    exact steps_rewriteAll hm (fun o ho => hops o (List.mem_of_mem_take ho)) (hnone _)
  refine ⟨hsteps, fun origin s n o o' ho ho' => ?_⟩
  rw [getElem?_rewriteAll, ho, Option.map_some] at ho'
  obtain rfl := Option.some.inj ho'
  rw [hsteps]
  have hvalid : (Copies.through ∅ (ops.take n)).Valid m (m.steps origin s (ops.take n)).store :=
    (hnone _).through hm fun o ho => hops o (List.mem_of_mem_take ho)
  exact hvalid.seen_rewrite o

end Copies

open Blocks

/-- **Reading through copies is exact.**  The labels of a body without merges stay, every block
keeps its operations in place but for the temporaries they read, and whatever the operations mean,
as long as an assignment copies, the block runs as it did. -/
theorem Pass.copies_exact {b : Body} (h : ∀ o ∈ b.blocks.allOps, o.instr.isMerge = false) :
    ∃ bs' changed, Pass.copies.run b = .ok ({ b with blocks := bs' }, changed) ∧
      bs'.keys = b.blocks.keys ∧
      ∀ l blk, b.blocks.get? l = some blk → ∃ ops', bs'.get? l = some { blk with ops := ops' } ∧
        List.Forall₂ Op.Rereads blk.ops ops' ∧
        ∀ {V : Type} (m : Meaning V), m.Assigning → m.RunsAs blk.ops ops' := by
  refine ⟨_, _, rfl, Table.keys_eq_of_contains fun l => Table.contains_map .., fun l blk hblk => ?_⟩
  refine ⟨Copies.rewriteAll ∅ blk.ops, ?_, Copies.forall₂_rewriteAll ∅ blk.ops, fun m hm => ?_⟩
  · rw [readThroughCopies, get?_mapOps, hblk, Option.map_some]
  · exact Copies.runsAs_rewriteAll hm fun o ho => h o (mem_allOps.mpr ⟨l, blk, hblk, ho⟩)

/-- Two variables change places by way of two temporaries: the first is written over while a
temporary still holds it. -/
def swapping : Blocks := Table.ofList [
  (entryLabel, ⟨entryLabel, [
    ⟨.synthetic, .assign (.ofVar (.ofBase "a")) (.ofId 0)⟩,
    ⟨.synthetic, .assign (.ofVar (.ofBase "b")) (.ofId 1)⟩,
    ⟨.synthetic, .store (.ofTemp (.ofId 1)) (.ofBase "a")⟩,
    ⟨.synthetic, .store (.ofTemp (.ofId 0)) (.ofBase "b")⟩,
    ⟨.synthetic, .jump exitLabel⟩]⟩),
  (exitLabel, ⟨exitLabel, []⟩)]

/-- Assignments and stores copy; anything else gives nothing of interest. -/
def copying : Meaning Nat where
  literal _ := 0
  gives _ e := match e.instr with
    | .assign a _ | .store a _ => a
    | _ => 0
  takes _ _ := true

/-- The swap, reading through its copies, is still a swap. -/
theorem swapping_exact : (∀ o ∈ swapping.allOps, o.instr.isMerge = false) ∧ copying.Assigning ∧
    ∃ bs' changed ops', Pass.copies.run ⟨"", .synthetic, swapping, none⟩
        = .ok (⟨"", .synthetic, bs', none⟩, changed) ∧
      bs'.get? entryLabel = some ⟨entryLabel, ops'⟩ ∧
      (copying.steps none ⟨fun n => if n = "a" then 1 else 2, []⟩ (ops'.take 4)).store "a" = 2 ∧
      (copying.steps none ⟨fun n => if n = "a" then 1 else 2, []⟩ (ops'.take 4)).store "b" = 1 := by
  have hmerge : ∀ o ∈ swapping.allOps, o.instr.isMerge = false := by decide +kernel
  have hassign : copying.Assigning := by
    rintro past ⟨p, i, slots⟩ a t rfl
    rfl
  obtain ⟨bs', changed, hrun, -, hblocks⟩ :=
    Pass.copies_exact (b := ⟨"", .synthetic, swapping, none⟩) hmerge
  obtain ⟨ops', hget, -, hruns⟩ := hblocks entryLabel _ rfl
  refine ⟨hmerge, hassign, bs', changed, ops', hrun, hget, ?_, ?_⟩ <;>
    rw [(hruns copying hassign).steps] <;> decide +kernel

end Monomorph
