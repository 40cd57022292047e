import Monomorph.Proofs.Graph.Search
import Monomorph.Proofs.Op.Views

/-!
# Graph/Shape — what of a body decides where control goes

Where a block leads is read off its last operation, and of that operation only whether it ends the
block and which labels it names (`Op.leads`).  Bodies with the same labels and the same successors
have the same ways, the same blocks within reach and the same order (`SameGraph`), whatever else
their operations do.
-/

namespace Monomorph

/-- Where an operation leads, if it ends a block. -/
def Op.leads (o : Op) : Option (List String) :=
  if o.instr.isTerminator then some o.instr.labels else none

theorem Op.leads_eq_none {o : Op} : o.leads = none ↔ o.instr.isTerminator = false := by
  rw [leads]
  split <;> simp_all

theorem Op.leads_congr {o o' : Op} (ht : o'.instr.isTerminator = o.instr.isTerminator)
    (hl : o'.instr.labels = o.instr.labels) : o'.leads = o.leads := by
  rw [leads, leads, ht, hl]

/-! ## Blocks -/

namespace Block

/-- Where a block leads, if it ends with a jump. -/
def ending (b : Block) : Option (List String) :=
  (b.ops.map Op.leads).getLast?.join

theorem terminator?_eq_some {b : Block} {o : Op} :
    b.terminator? = some o ↔ b.ops.getLast? = some o ∧ o.instr.isTerminator = true := by
  rw [terminator?]
  cases b.ops.getLast? with
  | none => simp
  | some x =>
    by_cases hx : x.instr.isTerminator = true
    · simp only [hx, if_true, Option.some.injEq]
      exact ⟨fun h => ⟨h, h ▸ hx⟩, And.left⟩
    · simp only [hx, Option.some.injEq]
      exact ⟨fun h => by simp at h, fun ⟨h, ht⟩ => absurd (h ▸ ht) hx⟩

theorem ending_eq (b : Block) : b.ending = b.terminator?.map fun o => o.instr.labels := by
  rw [ending, terminator?, List.getLast?_map]
  cases b.ops.getLast? with
  | none => rfl
  | some o =>
    cases ht : o.instr.isTerminator <;> simp [Op.leads, ht]

theorem isSome_ending (b : Block) : b.ending.isSome = b.terminator?.isSome := by
  rw [ending_eq, Option.isSome_map]

theorem successors_eq (b : Block) : b.successors = b.ending.getD [] := by
  rw [ending_eq, successors]
  cases b.terminator? <;> rfl

/-- **Nothing but the last operation ends the block.** -/
def EndsOnce (b : Block) : Prop :=
  ∀ o ∈ b.ops.dropLast, o.instr.isTerminator = false

instance (b : Block) : Decidable b.EndsOnce :=
  inferInstanceAs (Decidable (∀ o ∈ b.ops.dropLast, o.instr.isTerminator = false))

theorem endsOnce_iff {b : Block} : b.EndsOnce ↔ ∀ x ∈ (b.ops.map Op.leads).dropLast, x = none := by
  rw [← List.map_dropLast, List.forall_mem_map]
  simp only [Op.leads_eq_none]
  rfl

end Block

/-- Operations that lead nowhere may stand before others without any difference to where these
lead. -/
theorem getLast?_join_append {β : Type} {pre l : List (Option β)} (h : ∀ x ∈ pre, x = none) :
    (pre ++ l).getLast?.join = l.getLast?.join ∧
      ((∀ x ∈ (pre ++ l).dropLast, x = none) ↔ ∀ x ∈ l.dropLast, x = none) := by
  rcases List.eq_nil_or_concat l with rfl | ⟨init, x, rfl⟩
  · rw [List.append_nil]
    refine ⟨?_, by simp, fun _ x hx => h x (List.dropLast_subset _ hx)⟩
    cases hl : pre.getLast? with
    | none => rfl
    | some x => exact h x (List.mem_of_getLast? hl)
  · rw [List.concat_eq_append, ← List.append_assoc, List.getLast?_concat, List.getLast?_concat,
      List.dropLast_concat, List.dropLast_concat, List.forall_mem_append]
    exact ⟨rfl, fun hall => hall.2, fun hall => ⟨h, hall⟩⟩

namespace Blocks

/-! ## Bodies -/

/-- The same labels, leading to the same blocks. -/
structure SameGraph (bs bs' : Blocks) : Prop where
  contains : ∀ l, bs'.contains l = bs.contains l
  successors : ∀ l, bs'.successors l = bs.successors l

namespace SameGraph

variable {bs bs' : Blocks} (h : SameGraph bs bs')

include h

theorem symm : SameGraph bs' bs :=
  ⟨fun l => (h.contains l).symm, fun l => (h.successors l).symm⟩

theorem trans {bs'' : Blocks} (h' : SameGraph bs' bs'') : SameGraph bs bs'' :=
  ⟨fun l => (h'.contains l).trans (h.contains l),
    fun l => (h'.successors l).trans (h.successors l)⟩

theorem keys : bs'.keys = bs.keys :=
  Table.keys_eq_of_contains h.contains

theorem edge {u v : String} : bs'.Edge u v ↔ bs.Edge u v := by
  rw [Edge, Edge, h.contains, h.successors]

theorem path {before : List String} {l : String} (hp : bs.Path before l) : bs'.Path before l := by
  induction hp with
  | entry he => exact .entry ((h.contains _).trans he)
  | step _ e ih => exact ih.step (h.edge.mpr e)

theorem path_iff {before : List String} {l : String} : bs'.Path before l ↔ bs.Path before l :=
  ⟨h.symm.path, h.path⟩

theorem reachable {l : String} : bs'.Reachable l ↔ bs.Reachable l :=
  exists_congr fun _ => h.path_iff

theorem closed (hc : bs.Closed) : bs'.Closed := by
  intro u v hv
  rw [h.successors] at hv
  rw [h.contains]
  exact hc u v hv

theorem acyclic (ha : bs.Acyclic) : bs'.Acyclic := by
  intro l hl hcycle
  exact ha l (h.reachable.mp hl) (hcycle.lift id fun _ _ e => h.edge.mp e)

/-- **The search takes the same way.** -/
theorem search (fresh done : List String) (stack : List (String × List String)) :
    bs'.search fresh done stack = bs.search fresh done stack := by
  fun_induction Blocks.search bs fresh done stack with
  | case1 => rw [Blocks.search]
  | case2 _ _ _ _ ih => rw [Blocks.search, ih]
  | case3 _ _ _ _ _ _ hs _ ih => rw [Blocks.search, dif_pos hs, h.successors, ih]
  | case4 _ _ _ _ _ _ hs ih => rw [Blocks.search, dif_neg hs, ih]

theorem reversePostOrder : bs'.reversePostOrder = bs.reversePostOrder := by
  rw [Blocks.reversePostOrder, Blocks.reversePostOrder, h.contains, h.keys, h.successors, h.search]

end SameGraph

end Blocks

end Monomorph
