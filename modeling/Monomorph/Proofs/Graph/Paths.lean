import Mathlib.Logic.Relation
import Monomorph.Body.Basic
import Monomorph.Proofs.Table.Lookup

/-!
# Graph/Paths — the ways control can take through a body

A path lists the blocks control has been in before the one it is at, `entry` first.  What is known
at a block is what every path to it brings along, so paths are built from their end: a path to a
block other than `entry` is a path to one of its predecessors, and one edge more (`Path.step`).
Hence what every path brings along obeys one equation per block (`brought_entry`,
`brought_iff_forall_pred`).
-/

namespace Monomorph.Blocks

/-- The block `u` leads to the block `v`. -/
def Edge (bs : Blocks) (u v : String) : Prop :=
  v ∈ bs.successors u ∧ bs.contains v = true

/-- A way from `entry` to a block, by way of the blocks listed. -/
inductive Path (bs : Blocks) : List String → String → Prop
  | entry (h : bs.contains entryLabel = true) : Path bs [] entryLabel
  | step {before : List String} {u v : String} (h : Path bs before u) (e : bs.Edge u v) :
      Path bs (before ++ [u]) v

/-- A block control can get to. -/
def Reachable (bs : Blocks) (l : String) : Prop :=
  ∃ before, bs.Path before l

/-- No block within reach leads back to itself. -/
def Acyclic (bs : Blocks) : Prop :=
  ∀ l, bs.Reachable l → ¬ Relation.TransGen bs.Edge l l

/-- Every label a block leads to is that of a block. -/
def Closed (bs : Blocks) : Prop :=
  ∀ u, ∀ v ∈ bs.successors u, bs.contains v = true

variable {bs : Blocks}

/-! ## Edges and predecessors -/

theorem successors_of_get? {l : String} {b : Block} (h : bs.get? l = some b) :
    bs.successors l = b.successors := by
  rw [successors, h]

theorem Edge.contains_left {u v : String} (h : bs.Edge u v) : bs.contains u = true := by
  obtain ⟨hv, -⟩ := h
  rw [successors] at hv
  split at hv
  · exact Table.contains_of_get? ‹_›
  · simp at hv

theorem mem_predecessors {p l : String} : p ∈ bs.predecessors l ↔ l ∈ bs.successors p := by
  rw [predecessors, List.mem_map, successors]
  constructor
  · rintro ⟨⟨q, b⟩, hb, rfl⟩
    obtain ⟨hb, hl⟩ := List.mem_filter.mp hb
    rw [Table.mem_entries.mp hb]
    exact of_decide_eq_true hl
  · intro h
    split at h
    · exact ⟨(p, _), List.mem_filter.mpr ⟨Table.mem_entries.mpr ‹_›, decide_eq_true h⟩, rfl⟩
    · simp at h

theorem nodup_predecessors (bs : Blocks) (l : String) : (bs.predecessors l).Nodup :=
  bs.nodup_keys.sublist (List.filter_sublist.map _)

theorem mem_predecessors_iff_edge {p l : String} (h : bs.contains l = true) :
    p ∈ bs.predecessors l ↔ bs.Edge p l :=
  mem_predecessors.trans ⟨fun hp => ⟨hp, h⟩, And.left⟩

/-! ## Blocks within reach -/

theorem Path.reachable {before : List String} {l : String} (h : bs.Path before l) :
    bs.Reachable l := ⟨before, h⟩

theorem Reachable.step {u v : String} (h : bs.Reachable u) (e : bs.Edge u v) : bs.Reachable v :=
  h.elim fun _ hp => (hp.step e).reachable

theorem Path.contains {before : List String} {l : String} (h : bs.Path before l) :
    bs.contains l = true := by
  cases h with
  | entry h => exact h
  | step _ e => exact e.2

theorem Reachable.contains {l : String} (h : bs.Reachable l) : bs.contains l = true :=
  h.elim fun _ hp => hp.contains

theorem Reachable.contains_entry {l : String} (h : bs.Reachable l) :
    bs.contains entryLabel = true := by
  obtain ⟨before, h⟩ := h
  induction h with
  | entry h => exact h
  | step _ _ ih => exact ih

/-- **A way to a block within reach ends with an edge from another one**, unless it has just
begun. -/
theorem Path.eq_nil_or_step {before : List String} {l : String} (h : bs.Path before l) :
    before = [] ∧ l = entryLabel ∨
      ∃ way u, before = way ++ [u] ∧ bs.Path way u ∧ bs.Edge u l := by
  cases h with
  | entry h => exact .inl ⟨rfl, rfl⟩
  | step h e => exact .inr ⟨_, _, rfl, h, e⟩

/-- No way of an acyclic body comes back to `entry`. -/
theorem Acyclic.not_edge_entry (h : bs.Acyclic) {p : String} (hp : bs.Reachable p) :
    ¬ bs.Edge p entryLabel := by
  intro e
  have reach : ∀ {before l}, bs.Path before l → Relation.ReflTransGen bs.Edge entryLabel l := by
    intro before l hl
    induction hl with
    | entry => exact .refl
    | step _ e ih => exact ih.tail e
  obtain ⟨way, hway⟩ := hp
  exact h entryLabel (Reachable.step hway.reachable e) (.tail' (reach hway) e)

theorem mem_keys_of_edge {u v : String} (e : bs.Edge u v) : u ∈ bs.keys :=
  Table.mem_keys.mpr e.contains_left

/-- **Nothing leads back** if every edge within reach leads to a higher rank. -/
theorem acyclic_of_reachable_rank (rank : String → Nat)
    (h : ∀ u v, bs.Reachable u → bs.Edge u v → rank u < rank v) : bs.Acyclic := by
  have rising : ∀ {u v}, bs.Reachable u → Relation.TransGen bs.Edge u v →
      bs.Reachable v ∧ rank u < rank v := by
    intro u v hu huv
    induction huv with
    | single e => exact ⟨hu.step e, h _ _ hu e⟩
    | tail _ e ih => exact ⟨ih.1.step e, Nat.lt_trans ih.2 (h _ _ ih.1 e)⟩
  exact fun l hl hcycle => Nat.lt_irrefl _ (rising hl hcycle).2

theorem acyclic_of_rank (rank : String → Nat)
    (h : ∀ u ∈ bs.keys, ∀ v ∈ bs.successors u, rank u < rank v) : bs.Acyclic :=
  acyclic_of_reachable_rank rank fun u v _ e => h u (mem_keys_of_edge e) v e.1

/-! ## What every way brings along -/

/-- On every way to a block a name is brought along: from the start, or by a block on the way. -/
def Brought (bs : Blocks) (start : List String) (gives : String → List String) (l n : String) :
    Prop :=
  ∀ before, bs.Path before l → n ∈ start ∨ n ∈ before.flatMap gives

variable {start : List String} {gives : String → List String} {l n : String}

/-- **To `entry` the start is brought**, and nothing else is. -/
theorem brought_entry (he : bs.contains entryLabel = true) :
    bs.Brought start gives entryLabel n ↔ n ∈ start :=
  ⟨fun h => (h [] (.entry he)).resolve_right (by simp), fun h _ _ => .inl h⟩

/-- A name is brought past a block if it is brought to it, or given by it. -/
theorem brought_past :
    (∀ before, bs.Path before l → n ∈ start ∨ n ∈ (before ++ [l]).flatMap gives) ↔
      bs.Brought start gives l n ∨ n ∈ gives l := by
  have past : ∀ before : List String, n ∈ start ∨ n ∈ (before ++ [l]).flatMap gives ↔
      (n ∈ start ∨ n ∈ before.flatMap gives) ∨ n ∈ gives l := fun before => by simp [or_assoc]
  simp only [past]
  by_cases hn : n ∈ gives l <;> simp [hn, Brought]

/-- **To any other block** what every predecessor hands on is brought. -/
theorem brought_iff_forall_pred (hl : l ≠ entryLabel) :
    bs.Brought start gives l n ↔ ∀ p, bs.Reachable p → bs.Edge p l →
      bs.Brought start gives p n ∨ n ∈ gives p := by
  constructor
  · intro h p _ e
    exact brought_past.mp fun before hb => h _ (hb.step e)
  · intro h before hb
    rcases hb.eq_nil_or_step with ⟨-, rfl⟩ | ⟨way, p, rfl, hw, e⟩
    · exact absurd rfl hl
    · exact brought_past.mpr (h p hw.reachable e) way hw

end Monomorph.Blocks
