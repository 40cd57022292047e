import Monomorph.Body.Basic

/-!
# Body/Order — the order in which blocks are taken

`reversePostOrder` runs a depth-first search from `entry`, branches in order, and lists the blocks it
reaches with the last one finished first; where the graph has no cycle, every block comes before
those it leads to.  `order` adds the blocks out of reach, by label.
-/

namespace Monomorph.Blocks

/-- Depth-first search over a stack of blocks and the labels each has still to visit.  `fresh` are
the labels not yet visited; the blocks done are listed last first. -/
def search (bs : Blocks) (fresh : List String) (done : List String) :
    List (String × List String) → List String
  | [] => done
  | (l, []) :: stack => search bs fresh (l :: done) stack
  | (l, s :: rest) :: stack =>
      if h : s ∈ fresh then
        have : (fresh.erase s).length < fresh.length := by
          rw [List.length_erase_of_mem h]
          have := List.length_pos_of_mem h
          omega
        search bs (fresh.erase s) done ((s, bs.successors s) :: (l, rest) :: stack)
      else search bs fresh done ((l, rest) :: stack)
termination_by stack => (fresh.length, stack.length, (stack.headD ("", [])).2.length)

/-- The blocks within reach of `entry`, the last one finished first. -/
def reversePostOrder (bs : Blocks) : List String :=
  if bs.contains entryLabel then
    bs.search (bs.keys.erase entryLabel) [] [(entryLabel, bs.successors entryLabel)]
  else []

/-- Every label: the blocks within reach as they are taken, then the others by label. -/
def order (bs : Blocks) : List String :=
  let reached := bs.reversePostOrder
  reached ++ bs.keys.filter fun l => decide (l ∉ reached)

/-- The blocks, in that order. -/
def ordered (bs : Blocks) : List Block :=
  bs.order.filterMap bs.get?

end Monomorph.Blocks
