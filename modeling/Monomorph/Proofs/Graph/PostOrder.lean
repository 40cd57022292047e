import Monomorph.Proofs.Graph.Search
import Monomorph.Proofs.Listing.Order
import Monomorph.Proofs.Text.Bytes

/-!
# Graph/PostOrder — the search with a stack is the recursive one

The recursive search tries labels in turn: a block not visited before is visited, what it leads to
is searched, and it is finished (`postOrder`).  Whatever a call visits it finishes, so the blocks
visited are those it began with and those it gives back.  Hence **what is above a block on the stack
is one recursive call** (`search_eq`), and the order of the blocks is the recursive post-order read
backwards (`reversePostOrder_eq`).  A block comes before those it leads to, unless they lead back to
it (`idxOf_lt_of_edge`).
-/

namespace Monomorph.Blocks

open Relation

/-! ## The recursive search -/

/-- The blocks not visited yet. -/
def unvisited (bs : Blocks) (visited : List String) : List String :=
  bs.keys.filter fun l => decide (l ∉ visited)

variable {bs : Blocks} {visited : List String}

theorem mem_unvisited {l : String} :
    l ∈ bs.unvisited visited ↔ bs.contains l = true ∧ l ∉ visited := by
  rw [unvisited, List.mem_filter, Table.mem_keys, decide_eq_true_eq]

theorem unvisited_congr {visited' : List String} (h : ∀ l, l ∈ visited ↔ l ∈ visited') :
    bs.unvisited visited = bs.unvisited visited' := by
  simp only [unvisited, h]

theorem erase_unvisited (s : String) :
    (bs.unvisited visited).erase s = bs.unvisited (s :: visited) := by
  rw [unvisited, (bs.nodup_keys.filter _).erase_eq_filter, List.filter_filter, unvisited]
  refine List.filter_congr fun l _ => ?_
  by_cases h : l = s <;> simp [h]

/-- A visit leaves fewer blocks to visit. -/
theorem length_unvisited_lt {visited' : List String} {s : String} (hs : bs.contains s = true)
    (hnew : s ∉ visited) (h : s :: visited ⊆ visited') :
    (bs.unvisited visited').length < (bs.unvisited visited).length := by
  have hfilter : bs.unvisited visited'
      = (bs.unvisited visited).filter fun l => decide (l ∉ visited') := by
    rw [unvisited, unvisited, List.filter_filter]
    refine List.filter_congr fun l _ => ?_
    by_cases hl : l ∈ visited
    · simp [h (List.mem_cons_of_mem s hl)]
    · simp [hl]
  rw [hfilter, List.length_filter_lt_length_iff_exists]
  exact ⟨s, mem_unvisited.mpr ⟨hs, hnew⟩, by simp [h List.mem_cons_self]⟩

/-- **Depth-first search by recursion**: the labels are tried in turn, and the blocks visited on the
way are listed as they are finished. -/
def postOrder (bs : Blocks) (visited : List String) : List String → List String
  | [] => []
  | s :: rest =>
      if _h : bs.contains s = true ∧ s ∉ visited then
        let inner := bs.postOrder (s :: visited) (bs.successors s)
        inner ++ s :: bs.postOrder (inner ++ s :: visited) rest
      else bs.postOrder visited rest
termination_by labels => ((bs.unvisited visited).length, labels.length)
decreasing_by
  · exact .left _ _ (length_unvisited_lt _h.1 _h.2 (List.Subset.refl _))
  · exact .left _ _ (length_unvisited_lt _h.1 _h.2 (List.subset_append_right _ _))
  · exact .right _ (Nat.lt_succ_self _)

/-! ## The search with a stack -/

theorem search_of_mem {fresh : List String} {s : String} (h : s ∈ fresh) (l : String)
    (rest done : List String) (stack : List (String × List String)) :
    bs.search fresh done ((l, s :: rest) :: stack)
      = bs.search (fresh.erase s) done ((s, bs.successors s) :: (l, rest) :: stack) := by
  rw [search, dif_pos h]

/-- **Above a block on the stack runs one recursive call**: it finishes the blocks the call lists,
then the block itself, and the search goes on below. -/
theorem search_eq (l : String) (todo done : List String) (stack : List (String × List String)) :
    bs.search (bs.unvisited visited) done ((l, todo) :: stack)
      = bs.search (bs.unvisited (bs.postOrder visited todo ++ visited))
          (l :: ((bs.postOrder visited todo).reverse ++ done)) stack := by
  fun_induction postOrder bs visited todo generalizing l done stack with
  | case1 visited => rw [search, List.nil_append, List.reverse_nil, List.nil_append]
  | case2 visited s rest h inner ihInner ihRest =>
    rw [search_of_mem (mem_unvisited.mpr h), erase_unvisited, ihInner, ihRest]
    congr 1
    · exact unvisited_congr fun x => by simp; tauto
    · simp [inner]
  | case3 visited s rest h ih =>
    rw [search, dif_neg fun hs => h (mem_unvisited.mp hs), ih]

/-- **The order of the blocks is the recursive post-order, read backwards.** -/
theorem reversePostOrder_eq (bs : Blocks) :
    bs.reversePostOrder = (bs.postOrder [] [entryLabel]).reverse := by
  rw [reversePostOrder, postOrder]
  split
  case isTrue h =>
    have hfresh : bs.keys.erase entryLabel = bs.unvisited [entryLabel] := by
      rw [← erase_unvisited, unvisited]
      simp
    rw [hfresh, search_eq, search, dif_pos ⟨h, List.not_mem_nil⟩]
    simp [postOrder]
  case isFalse h =>
    rw [dif_neg fun he => h he.1, postOrder, List.reverse_nil]

/-! ## The order of the blocks -/

/-- **A block comes before those it leads to** and that do not lead back to it. -/
theorem idxOf_lt_of_edge {u v : String} (hu : bs.Reachable u) (e : bs.Edge u v)
    (hback : ¬ ReflTransGen bs.Edge v u) :
    bs.reversePostOrder.idxOf u < bs.reversePostOrder.idxOf v := by
  obtain ⟨newer, older, hsplit⟩ := List.append_of_mem (mem_reversePostOrder.mpr (hu.step e))
  have hfirst : u ∈ newer := (pred_mem_or_leads hsplit hu e).resolve_right hback
  exact Listing.idxOf_lt_of_split hsplit bs.nodup_reversePostOrder hfirst

/-- **The orders of the blocks**, whatever leads to what.  The first is that of the recursive
search: it lists the blocks within reach, each once, `entry` at the head, and every block before
those it leads to and that do not lead back to it.  The second goes on with the blocks out of reach,
by the bytes of their labels. -/
theorem order_depthFirst (bs : Blocks) :
    bs.reversePostOrder = (bs.postOrder [] [entryLabel]).reverse ∧
      bs.reversePostOrder.Nodup ∧
      (∀ l, l ∈ bs.reversePostOrder ↔ bs.Reachable l) ∧
      (bs.contains entryLabel = true → bs.reversePostOrder.head? = some entryLabel) ∧
      (∀ u v, bs.Reachable u → bs.Edge u v → ¬ ReflTransGen bs.Edge v u →
        bs.reversePostOrder.idxOf u < bs.reversePostOrder.idxOf v) ∧
      bs.order.Perm bs.keys ∧
      ∃ others, bs.order = bs.reversePostOrder ++ others ∧
        others.Pairwise fun a b => utf8Bytes a < utf8Bytes b := by
  refine ⟨bs.reversePostOrder_eq, bs.nodup_reversePostOrder, fun _ => mem_reversePostOrder,
    fun he => ?_, fun _ _ hu e hback => idxOf_lt_of_edge hu e hback, bs.order_perm_keys, _, rfl, ?_⟩
  · rw [reversePostOrder_eq]
    simp [postOrder, he]
  · exact (bs.sorted_keys.filter _).imp utf8Bytes_lt

/-- A loop, left at its head, and a block out of reach that leads to what follows it. -/
def circling : Blocks := Table.ofList [
  (entryLabel, ⟨entryLabel, [⟨.synthetic, .jump "head"⟩]⟩),
  ("head", ⟨"head", [⟨.synthetic, .branch (.literal (.bool true)) "body" exitLabel⟩]⟩),
  ("body", ⟨"body", [⟨.synthetic, .jump "head"⟩]⟩),
  ("aside", ⟨"aside", [⟨.synthetic, .jump exitLabel⟩]⟩),
  (exitLabel, ⟨exitLabel, []⟩)]

/-- The head of the loop comes before the block it is left to. -/
theorem circling_order : circling.contains entryLabel = true ∧ circling.Reachable "head" ∧
    circling.Edge "head" exitLabel ∧ ¬ ReflTransGen circling.Edge exitLabel "head" ∧
    circling.reversePostOrder.head? = some entryLabel ∧
    circling.reversePostOrder.idxOf "head" < circling.reversePostOrder.idxOf exitLabel := by
  have he : circling.contains entryLabel = true := by decide +kernel
  have hhead : circling.Reachable "head" :=
    (Path.entry he).reachable.step ⟨by decide +kernel, by decide +kernel⟩
  have hleft : circling.Edge "head" exitLabel := ⟨by decide +kernel, by decide +kernel⟩
  have hback : ¬ ReflTransGen circling.Edge exitLabel "head" := by
    intro h
    rcases h.cases_head with h | ⟨v, ⟨hv, -⟩, -⟩
    · revert h
      decide
    · rw [show circling.successors exitLabel = [] by decide +kernel] at hv
      cases hv
  obtain ⟨-, -, -, hfirst, hedge, -⟩ := order_depthFirst circling
  exact ⟨he, hhead, hleft, hback, hfirst he, hedge _ _ hhead hleft hback⟩

end Monomorph.Blocks
