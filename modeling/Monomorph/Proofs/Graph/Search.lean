import Monomorph.Body.Order
import Monomorph.Proofs.Graph.Paths

/-!
# Graph/Search — the depth-first order of the blocks

Every block `search` meets is done, on the stack, or fresh.  The stack is a way through the body,
latest block on top, so whatever leads from the top to a block below it closes a cycle.  Hence the
**order of the finished blocks**: a block finishes after all it leads to, except for those it is
itself reached from (`reversePostOrder_edge`).  So a block comes after its predecessors unless it
leads back to them (`pred_mem_or_leads`); in an acyclic body it comes after all of them
(`pred_mem_of_order`).
-/

namespace Monomorph.Blocks

open Relation

variable {bs : Blocks} {fresh done : List String} {stack : List (String × List String)}

/-- What holds at every step of the search. -/
structure Searching (bs : Blocks) (fresh done : List String)
    (stack : List (String × List String)) : Prop where
  nodup : (done ++ (stack.map (·.1) ++ fresh)).Nodup
  labels : ∀ l, l ∈ done ++ (stack.map (·.1) ++ fresh) ↔ bs.contains l = true
  entry : entryLabel ∉ fresh
  reached : ∀ l ∈ done ++ stack.map (·.1), bs.Reachable l
  /-- Blocks below lead to the blocks above them. -/
  way : stack.Pairwise fun a b => ReflTransGen bs.Edge b.1 a.1
  toVisit : ∀ e ∈ stack, ∀ v ∈ e.2, v ∈ bs.successors e.1
  /-- What a block on the stack leads to has been met, unless it is still to be visited. -/
  met : ∀ e ∈ stack, ∀ v, bs.Edge e.1 v → v ∈ fresh → v ∈ e.2
  closed : ∀ u ∈ done, ∀ v, bs.Edge u v → v ∉ fresh
  finished : ∀ newer u older, done = newer ++ u :: older →
    ∀ v, bs.Edge u v → v ∈ older ∨ ReflTransGen bs.Edge v u

namespace Searching

/-- A block with nothing left to visit is done. -/
theorem finish {l : String} (h : Searching bs fresh done ((l, []) :: stack)) :
    Searching bs fresh (l :: done) stack := by
  have perm : (l :: done ++ (stack.map (·.1) ++ fresh)).Perm
      (done ++ (((l, ([] : List String)) :: stack).map (·.1) ++ fresh)) :=
    List.perm_middle.symm
  have hway := List.pairwise_cons.mp h.way
  have met : ∀ v, bs.Edge l v → v ∉ fresh := fun v e hv => by
    simpa using h.met (l, []) (by simp) v e hv
  refine ⟨perm.nodup_iff.mpr h.nodup, fun x => perm.mem_iff.trans (h.labels x), h.entry, ?_,
    hway.2, fun e he => h.toVisit e (List.mem_cons_of_mem _ he),
    fun e he => h.met e (List.mem_cons_of_mem _ he), ?_, ?_⟩
  · intro x hx
    exact h.reached x (by simpa [or_left_comm] using hx)
  · intro u hu v e
    rcases List.mem_cons.mp hu with rfl | hu
    · exact met v e
    · exact h.closed u hu v e
  · rintro newer u older heq v e
    rcases List.cons_eq_append_iff.mp heq with ⟨rfl, hu⟩ | ⟨newer, rfl, hd⟩
    · obtain ⟨rfl, rfl⟩ := List.cons.inj hu
      -- what the block leads to is done, or below it on the stack
      have hv := (h.labels v).mpr e.2
      rw [List.mem_append, List.mem_append] at hv
      rcases hv with hv | hv | hv
      · exact .inl hv
      · right
        rw [List.map_cons, List.mem_cons] at hv
        rcases hv with rfl | hv
        · exact .refl
        · obtain ⟨d, hd, rfl⟩ := List.mem_map.mp hv
          exact hway.1 d hd
      · exact absurd hv (met v e)
    · exact h.finished newer u older hd v e

/-- A block already met is passed over. -/
theorem skip {l s : String} {rest : List String}
    (h : Searching bs fresh done ((l, s :: rest) :: stack)) (hs : s ∉ fresh) :
    Searching bs fresh done ((l, rest) :: stack) where
  nodup := h.nodup
  labels := h.labels
  entry := h.entry
  reached := h.reached
  way := List.pairwise_cons.mpr (List.pairwise_cons.mp h.way)
  toVisit e he v hv := by
    rcases List.mem_cons.mp he with rfl | he
    · exact h.toVisit (l, s :: rest) (by simp) v (List.mem_cons_of_mem _ hv)
    · exact h.toVisit e (List.mem_cons_of_mem _ he) v hv
  met e he v hev hv := by
    rcases List.mem_cons.mp he with rfl | he
    · have := h.met (l, s :: rest) (by simp) v hev hv
      rcases List.mem_cons.mp this with rfl | hr
      · exact absurd hv hs
      · exact hr
    · exact h.met e (List.mem_cons_of_mem _ he) v hev hv
  closed := h.closed
  finished := h.finished

/-- A fresh block is put on top of the block that leads to it. -/
theorem descend {l s : String} {rest : List String}
    (h : Searching bs fresh done ((l, s :: rest) :: stack)) (hs : s ∈ fresh) :
    Searching bs (fresh.erase s) done ((s, bs.successors s) :: (l, rest) :: stack) := by
  have hfresh : fresh.Nodup := (List.nodup_append.mp (List.nodup_append.mp h.nodup).2.1).2.1
  have perm : (done ++ (((s, bs.successors s) :: (l, rest) :: stack).map (·.1)
      ++ fresh.erase s)).Perm (done ++ (((l, s :: rest) :: stack).map (·.1) ++ fresh)) := by
    refine List.Perm.append_left done ?_
    simp only [List.map_cons, List.cons_append]
    refine (List.Perm.swap _ _ _).trans (.cons l ?_)
    exact List.perm_middle.symm.trans ((List.perm_cons_erase hs).symm.append_left _)
  have gone : s ∉ fresh.erase s := hfresh.not_mem_erase
  have sub : ∀ {v}, v ∈ fresh.erase s → v ∈ fresh := List.mem_of_mem_erase
  have edge : bs.Edge l s := ⟨h.toVisit (l, s :: rest) (by simp) s (by simp),
    (h.labels s).mp (by simp [hs])⟩
  have below : ∀ b ∈ (l, rest) :: stack, ReflTransGen bs.Edge b.1 l := by
    intro b hb
    rcases List.mem_cons.mp hb with rfl | hb
    · exact .refl
    · exact (List.pairwise_cons.mp h.way).1 b hb
  refine ⟨perm.nodup_iff.mpr h.nodup, fun x => perm.mem_iff.trans (h.labels x),
    fun he => h.entry (sub he), ?_, ?_, ?_, ?_, fun u hu v e hv => h.closed u hu v e (sub hv),
    h.finished⟩
  · have hl := h.reached l (by simp)
    intro x hx
    by_cases hxs : x = s
    · exact hxs ▸ hl.step edge
    · exact h.reached x (by simpa [hxs] using hx)
  · refine List.pairwise_cons.mpr ⟨fun b hb => (below b hb).tail edge, ?_⟩
    exact List.pairwise_cons.mpr (List.pairwise_cons.mp h.way)
  · intro e he v hv
    rcases List.mem_cons.mp he with rfl | he
    · exact hv
    · rcases List.mem_cons.mp he with rfl | he
      · exact h.toVisit (l, s :: rest) (by simp) v (List.mem_cons_of_mem _ hv)
      · exact h.toVisit e (List.mem_cons_of_mem _ he) v hv
  · intro e he v hev hv
    rcases List.mem_cons.mp he with rfl | he
    · exact hev.1
    · rcases List.mem_cons.mp he with rfl | he
      · rcases List.mem_cons.mp (h.met (l, s :: rest) (by simp) v hev (sub hv)) with rfl | hr
        · exact absurd hv gone
        · exact hr
      · exact h.met e (List.mem_cons_of_mem _ he) v hev (sub hv)

/-- The blocks a search ends with, together with all that holds of them. -/
theorem run (h : Searching bs fresh done stack) :
    ∃ fresh', Searching bs fresh' (bs.search fresh done stack) [] := by
  fun_induction search bs fresh done stack with
  | case1 => exact ⟨_, h⟩
  | case2 _ _ _ _ ih => exact ih h.finish
  | case3 _ _ _ _ _ _ hs _ ih => exact ih (h.descend hs)
  | case4 _ _ _ _ _ _ hs ih => exact ih (h.skip hs)

end Searching

/-! ## The order of the blocks -/

/-- The search begins with `entry` on the stack. -/
theorem searching_entry (h : bs.contains entryLabel = true) :
    Searching bs (bs.keys.erase entryLabel) [] [(entryLabel, bs.successors entryLabel)] where
  nodup := (List.perm_cons_erase (Table.mem_keys.mpr h)).nodup_iff.mp bs.nodup_keys
  labels l := ((List.perm_cons_erase (Table.mem_keys.mpr h)).mem_iff).symm.trans Table.mem_keys
  entry := bs.nodup_keys.not_mem_erase
  reached l hl := by
    rw [show l = entryLabel by simpa using hl]
    exact (Path.entry h).reachable
  way := List.pairwise_singleton _ _
  toVisit e he v hv := by rw [List.mem_singleton.mp he] at hv ⊢; exact hv
  met e he v hev _ := by rw [List.mem_singleton.mp he] at hev ⊢; exact hev.1
  closed u hu := by simp at hu
  finished newer u older h := by simp at h

/-- A finished search, or no `entry` to search from. -/
theorem reversePostOrder_cases (bs : Blocks) :
    (bs.contains entryLabel = false ∧ bs.reversePostOrder = []) ∨
      bs.contains entryLabel = true ∧ ∃ fresh, Searching bs fresh bs.reversePostOrder [] := by
  by_cases h : bs.contains entryLabel = true
  · rw [reversePostOrder, if_pos h]
    exact .inr ⟨h, (searching_entry h).run⟩
  · rw [reversePostOrder, if_neg h]
    exact .inl ⟨Bool.eq_false_iff.mpr h, rfl⟩

/-- **The order holds exactly the blocks within reach.** -/
theorem mem_reversePostOrder {l : String} : l ∈ bs.reversePostOrder ↔ bs.Reachable l := by
  rcases bs.reversePostOrder_cases with ⟨hc, hr⟩ | ⟨-, fresh, hs⟩
  · rw [hr]
    refine ⟨fun h => by simp at h, fun h => ?_⟩
    rw [h.contains_entry] at hc
    cases hc
  · have met : ∀ {v}, bs.contains v = true → v ∉ fresh → v ∈ bs.reversePostOrder := by
      intro v hv hf
      simpa [hf] using (hs.labels v).mpr hv
    refine ⟨fun h => hs.reached l (by simpa using h), ?_⟩
    rintro ⟨before, h⟩
    induction h with
    | entry h => exact met h hs.entry
    | step _ e ih => exact met e.2 (hs.closed _ ih _ e)

theorem nodup_reversePostOrder (bs : Blocks) : bs.reversePostOrder.Nodup := by
  rcases bs.reversePostOrder_cases with ⟨-, hr⟩ | ⟨-, fresh, hs⟩
  · rw [hr]
    exact List.nodup_nil
  · exact (List.nodup_append.mp hs.nodup).1

/-- **A block comes before those it leads to**, unless they lead back to it. -/
theorem reversePostOrder_edge {newer older : List String} {u v : String}
    (h : bs.reversePostOrder = newer ++ u :: older) (e : bs.Edge u v) :
    v ∈ older ∨ ReflTransGen bs.Edge v u := by
  rcases bs.reversePostOrder_cases with ⟨-, hr⟩ | ⟨-, fresh, hs⟩
  · simp [hr] at h
  · exact hs.finished newer u older h v e

/-- **A predecessor comes first**, unless the block leads back to it. -/
theorem pred_mem_or_leads {newer older : List String} {p l : String}
    (h : bs.reversePostOrder = newer ++ l :: older) (hp : bs.Reachable p) (e : bs.Edge p l) :
    p ∈ newer ∨ ReflTransGen bs.Edge l p := by
  have hmem := mem_reversePostOrder.mpr hp
  rw [h, List.mem_append, List.mem_cons] at hmem
  rcases hmem with hmem | rfl | hmem
  · exact .inl hmem
  · exact .inr .refl
  · obtain ⟨between, after, rfl⟩ := List.append_of_mem hmem
    have hsplit : bs.reversePostOrder = (newer ++ l :: between) ++ p :: after := by simp [h]
    refine .inr ((reversePostOrder_edge hsplit e).resolve_left fun hl => ?_)
    have hnodup := bs.nodup_reversePostOrder
    rw [hsplit] at hnodup
    exact (List.nodup_append.mp hnodup).2.2 l (by simp) l (by simp [hl]) rfl

/-- **Where nothing leads back, every predecessor comes first.** -/
theorem pred_mem_of_order (ha : bs.Acyclic) {newer older : List String} {p l : String}
    (h : bs.reversePostOrder = newer ++ l :: older) (hp : bs.Reachable p) (e : bs.Edge p l) :
    p ∈ newer :=
  (pred_mem_or_leads h hp e).resolve_right fun hback => ha p hp (TransGen.head' e hback)

/-- **What every block within reach takes over from its predecessors within reach, all have.** -/
theorem Acyclic.reachable_induction (ha : bs.Acyclic) {motive : String → Prop}
    (step : ∀ l, bs.Reachable l → (∀ p, bs.Reachable p → bs.Edge p l → motive p) → motive l)
    {l : String} (hl : bs.Reachable l) : motive l := by
  obtain ⟨newer, older, h⟩ := List.append_of_mem (mem_reversePostOrder.mpr hl)
  -- on the number of blocks taken before
  induction hn : newer.length using Nat.strongRecOn generalizing newer older l with
  | _ n ih =>
    refine step l hl fun p hp e => ?_
    obtain ⟨first, between, rfl⟩ := List.append_of_mem (pred_mem_of_order ha h hp e)
    refine ih first.length ?_ hp first (between ++ l :: older) ?_ rfl
    · rw [← hn, List.length_append, List.length_cons]
      omega
    · rw [h, List.append_assoc, List.cons_append]

/-! ## All the blocks -/

theorem order_perm_keys (bs : Blocks) : bs.order.Perm bs.keys := by
  refine (List.perm_ext_iff_of_nodup ?_ bs.nodup_keys).mpr fun l => ?_
  · refine List.nodup_append.mpr ⟨bs.nodup_reversePostOrder, bs.nodup_keys.filter _, ?_⟩
    rintro l hl _ hr rfl
    simpa [hl] using (List.mem_filter.mp hr).2
  · have reach : l ∈ bs.reversePostOrder → l ∈ bs.keys := fun h =>
      Table.mem_keys.mpr (mem_reversePostOrder.mp h).contains
    by_cases h : l ∈ bs.reversePostOrder <;> simp [order, h]
    exact reach h

/-- **No block is lost and none taken twice**, whatever leads to what. -/
theorem ordered_perm_values (bs : Blocks) : bs.ordered.Perm bs.values := by
  rw [ordered, ← bs.filterMap_get?_keys]
  exact bs.order_perm_keys.filterMap bs.get?

theorem nodup_order (bs : Blocks) : bs.order.Nodup :=
  bs.order_perm_keys.nodup_iff.mpr bs.nodup_keys

theorem mem_order {l : String} : l ∈ bs.order ↔ bs.contains l = true :=
  bs.order_perm_keys.mem_iff.trans Table.mem_keys

/-- **In the order of all blocks**, too, a predecessor within reach comes before a block within
reach, unless the block leads back to it. -/
theorem pred_mem_or_leads_of_split {done rest : List String} {l p : String}
    (h : bs.order = done ++ l :: rest) (hl : bs.Reachable l) (hp : bs.Reachable p)
    (e : bs.Edge p l) : p ∈ done ∨ ReflTransGen bs.Edge l p := by
  obtain ⟨newer, older, hsplit⟩ := List.append_of_mem (mem_reversePostOrder.mpr hl)
  have hnodup := bs.nodup_order
  rw [h, List.nodup_middle, List.nodup_cons, List.mem_append, not_or] at hnodup
  rw [order, hsplit, List.append_assoc, List.cons_append] at h
  have hsame := (List.append_cons_inj_of_notMem hnodup.1.1 hnodup.1.2).mp h.symm
  rw [hsame.1]
  exact pred_mem_or_leads hsplit hp e

end Monomorph.Blocks
