import Monomorph.Body.Lowering
import Monomorph.Proofs.Graph.PostOrder
import Monomorph.Proofs.Ssa.Checked

/-!
# Ssa/Faults — the bodies that conversion refuses

Nothing is asked of a body here.  A block is refused if a predecessor within reach is still to come
(`ssaBlock_cases`).  In the order of the blocks that is one the block leads back to, so a refusal
shows a cycle; and a run without one has taken every predecessor first, so its order is a rank that
rises along every edge.  Hence **conversion faults just where a label is missing or a cycle is
within reach** (`Pass.ssa_faults`).  The versions a merge asks for are always there
(`Naming.merge?_eq`).
-/

namespace Monomorph

open Relation

/-! ## What a merge looks up -/

/-- The version of a base name at the end of each predecessor, if all have one. -/
def Incoming.versions? (inc : Incoming) (base : String) : Option (List (String × Register)) :=
  inc.mapM fun p => (p.2.get? base).map fun r => (p.1, r)

theorem Incoming.versions?_eq {inc : Incoming} {base : String}
    (h : ∀ p ∈ inc, p.2.contains base = true) : inc.versions? base
      = some (inc.filterMap fun p => (p.2.get? base).map fun r => (p.1, r)) := by
  rw [versions?]
  induction inc with
  | nil => rfl
  | cons p inc ih =>
    obtain ⟨hp, hinc⟩ := List.forall_mem_cons.mp h
    obtain ⟨r, hr⟩ := Table.contains_iff.mp hp
    rw [List.mapM_cons, ih hinc, hr, List.filterMap_cons, hr]
    rfl

namespace Naming

/-- Merge one base name, each version looked up: nothing if a predecessor has none. -/
def mergeOne? (s : Naming) (inc : Incoming) (base : String) (r : Register) :
    Option (Register × List Op × Naming) := do
  let versions ← inc.versions? base
  if versions.all fun e => e.2.name = r.name then some (r, [], s)
  else
    let (name, s) := s.fresh base
    let target := r.withName name
    some (target, [⟨.synthetic, .phi (Table.ofList versions) target⟩], s)

/-- Merge base names in turn, the first version of each looked up as well. -/
def mergeAll? (s : Naming) (inc : Incoming) (first : Versions) :
    List String → Versions → Option (Versions × List Op × Naming)
  | [], v => some (v, [], s)
  | base :: rest, v => do
      let r ← first.get? base
      let (w, phi, s) ← s.mergeOne? inc base r
      let (v, phis, s) ← s.mergeAll? inc first rest (v.insert base w)
      return (v, phi ++ phis, s)

/-- The versions at the start of a block, if no look-up on the way fails. -/
def merge? (s : Naming) : Incoming → Option (Versions × List Op × Naming)
  | [] => some (∅, [], s)
  | (l, first) :: rest =>
      let everywhere := first.keys.filter fun base => rest.all fun p => p.2.contains base
      s.mergeAll? ((l, first) :: rest) first everywhere ∅

theorem mergeOne?_eq {inc : Incoming} {base : String} (h : ∀ p ∈ inc, p.2.contains base = true)
    (s : Naming) (r : Register) : s.mergeOne? inc base r = some (s.mergeOne inc base r) := by
  have hall : (inc.filterMap fun p => (p.2.get? base).map fun r => (p.1, r)).all
        (fun e => e.2.name = r.name)
      = inc.all fun p => (p.2.get? base).all fun w => w.name = r.name := by
    rw [List.all_filterMap]
    congr 1
    funext p
    cases p.2.get? base <;> rfl
  rw [mergeOne?, Incoming.versions?_eq h, mergeOne, Option.bind_eq_bind, Option.bind_some, hall]
  split <;> rfl

theorem mergeAll?_eq {inc : Incoming} {first : Versions} {l : List (String × Register)}
    (h : ∀ e ∈ l, first.get? e.1 = some e.2 ∧ ∀ p ∈ inc, p.2.contains e.1 = true) (s : Naming)
    (v : Versions) : s.mergeAll? inc first (l.map (·.1)) v = some (s.mergeAll inc l v) := by
  induction l generalizing s v with
  | nil => rfl
  | cons e l ih =>
    obtain ⟨base, r⟩ := e
    obtain ⟨⟨hr, hp⟩, hl⟩ := List.forall_mem_cons.mp h
    rw [List.map_cons, mergeAll?, mergeAll]
    simp only at hr hp
    simp only [hr, mergeOne?_eq hp, Option.bind_eq_bind, Option.bind_some, ih hl]
    rfl

/-- **No look-up of a merge fails.** -/
theorem merge?_eq (s : Naming) (inc : Incoming) : s.merge? inc = some (s.merge inc) := by
  cases inc with
  | nil => rfl
  | cons p rest =>
    obtain ⟨l, first⟩ := p
    have heverywhere : (first.keys.filter fun base => rest.all fun p => p.2.contains base)
        = (Incoming.shared ((l, first) :: rest)).map (·.1) := by
      rw [Table.keys, List.filter_map, Incoming.shared]
      rfl
    rw [merge?, heverywhere, mergeAll?_eq, merge_eq]
    rintro ⟨base, r⟩ he
    exact ⟨Table.mem_entries.mp (List.mem_filter.mp he).1, (Incoming.shared_spec he).2⟩

end Naming

namespace Blocks

variable {bs : Blocks} {done rest : List String} {st : SsaState}

/-! ## Labels that no block has -/

theorem undefinedTarget?_eq_some {f : Fault} (h : bs.undefinedTarget? = some f) :
    ∃ l b v, bs.get? l = some b ∧ v ∈ b.successors ∧ bs.contains v = false ∧
      f = .undefinedTarget b.label v := by
  obtain ⟨b, hb, hf⟩ := List.exists_of_findSome?_eq_some h
  obtain ⟨l, hl⟩ := Table.mem_values.mp hb
  obtain ⟨v, hv, rfl⟩ := Option.map_eq_some_iff.mp hf
  exact ⟨l, b, v, hl, List.mem_of_find?_eq_some hv, by simpa using List.find?_some hv, rfl⟩

theorem closed_of_undefinedTarget? (h : bs.undefinedTarget? = none) : bs.Closed := by
  intro u v hv
  rw [successors] at hv
  split at hv
  · rename_i b hb
    have hnone := List.findSome?_eq_none_iff.mp h b (Table.mem_values.mpr ⟨u, hb⟩)
    rw [Option.map_eq_none_iff, List.find?_eq_none] at hnone
    simpa using hnone v hv
  · cases hv

/-! ## Blocks taken too early -/

/-- **A block is refused for a predecessor still to come**, or taken. -/
theorem ssaBlock_cases (params : List String) {l : String} (h : bs.Taking done st)
    (hl : bs.contains l = true) :
    (∃ p, bs.ssaBlock params bs.reversePostOrder st l = .error (.cyclicBlocks p l) ∧
        bs.Reachable l ∧ bs.Reachable p ∧ bs.Edge p l ∧ p ∉ done) ∨
      ∃ st', bs.ssaBlock params bs.reversePostOrder st l = .ok st' ∧ bs.Taking (done ++ [l]) st' ∧
        (bs.Reachable l → ∀ p, bs.Reachable p → bs.Edge p l → p ∈ done) := by
  have hcounted : bs.Reachable l →
      ∀ {p}, p ∈ bs.counted l ↔ bs.Reachable p ∧ bs.Edge p l := by
    intro hr p
    rw [counted_of_reachable hr, List.mem_filter, mem_predecessors_iff_edge hl,
      decide_eq_true_eq, mem_reversePostOrder, and_comm]
  by_cases hall : bs.Reachable l → ∀ p ∈ bs.counted l, st.out.contains p = true
  · right
    obtain ⟨b, hb⟩ := Table.contains_iff.mp ((h.labels l).trans hl)
    rcases hbegin : begin params st.naming (bs.arriving st.out l) l with ⟨start, phis, s⟩
    rcases hops : s.ops start b.ops with ⟨ops, t, atEnd⟩
    refine ⟨_, ssaBlock_eq hb hall hbegin hops, h.insert hl, fun hr p hp e => ?_⟩
    exact (h.out p hp.contains).mp (hall hr p ((hcounted hr).mpr ⟨hp, e⟩))
  · left
    rw [Classical.not_imp] at hall
    obtain ⟨hr, hall⟩ := hall
    have hfind : ((bs.counted l).find? fun p => !st.out.contains p).isSome = true := by
      simpa using hall
    obtain ⟨p, hp⟩ := Option.isSome_iff_exists.mp hfind
    obtain ⟨hpr, e⟩ := (hcounted hr).mp (List.mem_of_find?_eq_some hp)
    refine ⟨p, ?_, hr, hpr, e, fun hd => ?_⟩
    · rw [ssaBlock_eq_match, if_pos (decide_eq_true (mem_reversePostOrder.mpr hr)), hp]
    · have := List.find?_some hp
      rw [(h.out p hpr.contains).mpr hd] at this
      cases this

/-- **Blocks in turn**: one is refused, for a predecessor it leads back to, or each is taken after
its predecessors within reach. -/
theorem ssaFrom_cases (params : List String) (h : bs.Taking done st)
    (hr : bs.order = done ++ rest) :
    (∃ p l, bs.ssaFrom params bs.reversePostOrder st rest = .error (.cyclicBlocks p l) ∧
        bs.Reachable p ∧ bs.Edge p l ∧ ReflTransGen bs.Edge l p) ∨
      (∃ st', bs.ssaFrom params bs.reversePostOrder st rest = .ok st') ∧
        ∀ before l after, rest = before ++ l :: after → bs.Reachable l →
          ∀ p, bs.Reachable p → bs.Edge p l → p ∈ done ++ before := by
  induction rest generalizing done st with
  | nil => exact .inr ⟨⟨st, rfl⟩, fun before l after heq => by simp at heq⟩
  | cons k rest ih =>
    rw [ssaFrom]
    have hcontains : bs.contains k = true := mem_order.mp (by simp [hr])
    rcases ssaBlock_cases params h hcontains with
      ⟨p, hst, hk, hp, e, hnew⟩ | ⟨st', hst, h', hpred⟩
    · rw [hst]
      exact .inl ⟨p, k, rfl, hp, e, (pred_mem_or_leads_of_split hr hk hp e).resolve_left hnew⟩
    · rw [hst]
      rcases ih h' (by simp [hr]) with hfault | ⟨hok, hrest⟩
      · exact .inl hfault
      refine .inr ⟨hok, fun before l after heq hl p hp e => ?_⟩
      rcases List.cons_eq_append_iff.mp heq with ⟨rfl, hcons⟩ | ⟨between, rfl, hafter⟩
      · obtain ⟨rfl, -⟩ := List.cons.inj hcons
        exact List.mem_append_left _ (hpred hl p hp e)
      · simpa using hrest between l after hafter hl p hp e

/-- **Conversion of any body**: a label is missing, a cycle is within reach, or it succeeds. -/
theorem toSsa_cases (bs : Blocks) (params : List String) :
    (∃ l b v, bs.toSsa params = .error (.undefinedTarget b.label v) ∧ bs.get? l = some b ∧
        v ∈ b.successors ∧ bs.contains v = false) ∨
      (∃ p l, bs.toSsa params = .error (.cyclicBlocks p l) ∧ bs.Closed ∧ bs.Reachable p ∧
        bs.Edge p l ∧ ReflTransGen bs.Edge l p) ∨
      (∃ r, bs.toSsa params = .ok r) ∧ bs.Closed ∧ bs.Acyclic := by
  rw [toSsa]
  cases hu : bs.undefinedTarget? with
  | some f =>
    obtain ⟨l, b, v, hb, hv, hnone, rfl⟩ := undefinedTarget?_eq_some hu
    exact .inl ⟨l, b, v, rfl, hb, hv, hnone⟩
  | none =>
    have hclosed := closed_of_undefinedTarget? hu
    right
    have hstart := bs.taking_nil ⟨params, ∅, false⟩
    rcases ssaFrom_cases params hstart (List.nil_append _).symm with
      ⟨p, l, hrun, hp, e, hback⟩ | ⟨⟨st, hrun⟩, hfirst⟩
    · exact .inl ⟨p, l, by simp only [hrun]; rfl, hclosed, hp, e, hback⟩
    · refine .inr ⟨⟨(st.blocks, st.naming.changed), by simp only [hrun]; rfl⟩, hclosed, ?_⟩
      refine acyclic_of_reachable_rank bs.order.idxOf fun u v hu e => ?_
      obtain ⟨before, after, hsplit⟩ := List.append_of_mem (mem_order.mpr e.2)
      exact Listing.idxOf_lt_of_split hsplit bs.nodup_order
        (hfirst before v after hsplit (hu.step e) u hu e)

theorem exists_toSsa (params : List String) (hc : bs.Closed) (ha : bs.Acyclic) :
    ∃ r, bs.toSsa params = .ok r := by
  rcases bs.toSsa_cases params with
    ⟨l, b, v, -, hb, hv, hnone⟩ | ⟨p, l, -, -, hp, e, hback⟩ | ⟨hok, -⟩
  · have := hc l v (by rwa [successors_of_get? hb])
    rw [hnone] at this
    cases this
  · exact absurd (.head' e hback) (ha p hp)
  · exact hok

end Blocks

/-! ## The pass -/

namespace Pass

theorem run_ssa (params : List String) (b : Body) : (ssa params).run b
    = (b.blocks.toSsa params).map fun r => ({ b with blocks := r.1 }, r.2) := by
  change (b.blocks.toSsa params >>= fun r => pure ({ b with blocks := r.1 }, r.2)) = _
  cases b.blocks.toSsa params <;> rfl

/-- **Which bodies conversion refuses**, whatever they hold.  It faults on a label just if some
block, within reach or not, leads to a label no block has; else on a cycle just if a block within
reach leads back to itself; else it succeeds.  The first fault names such a block and label, the
second an edge that closes a cycle, and no look-up of a merge fails. -/
theorem ssa_faults (params : List String) (b : Body) :
    ((∃ u v, (ssa params).run b = .error (.undefinedTarget u v)) ↔ ¬ b.blocks.Closed) ∧
      (b.blocks.Closed →
        ((∃ p l, (ssa params).run b = .error (.cyclicBlocks p l)) ↔
          ∃ l, b.blocks.Reachable l ∧ TransGen b.blocks.Edge l l)) ∧
      (b.blocks.Closed → b.blocks.Acyclic → ∃ b' changed, (ssa params).run b = .ok (b', changed)) ∧
      (∀ u v, (ssa params).run b = .error (.undefinedTarget u v) → ∃ l block,
        b.blocks.get? l = some block ∧ block.label = u ∧ v ∈ block.successors ∧
          b.blocks.contains v = false) ∧
      (∀ p l, (ssa params).run b = .error (.cyclicBlocks p l) →
        b.blocks.Reachable p ∧ b.blocks.Edge p l ∧ ReflTransGen b.blocks.Edge l p) ∧
      ∀ (s : Naming) (inc : Incoming), s.merge? inc = some (s.merge inc) := by
  rw [run_ssa]
  rcases b.blocks.toSsa_cases params with
    ⟨l, block, v, hrun, hb, hv, hnone⟩ | ⟨p, l, hrun, hclosed, hp, e, hback⟩ |
      ⟨⟨r, hrun⟩, hclosed, hacyclic⟩
  case inl =>
    have hopen : ¬ b.blocks.Closed := fun h => by
      have := h l v (by rwa [Blocks.successors_of_get? hb])
      rw [hnone] at this
      cases this
    simp only [hrun, Except.map, Except.error.injEq, Fault.undefinedTarget.injEq, reduceCtorEq]
    refine ⟨⟨fun _ => hopen, fun _ => ⟨_, _, rfl, rfl⟩⟩, fun h => absurd h hopen,
      fun h => absurd h hopen, ?_, fun _ _ h => h.elim, Naming.merge?_eq⟩
    rintro _ _ ⟨rfl, rfl⟩
    exact ⟨l, block, hb, rfl, hv, hnone⟩
  case inr.inl =>
    have hcycle : TransGen b.blocks.Edge p p := .head' e hback
    simp only [hrun, Except.map, Except.error.injEq, Fault.cyclicBlocks.injEq, reduceCtorEq]
    refine ⟨⟨fun ⟨_, _, h⟩ => h.elim, fun h => absurd hclosed h⟩,
      fun _ => ⟨fun _ => ⟨p, hp, hcycle⟩, fun _ => ⟨_, _, rfl, rfl⟩⟩,
      fun _ h => absurd hcycle (h p hp), fun _ _ h => h.elim, ?_, Naming.merge?_eq⟩
    rintro _ _ ⟨rfl, rfl⟩
    exact ⟨hp, e, hback⟩
  case inr.inr =>
    simp only [hrun, Except.map, reduceCtorEq]
    refine ⟨⟨fun ⟨_, _, h⟩ => h.elim, fun h => absurd hclosed h⟩,
      fun _ => ⟨fun ⟨_, _, h⟩ => h.elim, fun ⟨l, hl, hcycle⟩ => absurd hcycle (hacyclic l hl)⟩,
      fun _ _ => ⟨_, _, rfl⟩, fun _ _ h => h.elim, fun _ _ h => h.elim, Naming.merge?_eq⟩

open Blocks in
/-- A loop within reach is refused, a missing label before it; out of reach the loop may stay. -/
theorem circling_faults :
    (∃ p l, (ssa []).run ⟨"", .synthetic, circling, none⟩ = .error (.cyclicBlocks p l)) ∧
      (∃ u v, (ssa []).run ⟨"", .synthetic, circling.erase exitLabel, none⟩
        = .error (.undefinedTarget u v)) ∧
      ∃ b' changed, (ssa []).run ⟨"", .synthetic, circling.erase entryLabel, none⟩
        = .ok (b', changed) := by
  have hclosed : circling.Closed := closed_of_keys (by decide +kernel)
  have hinto : circling.Edge entryLabel "head" := ⟨by decide +kernel, by decide +kernel⟩
  have hdown : circling.Edge "head" "body" := ⟨by decide +kernel, by decide +kernel⟩
  have hup : circling.Edge "body" "head" := ⟨by decide +kernel, by decide +kernel⟩
  have hhead : circling.Reachable "head" :=
    (Path.entry (by decide +kernel)).reachable.step hinto
  have hopen : ¬ Blocks.Closed (circling.erase exitLabel) := fun h =>
    absurd (h "head" exitLabel (by decide +kernel)) (by decide +kernel)
  have haside : Blocks.Closed (circling.erase entryLabel) := closed_of_keys (by decide +kernel)
  have hnowhere : Blocks.Acyclic (circling.erase entryLabel) := fun _ hl =>
    absurd hl.contains_entry (by decide +kernel)
  obtain ⟨-, hcyclic, -⟩ := ssa_faults [] ⟨"", .synthetic, circling, none⟩
  obtain ⟨hmissing, -⟩ := ssa_faults [] ⟨"", .synthetic, circling.erase exitLabel, none⟩
  obtain ⟨-, -, hok, -⟩ := ssa_faults [] ⟨"", .synthetic, circling.erase entryLabel, none⟩
  exact ⟨(hcyclic hclosed).mpr ⟨"head", hhead, .tail (.single hdown) hup⟩, hmissing.mpr hopen,
    hok haside hnowhere⟩

end Pass

end Monomorph
