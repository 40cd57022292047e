import Mathlib.Data.List.Nodup
import Monomorph.Session.Basic

/-!
# Session/Queues — what waits, and what has been served

The keys a queue ever took on, in that order, are those it has served and behind them those that wait
(`WorkQueue.Served`).  Pushing a key puts it last unless it is there already (`Served.push`), popping
serves the first that waits (`Served.pop`); so keys are served in the order in which they were first
pushed, each once.
-/

namespace Monomorph

namespace WorkQueue

variable {α : Type} {q q' : WorkQueue α}

theorem contains_iff {k : String} : q.contains k = true ↔ k ∈ q.seen :=
  decide_eq_true_iff

theorem push_of_mem {k : String} (h : k ∈ q.seen) (a : α) : q.push k a = q :=
  dif_pos h

theorem seen_push_of_notMem {k : String} (h : k ∉ q.seen) (a : α) :
    (q.push k a).seen = k :: q.seen := by
  rw [push, dif_neg h]

theorem items_push_of_notMem {k : String} (h : k ∉ q.seen) (a : α) :
    (q.push k a).items = q.items ++ [a] := by
  rw [push, dif_neg h]

theorem mem_seen_push {k k' : String} {a : α} :
    k' ∈ (q.push k a).seen ↔ k' = k ∨ k' ∈ q.seen := by
  by_cases h : k ∈ q.seen
  · rw [push_of_mem h, or_iff_right_of_imp]
    exact fun heq => heq ▸ h
  · rw [seen_push_of_notMem h, List.mem_cons]

theorem pop_eq_none : q.pop = none ↔ q.items = [] := by
  rw [pop]
  cases q.items <;> simp

theorem pop_eq_some {a : α} (h : q.pop = some (a, q')) :
    q.items = a :: q'.items ∧ q'.seen = q.seen := by
  rw [pop] at h
  cases hitems : q.items with
  | nil =>
    rw [hitems] at h
    cases h
  | cons b r =>
    rw [hitems] at h
    obtain ⟨rfl, rfl⟩ := Prod.mk.inj (Option.some.inj h)
    exact ⟨rfl, rfl⟩

/-! ## Served in order -/

/-- The keys taken on are those served, in that order, and behind them those that wait. -/
def Served (q : WorkQueue Item) (served : List String) : Prop :=
  q.seen.reverse = served ++ q.items.map (·.key)

variable {w w' : WorkQueue Item} {served : List String}

theorem Served.push (h : w.Served served) (i : Item) : (w.push i.key i).Served served := by
  by_cases hk : i.key ∈ w.seen
  · rwa [push_of_mem hk]
  · rw [Served, seen_push_of_notMem hk, items_push_of_notMem hk, List.reverse_cons, h,
      List.map_append, List.append_assoc]
    rfl

theorem Served.pop {i : Item} (h : w.Served served) (hpop : w.pop = some (i, w')) :
    w'.Served (served ++ [i.key]) := by
  obtain ⟨hitems, hseen⟩ := pop_eq_some hpop
  rw [Served, hseen, h, hitems, List.map_cons, List.append_assoc]
  rfl

/-- **No key is served twice.** -/
theorem Served.nodup (h : w.Served served) : served.Nodup := by
  have hnodup := List.nodup_reverse.mpr w.nodup
  rw [h] at hnodup
  exact (List.nodup_append.mp hnodup).1

theorem Served.length_le (h : w.Served served) : served.length ≤ w.seen.length := by
  rw [← w.seen.length_reverse, h, List.length_append]
  exact Nat.le_add_right ..

/-- **Where nothing waits, every key taken on has been served.** -/
theorem Served.eq_reverse_seen (h : w.Served served) (hitems : w.items = []) :
    served = w.seen.reverse := by
  rw [h, hitems, List.map_nil, List.append_nil]

end WorkQueue

namespace Queues

variable {q q' : Queues} {l : Lane} {i : Item}

theorem get_push (q : Queues) (i : Item) (l : Lane) :
    (q.push i).get l = if l = i.work.lane then (q.get l).push i.key i else q.get l := by
  rw [push]
  by_cases h : l = i.work.lane
  · rw [if_pos h, h, get_set_self]
  · rw [if_neg h, get_set_ne _ _ h]

/-- An item under a key seen before is dropped. -/
theorem push_of_mem (h : i.key ∈ (q.get i.work.lane).seen) : q.push i = q := by
  rw [push, WorkQueue.push_of_mem h]
  cases i.work.lane <;> rfl

theorem mem_seen_push {k : String} :
    k ∈ ((q.push i).get l).seen ↔ (l = i.work.lane ∧ k = i.key) ∨ k ∈ (q.get l).seen := by
  rw [get_push]
  by_cases h : l = i.work.lane
  · rw [if_pos h, WorkQueue.mem_seen_push]
    simp [h]
  · simp [h]

/-- The lane popped is the first of those listed in which something waits. -/
theorem popFirst?_eq_some {ls : List Lane} (h : q.popFirst? ls = some (l, i, q')) :
    l ∈ ls ∧ ∃ w, (q.get l).pop = some (i, w) ∧ q' = q.set l w := by
  induction ls with
  | nil => cases h
  | cons l' ls ih =>
    rw [popFirst?] at h
    cases hpop : (q.get l').pop with
    | some e =>
      obtain ⟨j, w⟩ := e
      obtain ⟨rfl, rfl, rfl⟩ : l' = l ∧ j = i ∧ q.set l' w = q' := by simpa [hpop] using h
      exact ⟨List.mem_cons_self, w, hpop, rfl⟩
    | none =>
      rw [hpop] at h
      exact (ih h).imp_left (List.mem_cons_of_mem _)

/-- Popping forgets no key. -/
theorem seen_popFirst? {ls : List Lane} (h : q.popFirst? ls = some (l, i, q')) (l' : Lane) :
    (q'.get l').seen = (q.get l').seen := by
  obtain ⟨-, w, hw, rfl⟩ := popFirst?_eq_some h
  by_cases hl : l' = l
  · rw [hl, get_set_self, (WorkQueue.pop_eq_some hw).2]
  · rw [get_set_ne _ _ hl]

theorem popFirst?_eq_none {ls : List Lane} :
    q.popFirst? ls = none ↔ ∀ l ∈ ls, (q.get l).items = [] := by
  induction ls with
  | nil => simp [popFirst?]
  | cons l ls ih =>
    rw [popFirst?, List.forall_mem_cons]
    cases hpop : (q.get l).pop with
    | some e =>
      have : (q.get l).items ≠ [] := fun hnil => by
        rw [WorkQueue.pop_eq_none.mpr hnil] at hpop
        cases hpop
      simp [this]
    | none => simp [WorkQueue.pop_eq_none.mp hpop, ih]

end Queues

end Monomorph
