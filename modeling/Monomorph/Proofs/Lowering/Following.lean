import Monomorph.Proofs.Body.Meaning
import Monomorph.Proofs.Graph.Shape

/-!
# Lowering/Following — bodies that do the same

Two bodies with one graph do the same if along every way they have the same events, leaving out
those that only give a temporary its value (`Follows`).  Which way a branch goes is decided by its
event and the acting events before it, so **a body that follows another visits the same blocks**
(`Follows.execute`): the ways are given beforehand, and execution takes one of them.
-/

namespace Monomorph

/-- Whether an instruction does more than give a temporary its value. -/
def Instr.acts {α : Type} (i : Instr α) : Bool :=
  i.removable?.isNone

namespace Instr

variable {α β : Type} (i : Instr α)

@[simp] theorem acts_map (f : α → β) : (i.map f).acts = i.acts := by
  rw [acts, acts, removable?_map]

@[simp] theorem acts_mapSlots (r : Renaming) : (i.mapSlots r).acts = i.acts := by
  rw [acts, acts, removable?_mapSlots]

@[simp] theorem acts_mapTarget (r : Renaming) : (i.mapTarget r).acts = i.acts := by
  rw [acts, acts, removable?_mapTarget, Option.isNone_map]

@[simp] theorem acts_plain : i.plain.acts = i.acts := by
  rw [plain, acts_mapTarget, acts_mapSlots]

/-- What ends a block acts. -/
theorem acts_of_isTerminator {i : Instr α} (h : i.isTerminator = true) : i.acts = true := by
  cases i <;> simp_all [isTerminator, acts, removable?]

end Instr

variable {V : Type}

/-- The events that are more than a temporary's value. -/
def acting (past : List (Event V)) : List (Event V) :=
  past.filter fun e => e.instr.acts

namespace Meaning

/-- **What passes over code rely on**: an assignment copies, and what an operation gives and where
a branch goes depends on the acting events before it alone. -/
structure Lawful (m : Meaning V) : Prop where
  assign : ∀ past e a t, e.instr = .assign a t → m.gives past e = a
  gives : ∀ past past' e, acting past = acting past' → m.gives past e = m.gives past' e
  takes : ∀ past past' e, acting past = acting past' → m.takes past e = m.takes past' e

/-- An assignment copies, whatever has happened before. -/
def Assigning (m : Meaning V) : Prop :=
  ∀ past e a t, e.instr = .assign a t → m.gives past e = a

theorem Lawful.assigning {m : Meaning V} (hm : m.Lawful) : m.Assigning := hm.assign

variable (m : Meaning V)

@[simp] theorem acts_event (σ : Store V) (o : Op) : (m.event σ o).instr.acts = o.instr.acts := by
  rw [event, Instr.acts_plain, Instr.acts_map]

/-! ## Where control goes -/

/-- The label to go on to, the last acting event being that of the branch. -/
def chosen (past : List (Event V)) : List String → Option String
  | [l] => some l
  | [x, y] => (acting past).getLast?.map fun e => if m.takes past e then x else y
  | _ => none

theorem chosen_mem {past : List (Event V)} {labels : List String} {l : String}
    (h : m.chosen past labels = some l) : l ∈ labels := by
  unfold chosen at h
  split at h
  · obtain rfl := Option.some.inj h
    exact List.mem_cons_self
  · obtain ⟨e, -, rfl⟩ := Option.map_eq_some_iff.mp h
    split <;> simp
  · cases h

theorem chosen_congr {m : Meaning V} (hm : m.Lawful) {past past' : List (Event V)}
    (h : acting past = acting past') (labels : List String) :
    m.chosen past labels = m.chosen past' labels := by
  unfold chosen
  split
  · rfl
  · rw [h]
    simp only [hm.takes past past' _ h]
  · rfl

/-- **Where a block goes on to** is chosen among its successors, by what has happened. -/
theorem next_steps (origin : Option String) (s : Running V) (b : Block) :
    m.next (m.steps origin s b.ops) b = m.chosen (m.steps origin s b.ops).past b.successors := by
  rcases List.eq_nil_or_concat b.ops with hops | ⟨init, o, hops⟩
  · rw [next, Block.successors, Block.terminator?, hops]
    rfl
  · rw [List.concat_eq_append] at hops
    have hlast : b.ops.getLast? = some o := by rw [hops, List.getLast?_concat]
    by_cases ht : o.instr.isTerminator = true
    · have hterm : b.terminator? = some o := by simp [Block.terminator?, hlast, ht]
      have hmerge : o.instr.isMerge = false := by
        cases hi : o.instr <;> simp_all [Instr.isTerminator, Instr.isMerge]
      set u := m.steps origin s init with hu
      have hsteps : m.steps origin s b.ops = ⟨u.store, u.past ++ [m.event u.store o]⟩ := by
        rw [hops, m.steps_append, m.steps_cons, m.steps_nil, m.step_event hmerge,
          Instr.target?_of_isTerminator ht]
      have hacting :
          (acting (u.past ++ [m.event u.store o])).getLast? = some (m.event u.store o) := by
        rw [acting, List.filter_append, List.filter_cons_of_pos]
        · exact List.getLast?_concat
        · rw [m.acts_event]
          exact Instr.acts_of_isTerminator ht
      rw [next, hterm, Block.successors, hterm, hsteps, Option.bind_some]
      cases hi : o.instr with
      | branch a x y | branchNone a x y =>
        simp only [target, hi, Instr.labels, chosen, hacting, Option.map_some]
        split <;> rfl
      | jump l => simp [target, hi, Instr.labels, chosen]
      | _ => simp [hi, Instr.isTerminator] at ht
    · have hterm : b.terminator? = none := by simp [Block.terminator?, hlast, ht]
      rw [next, Block.successors, hterm]
      rfl

end Meaning

/-! ## Following -/

namespace Blocks

/-- `bs'` does as `bs` does: along every way, the same acting events. -/
structure Follows (m : Meaning V) (bs bs' : Blocks) (s s' : Running V) : Prop where
  graph : SameGraph bs bs'
  begins : acting s'.past = acting s.past
  acting : ∀ before l, bs.Path before l →
    acting (m.along bs' none s' (before ++ [l])).past
      = acting (m.along bs none s (before ++ [l])).past

namespace Follows

variable {m : Meaning V} {bs bs' bs'' : Blocks} {s s' s'' : Running V}

theorem refl (m : Meaning V) (bs : Blocks) (s : Running V) : Follows m bs bs s s :=
  ⟨⟨fun _ => rfl, fun _ => rfl⟩, rfl, fun _ _ _ => rfl⟩

theorem trans (h : Follows m bs bs' s s') (h' : Follows m bs' bs'' s' s'') :
    Follows m bs bs'' s s'' where
  graph := h.graph.trans h'.graph
  begins := h'.begins.trans h.begins
  acting before l hl := (h'.acting before l (h.graph.path hl)).trans (h.acting before l hl)

/-- Up to the block control is at, too. -/
theorem acting_before (h : Follows m bs bs' s s') {before : List String} {l : String}
    (hl : bs.Path before l) : Monomorph.acting (m.along bs' none s' before).past
      = Monomorph.acting (m.along bs none s before).past := by
  rcases hl.eq_nil_or_step with ⟨rfl, -⟩ | ⟨way, u, rfl, hway, -⟩
  · exact h.begins
  · exact h.acting way u hway

/-- From wherever a way leads, execution takes the same one. -/
theorem execute_of_path (hm : m.Lawful) (hc : bs.Closed) (h : Follows m bs bs' s s') (n : Nat)
    {before : List String} {l : String} (hl : bs.Path before l) :
    (m.execute bs' n before.getLast? (m.along bs' none s' before) l).1
        = (m.execute bs n before.getLast? (m.along bs none s before) l).1 ∧
      Monomorph.acting (m.execute bs' n before.getLast? (m.along bs' none s' before) l).2.past
        = Monomorph.acting
            (m.execute bs n before.getLast? (m.along bs none s before) l).2.past := by
  induction n generalizing before l with
  | zero => exact ⟨rfl, h.acting_before hl⟩
  | succ n ih =>
    obtain ⟨b, hb⟩ := Table.contains_iff.mp hl.contains
    obtain ⟨b', hb'⟩ := Table.contains_iff.mp ((h.graph.contains l).trans hl.contains)
    have hsteps : m.steps before.getLast? (m.along bs none s before) b.ops
        = m.along bs none s (before ++ [l]) := by
      rw [m.along_concat, opsAt_of_get? hb, Option.or_none]
    have hsteps' : m.steps before.getLast? (m.along bs' none s' before) b'.ops
        = m.along bs' none s' (before ++ [l]) := by
      rw [m.along_concat, opsAt_of_get? hb', Option.or_none]
    have hsucc : b'.successors = b.successors := by
      rw [← successors_of_get? hb, ← successors_of_get? hb', h.graph.successors]
    have hnext : m.next (m.along bs' none s' (before ++ [l])) b'
        = m.next (m.along bs none s (before ++ [l])) b := by
      rw [← hsteps, ← hsteps', m.next_steps, m.next_steps, hsteps, hsteps', hsucc]
      exact Meaning.chosen_congr hm (h.acting before l hl) _
    rw [Meaning.execute, Meaning.execute, hb, hb']
    simp only [hsteps, hsteps', hnext]
    cases hk : m.next (m.along bs none s (before ++ [l])) b with
    | none => exact ⟨rfl, h.acting before l hl⟩
    | some k =>
      have hedge : bs.Edge l k := by
        rw [← hsteps, m.next_steps] at hk
        have hmem : k ∈ bs.successors l := by
          rw [successors_of_get? hb]
          exact m.chosen_mem hk
        exact ⟨hmem, hc l k hmem⟩
      have hrest := ih (hl.step hedge)
      rw [List.getLast?_concat] at hrest
      exact ⟨congrArg (l :: ·) hrest.1, hrest.2⟩

/-- **A body that follows another visits the same blocks**, with the same acting events. -/
theorem execute (hm : m.Lawful) (hc : bs.Closed) (h : Follows m bs bs' s s') (n : Nat) :
    (m.execute bs' n none s' entryLabel).1 = (m.execute bs n none s entryLabel).1 ∧
      Monomorph.acting (m.execute bs' n none s' entryLabel).2.past
        = Monomorph.acting (m.execute bs n none s entryLabel).2.past := by
  by_cases he : bs.contains entryLabel = true
  · exact h.execute_of_path hm hc n (.entry he)
  · have hnone : bs.get? entryLabel = none :=
      Table.contains_eq_false.mp (Bool.not_eq_true _ ▸ he)
    have hnone' : bs'.get? entryLabel = none := by
      rw [← Table.contains_eq_false, h.graph.contains, Table.contains_eq_false, hnone]
    cases n with
    | zero => exact ⟨rfl, h.begins⟩
    | succ n =>
      rw [Meaning.execute, Meaning.execute, hnone, hnone']
      exact ⟨rfl, h.begins⟩

end Follows

end Blocks

end Monomorph
