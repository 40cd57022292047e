import Monomorph.Body.VarTypes
import Monomorph.Proofs.Body.Accepted
import Monomorph.Proofs.Ssa.Verified

/-!
# Typing/Pass — one pass over a body, and what it has met so far

The types of a body are inferred in one pass over its operations.  A name has the type that was
found where it was written last (`TypeSource.get?_foldl_of_notMem`), and a local the type declared
last (`TypeSource.declared_foldl`).  In a body that passes the checks each name is written once, and
where nothing leads back **whatever an operation within reach reads was written before the pass came
to it** (`Blocks.reads_known`): a block is taken after the blocks on every way onward to it, and a
merge after the blocks its inputs are from.
-/

namespace Monomorph

/-- The names a row of operations writes. -/
def writtenBy (ops : List Op) : List String :=
  (ops.flatMap Op.writes).map Register.name

/-- The local whose lifetime begins, and its type. -/
def Op.declares? (o : Op) : Option (String × String) :=
  match o.instr with
  | .lifetimeStart name type => some (name, type)
  | _ => none

/-- The locals a row of operations declares, with their types. -/
def declaredBy (ops : List Op) : List (String × String) :=
  ops.filterMap Op.declares?

theorem writtenBy_append (ops ops' : List Op) :
    writtenBy (ops ++ ops') = writtenBy ops ++ writtenBy ops' := by
  rw [writtenBy, List.flatMap_append, List.map_append]
  rfl

theorem writtenBy_cons (o : Op) (ops : List Op) :
    writtenBy (o :: ops) = o.writes.map Register.name ++ writtenBy ops := by
  rw [writtenBy, List.flatMap_cons, List.map_append]
  rfl

theorem declaredBy_cons (o : Op) (ops : List Op) :
    declaredBy (o :: ops) = o.declares?.toList ++ declaredBy ops := by
  rw [declaredBy, List.filterMap_cons]
  cases o.declares? <;> rfl

/-! ## The pass -/

namespace TypeSource

variable {s : TypeSource} {g : Typing} {o : Op} {ops : List Op} {n : String}

theorem types_step : (s.step g o).types = match s.written g o.instr, o.instr.target? with
    | some t, some r => g.types.insert r.name t
    | _, _ => g.types := by
  rw [step]
  split
  case h_1 hi => rw [hi]; rfl
  case h_2 hi =>
    cases s.written g o.instr with
    | none => rfl
    | some t => cases o.instr.target? <;> rfl

theorem declared_step : (s.step g o).declared =
    o.declares?.toList.foldl (fun t e => t.insert e.1 e.2) g.declared := by
  rw [step]
  split
  case h_1 hi => rw [Op.declares?, hi]; rfl
  case h_2 hi =>
    rw [Op.declares?]
    cases ho : o.instr with
    | lifetimeStart name type => exact absurd ho (hi name type)
    | _ => split <;> rfl

/-- An operation gives a type to what it writes, if there is one to be told. -/
theorem get?_step_of_mem {r : Register} (h : r ∈ o.writes) :
    (s.step g o).types.get? r.name = (s.written g o.instr).or (g.types.get? r.name) := by
  rw [types_step, Option.mem_toList.mp h]
  cases s.written g o.instr with
  | none => rfl
  | some t => exact Table.get?_insert_self ..

theorem get?_step_of_notMem (h : n ∉ o.writes.map Register.name) :
    (s.step g o).types.get? n = g.types.get? n := by
  rw [types_step]
  split
  case h_1 t r _ hr =>
    refine Table.get?_insert_ne _ _ fun hn => h ?_
    rw [Op.writes, hr, hn]
    exact List.mem_singleton_self _
  case h_2 => rfl

/-- **A row gives no type to a name it does not write.** -/
theorem get?_foldl_of_notMem (h : n ∉ writtenBy ops) :
    (ops.foldl s.step g).types.get? n = g.types.get? n := by
  induction ops generalizing g with
  | nil => rfl
  | cons o ops ih =>
    rw [writtenBy_cons, List.mem_append, not_or] at h
    rw [List.foldl_cons, ih h.2, get?_step_of_notMem h.1]

/-- **What is declared after a row** is what was, and what the row declares. -/
theorem declared_foldl : (ops.foldl s.step g).declared =
    (declaredBy ops).foldl (fun t e => t.insert e.1 e.2) g.declared := by
  induction ops generalizing g with
  | nil => rfl
  | cons o ops ih =>
    rw [List.foldl_cons, ih, declared_step, declaredBy_cons, List.foldl_append]

end TypeSource

/-! ## The order of the pass -/

/-- A place in rows put one after another is a place in one of them. -/
theorem Listing.flatMap_eq_append_cons {α β : Type} {f : α → List β} {l : List α}
    {pre post : List β} {x : β} (h : l.flatMap f = pre ++ x :: post) :
    ∃ newer a older earlier later, l = newer ++ a :: older ∧ f a = earlier ++ x :: later ∧
      pre = newer.flatMap f ++ earlier := by
  induction l generalizing pre with
  | nil => simp at h
  | cons a l ih =>
    rw [List.flatMap_cons] at h
    rcases List.append_eq_append_iff.mp h with ⟨mid, rfl, hmid⟩ | ⟨mid, hmid, hrest⟩
    · obtain ⟨newer, c, older, earlier, later, rfl, hc, rfl⟩ := ih hmid
      exact ⟨a :: newer, c, older, earlier, later, rfl, hc, by simp⟩
    · cases mid with
      | nil =>
        obtain ⟨newer, c, older, earlier, later, rfl, hc, hnil⟩ := @ih [] hrest.symm
        refine ⟨a :: newer, c, older, earlier, later, rfl, hc, ?_⟩
        rw [List.flatMap_cons, List.append_assoc, ← hnil, hmid, List.append_nil, List.append_nil]
      | cons y mid =>
        obtain ⟨rfl, -⟩ := List.cons.inj hrest
        exact ⟨[], a, l, pre, mid, rfl, hmid, rfl⟩

namespace Blocks

/-- The operations within reach, in the order of the pass. -/
def reachedOps (bs : Blocks) : List Op :=
  bs.reversePostOrder.flatMap bs.opsAt

/-- All operations, in the order of the pass. -/
def orderedOps (bs : Blocks) : List Op :=
  bs.ordered.flatMap Block.ops

/-- Merges within reach have inputs only from blocks within reach that lead to them. -/
def MergesReached (bs : Blocks) : Prop :=
  ∀ l, bs.Reachable l → ∀ o ∈ bs.opsAt l, ∀ p ∈ o.instr.sources, bs.Reachable p ∧ bs.Edge p l

variable {bs : Blocks} {params : List String} {l : String}

theorem orderedOps_eq (bs : Blocks) : bs.orderedOps = bs.order.flatMap bs.opsAt := by
  rw [orderedOps, ordered]
  induction bs.order with
  | nil => rfl
  | cons l ls ih =>
    rw [List.filterMap_cons, List.flatMap_cons, opsAt]
    cases bs.get? l with
    | none => exact ih
    | some b => rw [List.flatMap_cons, ih]

/-- **What is within reach comes first.** -/
theorem reachedOps_prefix (bs : Blocks) : bs.reachedOps <+: bs.orderedOps := by
  rw [orderedOps_eq, order, List.flatMap_append]
  exact List.prefix_append ..

/-- A place within reach is a place in the order of the pass. -/
theorem exists_orderedOps {pre post : List Op} {o : Op} (h : bs.reachedOps = pre ++ o :: post) :
    ∃ later, bs.orderedOps = pre ++ o :: later := by
  obtain ⟨rest, hrest⟩ := bs.reachedOps_prefix
  exact ⟨post ++ rest, by rw [← hrest, h, List.append_assoc, List.cons_append]⟩

theorem mem_reachedOps {o : Op} : o ∈ bs.reachedOps ↔ ∃ l, bs.Reachable l ∧ o ∈ bs.opsAt l := by
  simp only [reachedOps, List.mem_flatMap, mem_reversePostOrder]

/-- The names written, in the order of the pass, are those of all blocks. -/
theorem writtenBy_orderedOps_perm (bs : Blocks) :
    (writtenBy bs.orderedOps).Perm (bs.allWrites.map (·.2.name)) := by
  rw [names_allWrites, orderedOps_eq, writtenBy, List.flatMap_assoc, List.map_flatMap]
  exact bs.order_perm_keys.flatMap_right _

theorem Before.trans {u v w : String} (h : bs.Before u v) (h' : bs.Before v w) : bs.Before u w := by
  obtain ⟨newer, older, hw, hv⟩ := h'
  obtain ⟨first, between, rfl⟩ := List.append_of_mem hv
  have hv : bs.reversePostOrder = first ++ v :: (between ++ w :: older) := by
    rw [hw, List.append_assoc, List.cons_append]
  exact ⟨_, older, hw, List.mem_append_left _ (h.mem hv)⟩

/-- A way onward has been at blocks taken before only. -/
theorem Onward.before {way : List String} (h : bs.Onward way l) : ∀ k ∈ way, bs.Before k l := by
  induction h with
  | entry => exact List.forall_mem_nil _
  | step _ _ hb ih =>
    rw [List.forall_mem_append, List.forall_mem_singleton]
    exact ⟨fun k hk => (ih k hk).trans hb, hb⟩

theorem Acyclic.onward (ha : bs.Acyclic) (hl : bs.Reachable l) : ∃ way, bs.Onward way l := by
  obtain ⟨before, hpath⟩ := hl
  obtain ⟨way, hway, -⟩ := (ha.reducible.retraces hpath).covers l (by simp)
  exact ⟨way, hway⟩

/-- A name written on a way through blocks taken before is among those the pass has met. -/
theorem WrittenOn.known {way newer : List String} {n : String} (h : bs.WrittenOn params way n)
    (hway : ∀ k ∈ way, k ∈ newer) (earlier : List Op) :
    n ∈ params ∨ n ∈ writtenBy (newer.flatMap bs.opsAt ++ earlier) := by
  refine h.imp_right fun hn => ?_
  obtain ⟨k, hk, hn⟩ := List.mem_flatMap.mp hn
  obtain ⟨r, hr, rfl⟩ := List.mem_map.mp hn
  obtain ⟨o, ho, hr⟩ := List.mem_flatMap.mp hr
  have hmem : o ∈ newer.flatMap bs.opsAt := List.mem_flatMap.mpr ⟨k, hway k hk, ho⟩
  exact List.mem_map_of_mem (List.mem_flatMap.mpr ⟨o, List.mem_append_left _ hmem, hr⟩)

end Blocks

open Blocks

variable {b : Body} {params : List String}

/-- **Whatever an operation within reach reads is a parameter, or written before.** -/
theorem Body.reads_known (ha : b.blocks.Acyclic) (hpass : b.violations params = [])
    (hm : b.blocks.MergesReached) {pre post : List Op} {o : Op}
    (h : b.blocks.reachedOps = pre ++ o :: post) :
    ∀ x ∈ o.reads, x.name ∈ params ∨ x.name ∈ writtenBy pre := by
  obtain ⟨newer, l, older, earlier, later, horder, hops, rfl⟩ := Listing.flatMap_eq_append_cons h
  have hl : b.blocks.Reachable l := mem_reversePostOrder.mp (by simp [horder])
  have hreads := useFaults_sound (Body.violations_eq_nil.mp hpass).2 hl hops
  have hbefore : ∀ {way}, b.blocks.Onward way l → ∀ k ∈ way, k ∈ newer := fun hway k hk =>
    (hway.before k hk).mem horder
  obtain ⟨pos, i⟩ := o
  cases i with
  | phi inputs target =>
    intro x hx
    obtain ⟨p, hp⟩ := Table.mem_values.mp hx
    have ho : (⟨pos, .phi inputs target⟩ : Op) ∈ b.blocks.opsAt l := by simp [hops]
    obtain ⟨hreach, hedge⟩ := hm l hl _ ho p (Table.mem_keys.mpr (Table.contains_of_get? hp))
    obtain ⟨way, hway⟩ := ha.onward hreach
    exact (hreads p x hp hreach way hway).known
      (hbefore (hway.step hedge (ha.edge_before hreach hedge))) earlier
  | _ =>
    intro x hx
    obtain ⟨way, hway⟩ := ha.onward hl
    rcases hreads x hx way hway with hn | hn
    · exact hn.known (hbefore hway) earlier
    · exact .inr (by rw [writtenBy_append]; exact List.mem_append_right _ hn)

/-- **No name is written twice** in a body that passes the checks, and no parameter is written. -/
theorem Body.written_once (hpass : b.violations params = []) :
    (writtenBy b.blocks.orderedOps).Nodup ∧ ∀ n ∈ writtenBy b.blocks.orderedOps, n ∉ params := by
  obtain ⟨hnodup, hnew⟩ := rewritten_eq_nil.mp (Body.violations_eq_nil.mp hpass).1.2
  have hperm := b.blocks.writtenBy_orderedOps_perm
  exact ⟨hperm.nodup_iff.mpr hnodup, fun n hn => hnew n (hperm.mem_iff.mp hn)⟩

/-! ## What the pass finds -/

/-- What is known before the pass: the types of the parameters. -/
def Typing.given (params : List Param) : Typing :=
  ⟨Table.ofList (params.map fun q => (q.name, q.type)), ∅⟩

namespace TypeSource

variable {s : TypeSource} {params : List Param} {pre post : List Op} {o : Op}

/-- What is known once the pass has met a row of operations. -/
def met (s : TypeSource) (params : List Param) (ops : List Op) : Typing :=
  ops.foldl s.step (.given params)

theorem infer_eq (s : TypeSource) (b : Body) (params : List Param) :
    s.infer b params = (s.met params b.blocks.orderedOps).types :=
  rfl

theorem met_append (s : TypeSource) (params : List Param) (ops ops' : List Op) :
    s.met params (ops ++ ops') = ops'.foldl s.step (s.met params ops) :=
  List.foldl_append

theorem declared_met (s : TypeSource) (params : List Param) (ops : List Op) :
    (s.met params ops).declared = Table.ofList (declaredBy ops) :=
  declared_foldl

/-- A parameter has a type given with its name. -/
theorem exists_get?_given {n : String} (h : n ∈ params.map (·.name)) :
    ∃ q ∈ params, (Typing.given params).types.get? n = some q.type := by
  have hlisted : n ∈ (params.map fun q => (q.name, q.type)).map (·.1) := by
    rw [List.map_map]
    exact h
  obtain ⟨t, ht⟩ := Table.contains_iff.mp (Table.contains_ofList hlisted)
  obtain ⟨q, hq, heq⟩ := List.mem_map.mp (Table.mem_of_get?_ofList ht)
  obtain ⟨-, rfl⟩ := Prod.mk.inj heq
  exact ⟨q, hq, ht⟩

theorem get?_given_eq_none {n : String} (h : n ∉ params.map (·.name)) :
    (Typing.given params).types.get? n = none :=
  Table.get?_ofList_eq_none (by simpa using h)

variable (hpass : b.violations (params.map (·.name)) = [])

include hpass

/-- **A type once found is found for good**: of a parameter, or of a name written before. -/
theorem get?_infer_of_known (hsplit : b.blocks.orderedOps = pre ++ post) {n : String}
    (hn : n ∈ params.map (·.name) ∨ n ∈ writtenBy pre) :
    (s.infer b params).get? n = (s.met params pre).types.get? n := by
  obtain ⟨hnodup, hnew⟩ := Body.written_once hpass
  rw [infer_eq, hsplit, met_append]
  refine get?_foldl_of_notMem fun hlater => ?_
  rw [hsplit, writtenBy_append] at hnodup hnew
  rcases hn with hn | hn
  · exact hnew n (List.mem_append_right _ hlater) hn
  · exact (List.nodup_append.mp hnodup).2.2 n hn n hlater rfl

/-- **What an operation writes has the type found where it stands**, or none. -/
theorem get?_infer_of_written (hsplit : b.blocks.orderedOps = pre ++ o :: post) {r : Register}
    (hr : r ∈ o.writes) :
    (s.infer b params).get? r.name = s.written (s.met params pre) o.instr := by
  obtain ⟨hnodup, hnew⟩ := Body.written_once hpass
  have hhere : r.name ∈ writtenBy [o] := by
    rw [writtenBy_cons]
    exact List.mem_append_left _ (List.mem_map_of_mem hr)
  have hsplit' : b.blocks.orderedOps = (pre ++ [o]) ++ post := by simp [hsplit]
  rw [get?_infer_of_known hpass hsplit'
    (.inr (by rw [writtenBy_append]; exact List.mem_append_right _ hhere))]
  rw [hsplit', writtenBy_append, writtenBy_append] at hnodup hnew
  have hfresh : (s.met params pre).types.get? r.name = none := by
    rw [met, get?_foldl_of_notMem fun hearlier => ?_, get?_given_eq_none]
    · exact hnew r.name (List.mem_append_left _ (List.mem_append_right _ hhere))
    · exact (List.nodup_append.mp (List.nodup_append.mp hnodup).1).2.2 _ hearlier _ hhere rfl
  rw [met_append, List.foldl_cons, List.foldl_nil, get?_step_of_mem hr, hfresh, Option.or_none]

/-- **What an operation within reach reads has the type found before it.** -/
theorem get?_infer_of_read (ha : b.blocks.Acyclic) (hm : b.blocks.MergesReached)
    (hreached : b.blocks.reachedOps = pre ++ o :: post) {x : Register} (hx : x ∈ o.reads) :
    (s.infer b params).get? x.name = (s.met params pre).types.get? x.name := by
  obtain ⟨later, hsplit⟩ := exists_orderedOps hreached
  exact get?_infer_of_known hpass hsplit (Body.reads_known ha hpass hm hreached x hx)

end TypeSource

end Monomorph
