import Mathlib.Logic.Function.Iterate
import Mathlib.Order.Bounds.Basic
import Monomorph.Body.Lowering
import Monomorph.Proofs.Lowering.DeadTemps

/-!
# Lowering/Kept — dropping dead temporaries drops exactly what is dead

An operation that may be dropped is worth keeping for an operation that reads its temporary and is
itself kept.  Operations that read one another in a chain, or round in a circle, have to be judged
together, so what is kept is a set of places; a set that gives every member its reason
(`Sustained`) can be joined with any other, and there is a largest one.

Sweeps come down to it.  The names read get fewer from sweep to sweep, so **all sweeps together are
one filter, by the names read in the end** (`dropDeadTemps_eq_mapOps`): what is kept sustains
itself.  And **names that sustain themselves are read after every sweep** (`Backed.sweep`): nothing
that could be kept is dropped.
-/

namespace Monomorph

/-- An operation that does more than write a temporary, or writes one of the names given. -/
def Op.Worth (names : Set String) (o : Op) : Prop :=
  ∀ t, o.instr.removable? = some t → t.name ∈ names

theorem Op.Worth.mono {names names' : Set String} {o : Op} (h : o.Worth names)
    (hsub : names ⊆ names') : o.Worth names' :=
  fun t ht => hsub (h t ht)

namespace Blocks

variable {bs : Blocks} {o : Op} {n : String}

/-! ## Operations worth keeping -/

theorem isLive_iff {read : List String} : isLive read o = true ↔ o.Worth {n | n ∈ read} := by
  rw [isLive, Op.Worth]
  cases o.instr.removable? <;> simp

/-- **What a sweep leaves** are the operations worth keeping for the names read before it. -/
theorem mem_allOps_sweep :
    o ∈ bs.sweep.allOps ↔ o ∈ bs.allOps ∧ o.Worth {n | n ∈ bs.tempsRead} := by
  rw [allOps_sweep, List.mem_filter, isLive_iff]

theorem opCount_eq_length (bs : Blocks) : bs.opCount = bs.allOps.length := by
  rw [allOps, List.length_flatMap]
  exact List.sum_eq_foldl.symm

/-- **A sweep that leaves as many operations as there were leaves all of them.** -/
theorem sweep_eq_self (h : ¬ bs.sweep.opCount < bs.opCount) : bs.sweep = bs := by
  rw [opCount_eq_length, opCount_eq_length, allOps_sweep] at h
  have hall : bs.allOps.filter (isLive bs.tempsRead) = bs.allOps :=
    List.filter_sublist.eq_of_length_le (Nat.not_lt.mp h)
  exact mapOps_eq_self_iff.mpr fun b hb => List.filter_eq_self.mpr fun o ho =>
    List.filter_eq_self.mp hall o (mem_allOps_values.mpr ⟨b, hb, ho⟩)

/-- **Where nothing is dead** nothing is dropped. -/
theorem dropDeadTemps_eq_self (h : ∀ o ∈ bs.allOps, o.Worth {n | n ∈ bs.tempsRead}) :
    bs.dropDeadTemps = bs := by
  have hsweep : bs.sweep = bs := mapOps_eq_self_iff.mpr fun b hb =>
    List.filter_eq_self.mpr fun o ho => isLive_iff.mpr (h o (mem_allOps_values.mpr ⟨b, hb, ho⟩))
  rw [dropDeadTemps, hsweep]
  exact if_neg (Nat.lt_irrefl _)

theorem hasDeadTemps_iff : bs.hasDeadTemps = true ↔
    ∃ o ∈ bs.allOps, ¬ o.Worth {n | n ∈ bs.tempsRead} := by
  simp only [hasDeadTemps, List.any_eq_true, Bool.not_eq_true', ← Bool.not_eq_true, isLive_iff,
    mem_allOps_values]
  grind

/-! ## All sweeps together -/

theorem mem_allOps_of_dropDeadTemps (h : o ∈ bs.dropDeadTemps.allOps) : o ∈ bs.allOps := by
  induction bs using dropDeadTemps.induct with
  | case1 bs next hlt ih =>
    rw [dropDeadTemps, if_pos hlt] at h
    exact mem_allOps_of_sweep (ih h)
  | case2 bs next hlt =>
    rwa [dropDeadTemps, if_neg hlt] at h

/-- What is read in the end was read all along. -/
theorem tempsRead_dropDeadTemps (h : n ∈ bs.dropDeadTemps.tempsRead) : n ∈ bs.tempsRead := by
  obtain ⟨o, ho, hn⟩ := mem_tempsRead.mp h
  exact mem_tempsRead.mpr ⟨o, mem_allOps_of_dropDeadTemps ho, hn⟩

/-- **All sweeps together are one filter**, by the names read in the end. -/
theorem dropDeadTemps_eq_mapOps (bs : Blocks) : bs.dropDeadTemps
    = bs.mapOps fun ops => ops.filter (isLive bs.dropDeadTemps.tempsRead) := by
  induction bs using dropDeadTemps.induct with
  | case1 bs next hlt ih =>
    have hdrop : bs.dropDeadTemps = bs.sweep.dropDeadTemps := by
      rw [dropDeadTemps, if_pos hlt]
    have hread : ∀ x, x ∈ bs.sweep.dropDeadTemps.tempsRead → x ∈ bs.tempsRead :=
      fun x hx => tempsRead_dropDeadTemps (hdrop ▸ hx)
    rw [hdrop]
    refine ih.trans ?_
    change (bs.mapOps _).mapOps _ = _
    rw [mapOps_mapOps]
    refine mapOps_congr fun b _ => ?_
    rw [List.filter_filter]
    refine List.filter_congr fun o _ => ?_
    rw [Bool.and_eq_left_iff_imp, isLive_iff, isLive_iff]
    exact fun h => h.mono hread
  | case2 bs next hlt =>
    have hdrop : bs.dropDeadTemps = bs := by rw [dropDeadTemps, if_neg hlt]
    rw [hdrop]
    exact (sweep_eq_self hlt).symm

theorem mem_allOps_dropDeadTemps : o ∈ bs.dropDeadTemps.allOps ↔
    o ∈ bs.allOps ∧ o.Worth {n | n ∈ bs.dropDeadTemps.tempsRead} := by
  conv_lhs => rw [dropDeadTemps_eq_mapOps]
  rw [allOps_mapOps_filter, List.mem_filter, isLive_iff]

/-- **The sweeps come to an end**: each but the last drops an operation, and the last one none. -/
theorem exists_sweeps (bs : Blocks) :
    ∃ n ≤ bs.opCount, Blocks.sweep^[n] bs = bs.dropDeadTemps ∧
      bs.dropDeadTemps.sweep = bs.dropDeadTemps := by
  induction bs using dropDeadTemps.induct with
  | case1 bs next hlt ih =>
    obtain ⟨n, hn, hiter, hlast⟩ := ih
    have hdrop : bs.dropDeadTemps = bs.sweep.dropDeadTemps := by
      rw [dropDeadTemps, if_pos hlt]
    refine ⟨n + 1, Nat.lt_of_le_of_lt hn hlt, ?_, hdrop ▸ hlast⟩
    rw [Function.iterate_succ_apply, hdrop]
    exact hiter
  | case2 bs next hlt =>
    have hdrop : bs.dropDeadTemps = bs := by rw [dropDeadTemps, if_neg hlt]
    rw [hdrop]
    exact ⟨0, Nat.zero_le _, rfl, sweep_eq_self hlt⟩

/-! ## Names that sustain themselves -/

/-- Each of the names is read by an operation worth keeping for them. -/
def Backed (bs : Blocks) (names : Set String) : Prop :=
  ∀ n ∈ names, ∃ o ∈ bs.allOps, o.Worth names ∧ o.ReadsTemp n

variable {names : Set String}

theorem Backed.subset (h : bs.Backed names) : names ⊆ {n | n ∈ bs.tempsRead} := fun n hn => by
  obtain ⟨o, ho, -, hread⟩ := h n hn
  exact mem_tempsRead.mpr ⟨o, ho, hread⟩

/-- **A sweep leaves what names that sustain themselves are read by.** -/
theorem Backed.sweep (h : bs.Backed names) : bs.sweep.Backed names := fun n hn => by
  obtain ⟨o, ho, hworth, hread⟩ := h n hn
  exact ⟨o, mem_allOps_sweep.mpr ⟨ho, hworth.mono h.subset⟩, hworth, hread⟩

theorem Backed.dropDeadTemps (h : bs.Backed names) : bs.dropDeadTemps.Backed names := by
  induction bs using Blocks.dropDeadTemps.induct with
  | case1 bs next hlt ih =>
    rw [Blocks.dropDeadTemps, if_pos hlt]
    exact ih h.sweep
  | case2 bs next hlt =>
    rwa [Blocks.dropDeadTemps, if_neg hlt]

/-! ## Places -/

/-- A place in a body: a label, and the number of operations before it. -/
abbrev Place := String × Nat

/-- The operation at a place. -/
def opAt? (bs : Blocks) (p : Place) : Option Op :=
  (bs.opsAt p.1)[p.2]?

/-- **Places that may be kept, and no others**: all that do more than write a temporary are among
them, and for each of the rest there is one among them that reads its temporary. -/
structure Sustained (bs : Blocks) (S : Set Place) : Prop where
  places : ∀ p ∈ S, ∃ o, bs.opAt? p = some o
  acting : ∀ p o, bs.opAt? p = some o → o.instr.removable? = none → p ∈ S
  read : ∀ p ∈ S, ∀ o t, bs.opAt? p = some o → o.instr.removable? = some t →
    ∃ q ∈ S, ∃ x, bs.opAt? q = some x ∧ x.ReadsTemp t.name

open Classical in
/-- What stands in a row at some of the places, in order. -/
noncomputable def keptAt (S : Set Place) (l : String) (ops : List Op) : List Op :=
  (ops.zipIdx.filter fun x => (l, x.2) ∈ S).map (·.1)

/-- The places worth keeping for the names read in the end. -/
def livePlaces (bs : Blocks) : Set Place :=
  {p | ∃ o, bs.opAt? p = some o ∧ o.Worth {n | n ∈ bs.dropDeadTemps.tempsRead}}

theorem mem_allOps_iff_opAt? : o ∈ bs.allOps ↔ ∃ p, bs.opAt? p = some o := by
  constructor
  · intro h
    obtain ⟨l, b, hb, ho⟩ := mem_allOps.mp h
    obtain ⟨i, hi⟩ := List.mem_iff_getElem?.mp ho
    exact ⟨(l, i), by rw [opAt?, opsAt_of_get? hb, hi]⟩
  · rintro ⟨p, hp⟩
    exact mem_allOps_of_opsAt (List.mem_of_getElem? hp)

/-- A filter keeps the places it accepts. -/
theorem filter_eq_keptAt {l : String} {ops : List Op} {S : Set Place} {p : Op → Bool}
    (h : ∀ i o, ops[i]? = some o → (p o = true ↔ (l, i) ∈ S)) : ops.filter p = keptAt S l ops := by
  have hfst : ops.filter p = (ops.zipIdx.filter fun x => p x.1).map (·.1) := by
    conv_lhs => rw [← List.zipIdx_map_fst 0 ops]
    exact List.filter_map
  rw [hfst, keptAt]
  congr 1
  refine List.filter_congr fun x hx => ?_
  rw [Bool.eq_iff_iff, h x.2 x.1 (List.mem_zipIdx_iff_getElem?.mp hx)]
  simp

/-- **What is kept sustains itself.** -/
theorem sustained_livePlaces (bs : Blocks) : bs.Sustained bs.livePlaces where
  places := fun p ⟨o, ho, _⟩ => ⟨o, ho⟩
  acting p o ho hnone := ⟨o, ho, fun t ht => by rw [hnone] at ht; cases ht⟩
  read := by
    rintro p ⟨o', ho', hworth⟩ o t ho ht
    obtain rfl : o' = o := Option.some.inj (ho'.symm.trans ho)
    obtain ⟨x, hx, hread⟩ := mem_tempsRead.mp (hworth t ht)
    obtain ⟨hx, hxworth⟩ := mem_allOps_dropDeadTemps.mp hx
    obtain ⟨q, hq⟩ := mem_allOps_iff_opAt?.mp hx
    exact ⟨q, ⟨x, hq, hxworth⟩, x, hq, hread⟩

/-- The names read at some places. -/
def namesReadAt (bs : Blocks) (S : Set Place) : Set String :=
  {n | ∃ q ∈ S, ∃ x, bs.opAt? q = some x ∧ x.ReadsTemp n}

theorem Sustained.backed {S : Set Place} (h : bs.Sustained S) : bs.Backed (bs.namesReadAt S) := by
  rintro n ⟨q, hq, x, hx, hread⟩
  exact ⟨x, mem_allOps_iff_opAt?.mpr ⟨q, hx⟩, fun t ht => h.read q hq x t hx ht, hread⟩

/-- **What can be kept is kept.** -/
theorem Sustained.subset_livePlaces {S : Set Place} (h : bs.Sustained S) : S ⊆ bs.livePlaces := by
  intro p hp
  obtain ⟨o, ho⟩ := h.places p hp
  exact ⟨o, ho, fun t ht => h.backed.dropDeadTemps.subset (h.read p hp o t ho ht)⟩

end Blocks

open Blocks

/-- **Dropping dead temporaries keeps the largest set of places that sustains itself.**  Kept
operations are as they were and in their order; the pass says that it changed something exactly if
some place is not kept; and it takes at most as many sweeps as there are operations until a sweep
drops nothing. -/
theorem Pass.deadTemps_greatest (b : Body) : ∃ bs' changed S,
    Pass.deadTemps.run b = .ok ({ b with blocks := bs' }, changed) ∧
      IsGreatest {S | b.blocks.Sustained S} S ∧
      bs'.keys = b.blocks.keys ∧
      (∀ l blk, b.blocks.get? l = some blk →
        bs'.get? l = some { blk with ops := keptAt S l blk.ops }) ∧
      (changed = true ↔ ∃ p o, b.blocks.opAt? p = some o ∧ p ∉ S) ∧
      ∃ n ≤ b.blocks.opCount, Blocks.sweep^[n] b.blocks = bs' ∧ bs'.sweep = bs' := by
  refine ⟨b.blocks.dropDeadTemps, _, b.blocks.livePlaces, rfl,
    ⟨sustained_livePlaces _, fun S hS => hS.subset_livePlaces⟩, ?_, ?_, ?_, exists_sweeps _⟩
  · refine Table.keys_eq_of_contains fun l => ?_
    rw [dropDeadTemps_eq_mapOps, mapOps, Table.contains_map]
  · intro l blk hblk
    rw [dropDeadTemps_eq_mapOps, get?_mapOps, hblk, Option.map_some, filter_eq_keptAt]
    intro i o ho
    rw [isLive_iff, livePlaces, Set.mem_ofPred_eq, opAt?, opsAt_of_get? hblk, ho]
    simp
  · rw [hasDeadTemps_iff]
    constructor
    · rintro ⟨o, ho, hdead⟩
      obtain ⟨p, hp⟩ := mem_allOps_iff_opAt?.mp ho
      refine ⟨p, o, hp, ?_⟩
      rintro ⟨o', ho', hworth⟩
      obtain rfl : o' = o := Option.some.inj (ho'.symm.trans hp)
      exact hdead (hworth.mono fun _ => tempsRead_dropDeadTemps)
    · rintro ⟨p, o, hp, hdead⟩
      by_contra hnone
      have hself : b.blocks.dropDeadTemps = b.blocks := dropDeadTemps_eq_self fun x hx =>
        by_contra fun hworth => hnone ⟨x, hx, hworth⟩
      refine hdead ⟨o, hp, ?_⟩
      rw [hself]
      exact by_contra fun hworth => hnone ⟨o, mem_allOps_iff_opAt?.mpr ⟨p, hp⟩, hworth⟩

/-- Two temporaries that only read one another are kept; a third that reads one of them is not. -/
example : (Blocks.dropDeadTemps (Table.ofList [(entryLabel, ⟨entryLabel, [
    ⟨.synthetic, .assign (.ofTemp (.ofId 1)) (.ofId 0)⟩,
    ⟨.synthetic, .assign (.ofTemp (.ofId 0)) (.ofId 1)⟩,
    ⟨.synthetic, .assign (.ofTemp (.ofId 1)) (.ofId 2)⟩]⟩)])).opsAt entryLabel = [
    ⟨.synthetic, .assign (.ofTemp (.ofId 1)) (.ofId 0)⟩,
    ⟨.synthetic, .assign (.ofTemp (.ofId 0)) (.ofId 1)⟩] := by
  decide +kernel

end Monomorph
