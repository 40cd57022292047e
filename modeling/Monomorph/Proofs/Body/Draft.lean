import Monomorph.Body.Builder
import Monomorph.Proofs.Table.Lookup
import Monomorph.Proofs.Ty.Separated

/-!
# Body/Draft — a builder keeps a plain map from labels to operations

A builder holds the active block apart from the others and numbers new blocks by how many there are.
What it stands for is simpler: the labels given out, which of them is active, and a **log** of the
operations written, each with the label active at the time (`Draft`).  A block holds the part of the
log under its label (`Draft.opsAt`).

The labels of a draft differ because the number at the end of a label is the number of labels
before it (`Draft.Sound`); nothing else has to be known of the order of the calls.  A builder is
at every step the table of its draft with the active block taken out (`Builder.Keeps`), so that
both answer every sequence of calls alike (`Builder.refines`).  This includes what a body that
cannot be lowered leaves: a draft of the one label `entry` (`Draft.emptied`).
-/

namespace Monomorph

/-! ## What the emitters write -/

namespace Builder

/-- A truth value made of an operand: what is written for it, and the number of the next temporary
then. -/
def truthOps (p : Position) (strict : Bool) (a : Operand) (n : UInt32) :
    Operand × List Op × UInt32 :=
  if strict then (a, [], n) else (.ofTemp (.ofId n), [⟨p, .truthy a (.ofId n)⟩], n + 1)

/-- The variables written back from a list, from a place of it on. -/
def refOps (p : Position) (list : Temp) (listType : String) :
    Nat → UInt32 → List (String × String) → Except Fault (List Op × UInt32)
  | _, n, [] => .ok ([], n)
  | place, n, (name, type) :: rest =>
      if place < UInt64.size then do
        let (ops, next) ← refOps p list listType (place + 1) (n + 1) rest
        return (⟨p, .define (.fromEphemeral (.temp list) type listType (UInt64.ofNat place))
            (.ofId n)⟩ :: ⟨p, .store (.ofTemp (.ofId n)) (.ofBase name)⟩ :: ops, next)
      else .error .positionOverflow

/-- A direct call, whose results are taken out of a list if it writes back variables. -/
def callOps (p : Position) (key : String) (args : List Operand) (ret : Returned) (target : Temp)
    (n : UInt32) : Except Fault (List Op × UInt32) :=
  if ret.refs.isEmpty then .ok ([⟨p, .define (.call ret.declared key args) target⟩], n)
  else do
    let list := Temp.ofId n
    let result : Instr Operand := match ret.packBase with
      | none => .define (.fromEphemeral (.temp list) ret.declared ret.list 0) target
      | some _ => .packSlice (.ofTemp list) ret.declared target
    let (ops, next) ←
      refOps p list ret.list ((ret.packBase.map UInt64.toNat).getD 1) (n + 1) ret.refs
    return (⟨p, .define (.call ret.list key args) list⟩ :: ⟨p, result⟩ :: ops, next)

/-- A call that writes operations, and does nothing else. -/
def Step.isWrite : Step → Bool
  | .emit _ | .emitNot .. | .emitBranch .. | .emitTypeTest .. | .emitCall .. => true
  | .reset | .freshTemp | .capturedName _ | .newBlock _ | .activate _ | .finish .. => false

/-- The operations a call writes, and the number of the next temporary then. -/
def Step.writes (core : String) (n : UInt32) : Step → Except Fault (List Op × UInt32)
  | .emit o => .ok ([o], n)
  | .emitNot p operator strict a type target =>
      let (a, ops, n) := truthOps p strict a n
      .ok (ops ++ [⟨p, .define (.unary operator a type) target⟩], n)
  | .emitBranch p a strict x y =>
      let (a, ops, n) := truthOps p strict a n
      .ok (ops ++ [⟨p, .branch a x y⟩], n)
  | .emitTypeTest p target type argType a =>
      .ok ([⟨p, .define (if type = core ++ "::None" then .isNone a
        else if type = core ++ "::Some" then .isSome a else .isType argType a type) target⟩], n)
  | .emitCall p key args ret target => callOps p key args ret target n
  | .reset | .freshTemp | .capturedName _ | .newBlock _ | .activate _ | .finish .. => .ok ([], n)

/-- A builder after operations have been written to its active block. -/
def writing (b : Builder) (ops : List Op) (n : UInt32) : Builder :=
  { b with active := { b.active with ops := b.active.ops ++ ops }, nextTemp := n }

/-! ## Calls in a row -/

/-- The answers to a row of calls, up to the first that is at fault, and what is left. -/
def Step.all {σ : Type} (run : σ → Step → Except Fault Answer × σ) :
    σ → List Step → List (Except Fault Answer) × σ
  | s, [] => ([], s)
  | s, step :: rest => match run s step with
    | (.error f, s) => ([.error f], s)
    | (.ok a, s) => let (answers, s) := all run s rest; (.ok a :: answers, s)

end Builder

/-! ## Drafts -/

/-- **What a builder stands for.** -/
structure Draft where
  /-- Namespace of the core types. -/
  core : String
  /-- The labels there are before any is given out. -/
  fixed : List String := [entryLabel, returnLabel, exitLabel]
  /-- The labels given out, oldest first. -/
  created : List String := []
  active : String := entryLabel
  nextTemp : UInt32 := 0
  /-- Every operation written, with the label active at the time. -/
  written : List (String × Op) := []

namespace Draft

open Builder

/-- Nothing written yet, but for the three fixed labels. -/
def new (core : String) : Draft where
  core

/-- Nothing left but an empty `entry`. -/
def emptied (d : Draft) : Draft where
  core := d.core
  fixed := [entryLabel]
  nextTemp := d.nextTemp

/-- The labels of the blocks there are. -/
def labels (d : Draft) : List String :=
  d.fixed ++ d.created

/-- The operations written while a block was active, in the order they were written. -/
def opsAt (d : Draft) (l : String) : List Op :=
  (d.written.filter fun e => decide (e.1 = l)).map (·.2)

/-- The blocks: every label with the operations written under it. -/
def blocks (d : Draft) : Blocks :=
  Table.ofList (d.labels.map fun l => (l, ⟨l, d.opsAt l⟩))

/-- Log operations under the active label. -/
def write (d : Draft) (ops : List Op) (n : UInt32) : Draft :=
  { d with nextTemp := n, written := d.written ++ ops.map fun o => (d.active, o) }

/-- A label made of a stem and the number of labels there are. -/
def label (d : Draft) (stem : String) : String :=
  stem ++ "_" ++ toString d.labels.length

/-- **The answer of a call, and the draft after it.** -/
def run (d : Draft) : Step → Except Fault Answer × Draft
  | .reset => (.ok .done, new d.core)
  | .freshTemp => (.ok (.name (Temp.ofId d.nextTemp).name), { d with nextTemp := d.nextTemp + 1 })
  | .capturedName name => (.ok (.name (Var.capturedName name)), d)
  | .newBlock stem => (.ok (.name (d.label stem)), { d with created := d.created ++ [d.label stem] })
  | .activate l =>
      if l ∈ d.labels then (.ok (.name l), { d with active := l }) else (.error (.unknownBlock l), d)
  | .finish file p params =>
      match (Lowering.standard (Listing.distinct params)).run ⟨file, p, d.blocks, none⟩ with
      | .ok (body, _) => (.ok (.body body), new d.core)
      | .error f => (.error f, d.emptied)
  | step => match step.writes d.core d.nextTemp with
    | .ok (ops, n) => (.ok .done, d.write ops n)
    | .error f => (.error f, d)

/-! ## Labels differ -/

/-- What holds of every draft: a label ends with the number of labels before it, the active one is
among them, and nothing is logged under any other. -/
structure Sound (d : Draft) : Prop where
  fixed : d.fixed.Sublist [entryLabel, returnLabel, exitLabel]
  numbered : ∀ i l, d.created[i]? = some l →
    ∃ stem, l = stem ++ "_" ++ toString (i + d.fixed.length)
  active : d.active ∈ d.labels
  written : ∀ e ∈ d.written, e.1 ∈ d.labels

variable {d : Draft}

theorem length_labels (d : Draft) : d.labels.length = d.created.length + d.fixed.length := by
  rw [labels, List.length_append, Nat.add_comm]

/-- The number at the end of a label is told from what is before it. -/
theorem append_bar_inj {s t : String} {n k : Nat}
    (h : s ++ "_" ++ toString n = t ++ "_" ++ toString k) : n = k := by
  have chars := congrArg String.toList h
  rw [String.toList_append, String.toList_append, String.toList_append, String.toList_append,
    show ("_" : String).toList = ['_'] from rfl, List.append_assoc, List.append_assoc] at chars
  exact (digits_read (by decide) chars).2

/-- A label with a number is none of the fixed ones. -/
theorem notMem_fixed (stem : String) (n : Nat) :
    stem ++ "_" ++ toString n ∉ [entryLabel, returnLabel, exitLabel] := by
  intro h
  have hbar : '_' ∈ (stem ++ "_" ++ toString n).toList := by simp
  have fixed : ∀ l ∈ [entryLabel, returnLabel, exitLabel], '_' ∉ l.toList := by decide
  exact fixed _ h hbar

/-- **A new label is none of the labels there are.** -/
theorem Sound.label_notMem (h : d.Sound) (stem : String) : d.label stem ∉ d.labels := by
  rw [label, length_labels]
  intro hmem
  rcases List.mem_append.mp hmem with hfixed | hcreated
  · exact notMem_fixed _ _ (h.fixed.subset hfixed)
  · obtain ⟨i, hi⟩ := List.mem_iff_getElem?.mp hcreated
    obtain ⟨stem', hstem⟩ := h.numbered i _ hi
    have hnumber := append_bar_inj hstem
    have := (List.getElem?_eq_some_iff.mp hi).1
    omega

/-- **Every label is given out once.** -/
theorem Sound.nodup (h : d.Sound) : d.labels.Nodup := by
  have hfixed : [entryLabel, returnLabel, exitLabel].Nodup := by decide
  refine List.nodup_append.mpr ⟨hfixed.sublist h.fixed, ?_, ?_⟩
  · refine List.nodup_iff_getElem?_ne_getElem?.mpr fun i j hij hj heq => ?_
    have hget := List.getElem?_eq_getElem hj
    obtain ⟨s, hs⟩ := h.numbered j _ hget
    obtain ⟨t, ht⟩ := h.numbered i _ (heq.trans hget)
    have := append_bar_inj (hs.symm.trans ht)
    omega
  · rintro l hl x hx rfl
    obtain ⟨i, hi⟩ := List.mem_iff_getElem?.mp hx
    obtain ⟨stem, rfl⟩ := h.numbered i l hi
    exact notMem_fixed _ _ (h.fixed.subset hl)

theorem sound_new (core : String) : Sound (new core) where
  fixed := .refl _
  numbered i l h := by simp [new] at h
  active := by simp [new, labels]
  written := by simp [new]

theorem sound_emptied (d : Draft) : d.emptied.Sound where
  fixed := by simp [emptied]
  numbered i l h := by simp [emptied] at h
  active := by simp [emptied, labels]
  written := by simp [emptied]

theorem Sound.write (h : d.Sound) (ops : List Op) (n : UInt32) : (d.write ops n).Sound where
  fixed := h.fixed
  numbered := h.numbered
  active := h.active
  written e he := by
    rcases List.mem_append.mp he with he | he
    · exact h.written e he
    · obtain ⟨o, -, rfl⟩ := List.mem_map.mp he
      exact h.active

theorem Sound.create (h : d.Sound) (stem : String) :
    Sound { d with created := d.created ++ [d.label stem] } where
  fixed := h.fixed
  numbered i l hi := by
    rw [List.getElem?_append] at hi
    split at hi
    case isTrue => exact h.numbered i l hi
    case isFalse hlen =>
      rw [List.getElem?_singleton] at hi
      split at hi
      case isTrue hlast =>
        obtain rfl := Option.some.inj hi
        exact ⟨stem, by rw [label, length_labels, show i = d.created.length by omega]⟩
      case isFalse => cases hi
  active := by
    have := h.active
    simp only [labels, List.mem_append] at this ⊢
    tauto
  written e he := by
    have := h.written e he
    simp only [labels, List.mem_append] at this ⊢
    tauto

theorem Sound.activate (h : d.Sound) {l : String} (hl : l ∈ d.labels) :
    Sound { d with active := l } where
  fixed := h.fixed
  numbered := h.numbered
  active := hl
  written := h.written

/-! ## Blocks -/

theorem opsAt_write (d : Draft) (ops : List Op) (n : UInt32) (l : String) :
    (d.write ops n).opsAt l = if l = d.active then d.opsAt l ++ ops else d.opsAt l := by
  rw [opsAt, write, List.filter_append, List.map_append]
  split
  case isTrue hl =>
    simp [opsAt, hl, List.filter_map, Function.comp_def]
  case isFalse hl =>
    simp [opsAt, List.filter_map, Function.comp_def, Ne.symm hl]

theorem Sound.opsAt_of_notMem (h : d.Sound) {l : String} (hl : l ∉ d.labels) : d.opsAt l = [] := by
  rw [opsAt, List.map_eq_nil_iff, List.filter_eq_nil_iff]
  intro e he hel
  exact hl (of_decide_eq_true hel ▸ h.written e he)

/-- **Every label has one block**, with what has been written under it. -/
theorem get?_blocks (d : Draft) (l : String) :
    d.blocks.get? l = if l ∈ d.labels then some ⟨l, d.opsAt l⟩ else none := by
  have same : ∀ e ∈ d.labels.map fun l => (l, (⟨l, d.opsAt l⟩ : Block)), e.1 = l →
      e.2 = ⟨l, d.opsAt l⟩ := by
    intro e he hel
    obtain ⟨k, -, rfl⟩ := List.mem_map.mp he
    rw [show k = l from hel]
  rw [blocks, Table.get?_ofList same, List.map_map]
  simp [Function.comp_def]

theorem contains_blocks {l : String} : d.blocks.contains l = true ↔ l ∈ d.labels := by
  rw [Table.contains, get?_blocks]
  split <;> simp_all

end Draft

/-! ## Builders -/

namespace Builder

variable {b : Builder} {d : Draft}

/-- **A builder keeps a draft**: the table of its blocks, the active one taken out. -/
structure Keeps (b : Builder) (d : Draft) : Prop where
  sound : d.Sound
  core : b.core = d.core
  nextTemp : b.nextTemp = d.nextTemp
  active : b.active = ⟨d.active, d.opsAt d.active⟩
  blocks : ∀ l, b.blocks.get? l =
    if l ∈ d.labels ∧ l ≠ d.active then some ⟨l, d.opsAt l⟩ else none

namespace Keeps

/-- With the active block put back the blocks are those of the draft. -/
theorem allBlocks (h : b.Keeps d) : b.allBlocks = d.blocks := by
  refine Table.ext_get? fun l => ?_
  rw [Builder.allBlocks, Table.get?_insert, h.active, h.blocks, d.get?_blocks]
  by_cases hl : l = d.active
  · subst hl
    simp [h.sound.active]
  · simp [hl]

/-- The number a builder gives to a new label is that of the labels. -/
theorem size (h : b.Keeps d) : b.blocks.size + 1 = d.labels.length := by
  have perm : b.blocks.keys.Perm (d.labels.erase d.active) := by
    refine (List.perm_ext_iff_of_nodup b.blocks.nodup_keys (h.sound.nodup.erase _)).mpr fun l => ?_
    rw [Table.mem_keys, Table.contains, h.blocks, h.sound.nodup.mem_erase_iff]
    by_cases hl : l ∈ d.labels ∧ l ≠ d.active
    · simp [hl]
    · simp only [hl, if_false, Option.isSome_none, Bool.false_eq_true, false_iff]
      exact fun hne => hl hne.symm
  have hlength := perm.length_eq
  rw [List.length_erase_of_mem h.sound.active] at hlength
  have hpos := List.length_pos_of_mem h.sound.active
  have hsize : b.blocks.size = b.blocks.keys.length := by rw [Table.keys, List.length_map]; rfl
  omega

theorem new (core : String) : Keeps (.new core) (.new core) where
  sound := Draft.sound_new core
  core := rfl
  nextTemp := rfl
  active := rfl
  blocks l := by
    simp only [Builder.new, Draft.new, Table.get?_insert, Table.get?_empty, Draft.labels,
      Draft.opsAt]
    have hexit : exitLabel ≠ entryLabel ∧ exitLabel ≠ returnLabel := by decide
    have hreturn : returnLabel ≠ entryLabel := by decide
    by_cases hx : l = exitLabel
    · simp [hx, hexit]
    · by_cases hr : l = returnLabel
      · simp [hr, hreturn, hexit.2.symm]
      · simp [hx, hr]

theorem reset (h : b.Keeps d) : b.reset.Keeps (.new d.core) := by
  rw [Builder.reset, h.core]
  exact new d.core

theorem emptied (h : b.Keeps d) : b.emptied.Keeps d.emptied where
  sound := d.sound_emptied
  core := h.core
  nextTemp := h.nextTemp
  active := rfl
  blocks l := by simp [Builder.emptied, Draft.emptied, Draft.labels]

/-- Operations are logged under the label of the active block. -/
theorem writing (h : b.Keeps d) (ops : List Op) (n : UInt32) :
    (b.writing ops n).Keeps (d.write ops n) where
  sound := h.sound.write ops n
  core := h.core
  nextTemp := rfl
  active := by
    rw [Draft.opsAt_write, Builder.writing, h.active]
    simp [Draft.write]
  blocks l := by
    rw [Draft.opsAt_write]
    change b.blocks.get? l = if l ∈ d.labels ∧ l ≠ d.active then _ else none
    rw [h.blocks]
    split
    case isTrue hl => rw [if_neg hl.2]
    case isFalse => rfl

theorem newBlock (h : b.Keeps d) (stem : String) : (b.newBlock stem).1 = d.label stem ∧
    (b.newBlock stem).2.Keeps { d with created := d.created ++ [d.label stem] } := by
  have hlabel : (b.newBlock stem).1 = d.label stem := by
    rw [Builder.newBlock, h.size]
    rfl
  have hfresh := h.sound.label_notMem stem
  refine ⟨hlabel, h.sound.create stem, h.core, h.nextTemp, h.active, fun l => ?_⟩
  change (b.blocks.insert (b.newBlock stem).1 ⟨(b.newBlock stem).1, []⟩).get? l = _
  rw [hlabel, Table.get?_insert, h.blocks]
  by_cases hl : l = d.label stem
  · subst hl
    have hne : d.label stem ≠ d.active := fun he => hfresh (he ▸ h.sound.active)
    have hempty : Draft.opsAt { d with created := d.created ++ [d.label stem] } (d.label stem) = [] :=
      h.sound.opsAt_of_notMem hfresh
    rw [if_pos rfl, hempty, if_pos ⟨by simp [Draft.labels], hne⟩]
  · have hmem : l ∈ Draft.labels { d with created := d.created ++ [d.label stem] } ↔ l ∈ d.labels := by
      simp [Draft.labels, hl]
    simp only [hmem, if_neg hl]
    rfl

/-- A block is gone on in if and only if there is one under the label. -/
theorem activate (h : b.Keeps d) (l : String) :
    (l ∈ d.labels → ∃ b', b.activate l = .ok b' ∧ b'.active.label = l ∧
      b'.Keeps { d with active := l }) ∧
    (l ∉ d.labels → b.activate l = .error (.unknownBlock l)) := by
  have hlabel : b.active.label = d.active := by rw [h.active]
  constructor
  · intro hl
    by_cases hactive : d.active = l
    · refine ⟨b, by rw [Builder.activate, hlabel, if_pos hactive], hlabel.trans hactive, ?_⟩
      subst hactive
      exact h
    · have hget : b.blocks.get? l = some ⟨l, d.opsAt l⟩ := by
        rw [h.blocks, if_pos ⟨hl, Ne.symm hactive⟩]
      refine ⟨{ b with
          blocks := (b.blocks.erase l).insert d.active ⟨d.active, d.opsAt d.active⟩
          active := ⟨l, d.opsAt l⟩ },
        by simp only [Builder.activate, if_neg hactive, hget, h.active], rfl,
        h.sound.activate hl, h.core, h.nextTemp, rfl, fun k => ?_⟩
      -- the block left is put back, the one gone on in is taken out
      simp only [Table.get?_insert, Table.get?_erase, h.blocks]
      by_cases hk : k = d.active
      · subst hk
        rw [if_pos rfl, if_pos ⟨h.sound.active, hactive⟩]
        rfl
      · by_cases hkl : k = l
        · simp [hkl, Ne.symm hactive]
        · rw [if_neg hk, if_neg hkl]
          simp only [hk, hkl, ne_eq, not_false_eq_true, and_true]
          rfl
  · intro hl
    have hactive : d.active ≠ l := fun he => hl (he ▸ h.sound.active)
    have hget : b.blocks.get? l = none := by
      rw [h.blocks, if_neg fun hk => hl hk.1]
    rw [Builder.activate, hlabel, if_neg hactive, hget]

end Keeps

/-! ## Each emitter writes what it should -/

theorem writing_nil (b : Builder) : b.writing [] b.nextTemp = b := by
  simp [Builder.writing]

theorem writing_push (b : Builder) (ops : List Op) (n : UInt32) (p : Position)
    (i : Instr Operand) : (b.writing ops n).push p i = b.writing (ops ++ [⟨p, i⟩]) n := by
  simp [push, emit, Builder.writing]

theorem writing_writing (b : Builder) (ops ops' : List Op) (n n' : UInt32) :
    (b.writing ops n).writing ops' n' = b.writing (ops ++ ops') n' := by
  simp [Builder.writing]

theorem freshTemp_eq (b : Builder) :
    b.freshTemp = (.ofId b.nextTemp, b.writing [] (b.nextTemp + 1)) := by
  simp [freshTemp, Builder.writing]

theorem truth_eq (b : Builder) (p : Position) (strict : Bool) (a : Operand) :
    b.truth p strict a = ((truthOps p strict a b.nextTemp).1,
      b.writing (truthOps p strict a b.nextTemp).2.1 (truthOps p strict a b.nextTemp).2.2) := by
  cases strict
  · simp [truth, truthOps, freshTemp_eq, writing_push]
  · simp [truth, truthOps, writing_nil]

theorem storeRefs_eq (p : Position) (list : Temp) (listType : String)
    (refs : List (String × String)) (place : Nat) (b : Builder) :
    storeRefs p list listType place refs b =
      (refOps p list listType place b.nextTemp refs).map fun w => b.writing w.1 w.2 := by
  induction refs generalizing place b with
  | nil => simp [storeRefs, refOps, Except.map, writing_nil]
  | cons e refs ih =>
    rw [storeRefs, refOps]
    split
    case isFalse => rfl
    case isTrue =>
      simp only [freshTemp_eq, writing_push, ih]
      change (refOps p list listType (place + 1) (b.nextTemp + 1) refs).map _ = _
      cases refOps p list listType (place + 1) (b.nextTemp + 1) refs with
      | error f => rfl
      | ok w => exact congrArg Except.ok (writing_writing ..)

theorem emitCall_eq (b : Builder) (p : Position) (key : String) (args : List Operand)
    (ret : Returned) (target : Temp) : b.emitCall p key args ret target =
      (callOps p key args ret target b.nextTemp).map fun w => b.writing w.1 w.2 := by
  rw [emitCall, callOps]
  split
  case isTrue => rfl
  case isFalse =>
    cases hbase : ret.packBase <;>
    · simp only [freshTemp_eq, writing_push, storeRefs_eq]
      change (refOps p (.ofId b.nextTemp) ret.list _ (b.nextTemp + 1) ret.refs).map _ = _
      cases refOps p (.ofId b.nextTemp) ret.list _ (b.nextTemp + 1) ret.refs with
      | error f => rfl
      | ok w => exact congrArg Except.ok (writing_writing ..)

/-- **A call that writes appends what it should to the active block**, or is at fault. -/
theorem run_eq_writes (b : Builder) {s : Step} (hs : s.isWrite = true) :
    b.run s = match s.writes b.core b.nextTemp with
      | .ok (ops, n) => (.ok .done, b.writing ops n)
      | .error f => (.error f, b) := by
  cases s with
  | emit o => rfl
  | emitNot p operator strict a type target =>
    simp only [run, emitNot, truth_eq, writing_push, Step.writes]
  | emitBranch p a strict x y =>
    simp only [run, emitBranch, truth_eq, writing_push, Step.writes]
  | emitTypeTest p target type argType a => rfl
  | emitCall p key args ret target =>
    rw [run, emitCall_eq, Step.writes]
    cases callOps p key args ret target b.nextTemp <;> rfl
  | _ => cases hs

end Builder

theorem Draft.run_eq_writes (d : Draft) {s : Builder.Step} (hs : s.isWrite = true) :
    d.run s = match s.writes d.core d.nextTemp with
      | .ok (ops, n) => (.ok .done, d.write ops n)
      | .error f => (.error f, d) := by
  cases s <;> first | rfl | cases hs

namespace Builder

variable {b : Builder} {d : Draft}

/-! ## Whole sequences -/

/-- **One call**: a builder answers as the draft it keeps, and keeps what becomes of it. -/
theorem Keeps.run (h : b.Keeps d) (s : Step) :
    (b.run s).1 = (d.run s).1 ∧ (b.run s).2.Keeps (d.run s).2 := by
  by_cases hs : s.isWrite = true
  · rw [run_eq_writes b hs, d.run_eq_writes hs, h.core, h.nextTemp]
    cases s.writes d.core d.nextTemp with
    | error f => exact ⟨rfl, h⟩
    | ok w => exact ⟨rfl, h.writing w.1 w.2⟩
  cases s with
  | reset => exact ⟨rfl, h.reset⟩
  | freshTemp =>
    refine ⟨by rw [Builder.run, freshTemp, h.nextTemp]; rfl, ?_⟩
    exact ⟨⟨h.sound.fixed, h.sound.numbered, h.sound.active, h.sound.written⟩, h.core,
      congrArg (· + 1) h.nextTemp, h.active, h.blocks⟩
  | capturedName name => exact ⟨rfl, h⟩
  | newBlock stem =>
    obtain ⟨hlabel, hkeeps⟩ := h.newBlock stem
    exact ⟨congrArg (fun l => Except.ok (Answer.name l)) hlabel, hkeeps⟩
  | activate l =>
    obtain ⟨hthere, hnot⟩ := h.activate l
    by_cases hl : l ∈ d.labels
    · obtain ⟨b', hb', hactive, hkeeps⟩ := hthere hl
      rw [Builder.run, hb', Draft.run, if_pos hl]
      exact ⟨congrArg (fun l => Except.ok (Answer.name l)) hactive, hkeeps⟩
    · rw [Builder.run, hnot hl, Draft.run, if_neg hl]
      exact ⟨rfl, h⟩
  | finish file p params =>
    rw [Builder.run, Draft.run, finish, h.allBlocks]
    cases (Lowering.standard (Listing.distinct params)).run ⟨file, p, d.blocks, none⟩ with
    | error f => exact ⟨rfl, h.emptied⟩
    | ok lowered => exact ⟨rfl, h.reset⟩
  | _ => exact absurd rfl hs

/-- **Every sequence of calls**: the answers are those of the draft kept. -/
theorem Keeps.all (h : b.Keeps d) (steps : List Step) :
    (Step.all Builder.run b steps).1 = (Step.all Draft.run d steps).1 ∧
      (Step.all Builder.run b steps).2.Keeps (Step.all Draft.run d steps).2 := by
  induction steps generalizing b d with
  | nil => exact ⟨rfl, h⟩
  | cons s steps ih =>
    obtain ⟨hanswer, hkeeps⟩ := h.run s
    rw [Step.all, Step.all]
    cases hb : b.run s with
    | mk answer b' =>
      cases hd : d.run s with
      | mk answer' d' =>
        rw [hb, hd] at hanswer hkeeps
        obtain rfl : answer = answer' := hanswer
        cases answer with
        | error f => exact ⟨rfl, hkeeps⟩
        | ok a =>
          obtain ⟨hanswers, hrest⟩ := ih hkeeps
          exact ⟨congrArg (.ok a :: ·) hanswers, hrest⟩

end Builder

theorem Draft.core_run (d : Draft) (s : Builder.Step) : (d.run s).2.core = d.core := by
  by_cases hs : s.isWrite = true
  · rw [d.run_eq_writes hs]
    cases s.writes d.core d.nextTemp <;> rfl
  cases s with
  | activate | finish =>
    rw [Draft.run]
    split <;> rfl
  | emit | emitNot | emitBranch | emitTypeTest | emitCall => exact absurd rfl hs
  | _ => rfl

theorem Draft.core_all (d : Draft) (steps : List Builder.Step) :
    (Builder.Step.all Draft.run d steps).2.core = d.core := by
  induction steps generalizing d with
  | nil => rfl
  | cons s steps ih =>
    rw [Builder.Step.all]
    split
    case h_1 f d' hrun => exact (congrArg (·.2.core) hrun).symm.trans (d.core_run s)
    case h_2 a d' hrun => exact (ih d').trans ((congrArg (·.2.core) hrun).symm.trans (d.core_run s))

/-- The fixed labels stay until a body cannot be lowered. -/
theorem Draft.fixed_run {d : Draft} (h : d.fixed = [entryLabel, returnLabel, exitLabel])
    (s : Builder.Step) : (d.run s).2.fixed = [entryLabel, returnLabel, exitLabel] ∨
      (d.run s).2 = d.emptied ∧ ∃ f, (d.run s).1 = .error f := by
  by_cases hs : s.isWrite = true
  · rw [d.run_eq_writes hs]
    cases s.writes d.core d.nextTemp <;> exact .inl h
  cases s with
  | reset => exact .inl rfl
  | activate l =>
    rw [Draft.run]
    split <;> exact .inl h
  | finish file p params =>
    rw [Draft.run]
    split
    case h_1 => exact .inl rfl
    case h_2 f _ => exact .inr ⟨rfl, f, rfl⟩
  | emit | emitNot | emitBranch | emitTypeTest | emitCall => exact absurd rfl hs
  | _ => exact .inl h

/-- **What any calls leave**: a draft with the fixed labels, or nothing but an empty `entry`. -/
theorem Draft.fixed_all {d : Draft} (h : d.fixed = [entryLabel, returnLabel, exitLabel])
    (steps : List Builder.Step) :
    (Builder.Step.all Draft.run d steps).2.fixed = [entryLabel, returnLabel, exitLabel] ∨
      ∃ d' : Draft, (Builder.Step.all Draft.run d steps).2 = d'.emptied := by
  induction steps generalizing d with
  | nil => exact .inl h
  | cons s steps ih =>
    have hstep := fixed_run h s
    rw [Builder.Step.all]
    split
    case h_1 f d' hrun =>
      rw [hrun] at hstep
      exact hstep.imp_right fun he => ⟨d, he.1⟩
    case h_2 a d' hrun =>
      rw [hrun] at hstep
      exact ih (hstep.resolve_right fun ⟨_, f, hf⟩ => by cases hf)

/-- **A builder is a plain map from labels to operations.**  After any sequence of calls it has
answered as its draft; a new label is that of no block, the active one included; going on in a block
is at fault exactly where there is none under the label; the blocks to be lowered are those of the
draft, each label once, with what was written while it was active; and once a body has been handed
out everything begins anew. -/
theorem Builder.refines (core : String) (steps : List Step) :
    let built := Step.all Builder.run (.new core) steps
    let drafted := Step.all Draft.run (.new core) steps
    built.1 = drafted.1 ∧
      (∀ stem, built.2.allBlocks.contains (built.2.newBlock stem).1 = false) ∧
      (∀ l, (∃ f, built.2.activate l = .error f) ↔ built.2.allBlocks.contains l = false) ∧
      drafted.2.labels.Nodup ∧ built.2.allBlocks = drafted.2.blocks ∧
      ∀ file p params body, built.2.finish file p params = .ok body →
        ∀ more, Step.all Builder.run (built.2.run (.finish file p params)).2 more =
          Step.all Builder.run (.new core) more := by
  intro built drafted
  obtain ⟨hanswers, h⟩ : built.1 = drafted.1 ∧ built.2.Keeps drafted.2 := (Keeps.new core).all steps
  have hnone : ∀ l, built.2.allBlocks.contains l = false ↔ l ∉ drafted.2.labels := by
    intro l
    rw [h.allBlocks, ← Draft.contains_blocks, Bool.not_eq_true]
  refine ⟨hanswers, fun stem => ?_, fun l => ?_, h.sound.nodup, h.allBlocks,
    fun file p params body hbody more => ?_⟩
  · rw [hnone, (h.newBlock stem).1]
    exact h.sound.label_notMem stem
  · rw [hnone]
    obtain ⟨hthere, hnot⟩ := h.activate l
    refine ⟨fun ⟨f, hf⟩ hl => ?_, fun hl => ⟨_, hnot hl⟩⟩
    obtain ⟨b', hb', -⟩ := hthere hl
    rw [hb'] at hf
    cases hf
  · have hcore : built.2.core = core := h.core.trans (Draft.core_all (.new core) steps)
    rw [Builder.run, hbody]
    change Step.all Builder.run (Builder.new built.2.core) more = _
    rw [hcore]

end Monomorph
