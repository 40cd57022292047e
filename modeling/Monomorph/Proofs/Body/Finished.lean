import Monomorph.Proofs.Body.Assigned
import Monomorph.Proofs.Body.Checks

/-!
# Body/Finished — the checks are exact where nothing leads back

The checks follow one set of names forward, block by block, and intersect where ways meet.  Each set
is that of the names written on **every** way to the end of its block (`EndsWith`): a block is taken
with all its predecessors done, and what every way brings to it is what each of them hands on
(`mem_known`).  A merge reads at the ends of its predecessors, which are done as well.  So a body
passes if and only if no way through it reads a name too early (`violations_eq_nil_iff_finished`).
-/

namespace Monomorph

/-- The labels of the blocks a merge has inputs from. -/
def Instr.sources {α : Type} : Instr α → List String
  | .phi inputs _ => inputs.keys
  | _ => []

namespace Blocks

/-! ## Finished bodies -/

/-- A name is a parameter, or written once control has been through the blocks listed. -/
def WrittenOn (bs : Blocks) (params way : List String) (n : String) : Prop :=
  n ∈ params ∨ n ∈ way.flatMap bs.namesAt

/-- Merges have inputs from predecessors of their own block only. -/
def MergesPredecessors (bs : Blocks) : Prop :=
  ∀ l, ∀ o ∈ bs.opsAt l, ∀ p ∈ o.instr.sources, p ∈ bs.predecessors l

/-- **Whichever way control gets there, what an operation reads is written**: what a merge reads, at
the end of the block the input is from, and what any other operation reads, where it stands after
others of its block. -/
def ReadsWritten (bs : Blocks) (params : List String) (l : String) (earlier : List Op) (o : Op) :
    Prop :=
  match o.instr with
  | .phi inputs _ => ∀ p r, inputs.get? p = some r → ∀ before, bs.Path before p →
      bs.WrittenOn params (before ++ [p]) r.name
  | _ => ∀ r ∈ o.reads, ∀ before, bs.Path before l →
      bs.WrittenOn params before r.name ∨ r.name ∈ (earlier.flatMap Op.writes).map Register.name

/-- **A finished body**: well shaped, no jump to a block there is not, no name written that is a
parameter or written elsewhere, and nothing read too early. -/
structure Finished (bs : Blocks) (params : List String) : Prop extends bs.WellShaped where
  leads : ∀ l b, bs.get? l = some b → ∀ o ∈ b.ops, ∀ k ∈ o.instr.labels, bs.contains k = true
  distinct : (bs.allWrites.map (·.2.name)).Nodup
  notParam : ∀ w ∈ bs.allWrites, w.2.name ∉ params
  reads : ∀ l earlier o later, bs.opsAt l = earlier ++ o :: later →
    bs.ReadsWritten params l earlier o

variable {bs : Blocks} {params : List String} {out : Table Names} {l : String} {known : Names}

theorem contains_of_mem_opsAt {o : Op} (h : o ∈ bs.opsAt l) : bs.contains l = true := by
  rw [opsAt] at h
  split at h
  · exact Table.contains_of_get? ‹_›
  · simp at h

/-- Whether merges have inputs from predecessors only is told by the blocks there are. -/
theorem mergesPredecessors_of_keys
    (h : ∀ l ∈ bs.keys, ∀ o ∈ bs.opsAt l, ∀ p ∈ o.instr.sources, p ∈ bs.predecessors l) :
    bs.MergesPredecessors :=
  fun l o ho => h l (Table.mem_keys.mpr (contains_of_mem_opsAt ho)) o ho

theorem MergesPredecessors.edge (hm : bs.MergesPredecessors) {pos : Position}
    {inputs : Table Register} {target : Register}
    (ho : (⟨pos, .phi inputs target⟩ : Op) ∈ bs.opsAt l) {p : String} {r : Register}
    (hr : inputs.get? p = some r) : bs.Edge p l := by
  have hp : p ∈ inputs.keys := Table.mem_keys.mpr (Table.contains_of_get? hr)
  exact (mem_predecessors_iff_edge (contains_of_mem_opsAt ho)).mp (hm l _ ho p hp)

/-! ## Names known, and names written on every way -/

/-- The names known at the end of a block are those written on every way there. -/
def EndsWith (bs : Blocks) (params : List String) (l : String) (names : Names) : Prop :=
  ∀ n, n ∈ names ↔ ∀ before, bs.Path before l → bs.WrittenOn params (before ++ [l]) n

/-- **The names known at the start of a block** are those written on every way to it. -/
theorem mem_known (hl : bs.Reachable l)
    (hpred : ∀ p, bs.Reachable p → bs.Edge p l →
      ∃ names, out.get? p = some names ∧ bs.EndsWith params p names)
    (hknown : known = if l = entryLabel then params else
      bs.knownAtStart bs.reversePostOrder out l) (n : String) :
    n ∈ known ↔ bs.Brought params bs.namesAt l n := by
  by_cases he : l = entryLabel
  · subst he
    rw [hknown, if_pos rfl, brought_entry hl.contains]
  · rw [hknown, if_neg he, mem_knownAtStart, brought_iff_forall_pred he]
    simp only [mem_predecessors_iff_edge hl.contains, mem_reversePostOrder]
    constructor
    · rintro ⟨-, hall⟩ p hp e
      obtain ⟨names, hnames, hends⟩ := hpred p hp e
      exact brought_past.mp ((hends n).mp (hall p e hp names hnames))
    · intro hall
      refine ⟨?_, fun p e hp names hnames => ?_⟩
      · obtain ⟨before, hway⟩ := hl
        rcases hway.eq_nil_or_step with ⟨-, rfl⟩ | ⟨way, p, -, hp, e⟩
        · exact absurd rfl he
        · obtain ⟨names, hnames, -⟩ := hpred p hp.reachable e
          exact ⟨p, e, hp.reachable, Table.contains_of_get? hnames⟩
      · obtain ⟨_, hnames', hends⟩ := hpred p hp e
        obtain rfl := Option.some.inj (hnames'.symm.trans hnames)
        exact (hends n).mpr (brought_past.mpr (hall p hp e))

/-- **One operation is at fault** where it reads a name that some way has not written. -/
theorem readFaults_eq_nil (hm : bs.MergesPredecessors)
    (hpred : ∀ p, bs.Reachable p → bs.Edge p l →
      ∃ names, out.get? p = some names ∧ bs.EndsWith params p names)
    (hknown : ∀ n, n ∈ known ↔ bs.Brought params bs.namesAt l n) {earlier later : List Op} {o : Op}
    (hsplit : bs.opsAt l = earlier ++ o :: later) :
    readFaults bs.reversePostOrder out l
        (readsFaults bs.reversePostOrder out l known earlier).2 o = [] ↔
      bs.ReadsWritten params l earlier o := by
  obtain ⟨pos, i⟩ := o
  cases hi : i.isMerge with
  | true =>
    cases i with
    | phi inputs target =>
      rw [readFaults_of_phi, ReadsWritten]
      simp only [mem_reversePostOrder]
      have ho : (⟨pos, .phi inputs target⟩ : Op) ∈ bs.opsAt l := by simp [hsplit]
      refine forall₂_congr fun p r => forall_congr' fun hr => ?_
      have e : bs.Edge p l := hm.edge ho hr
      constructor
      · intro h before hway
        obtain ⟨names, hnames, hmem⟩ := h hway.reachable
        obtain ⟨_, hnames', hends⟩ := hpred p hway.reachable e
        obtain rfl := Option.some.inj (hnames'.symm.trans hnames)
        exact (hends r.name).mp hmem before hway
      · intro h hp
        obtain ⟨names, hnames, hends⟩ := hpred p hp e
        exact ⟨names, hnames, (hends r.name).mpr h⟩
    | _ => cases hi
  | false =>
    have hreads : bs.ReadsWritten params l earlier ⟨pos, i⟩ ↔
        ∀ r ∈ Op.reads ⟨pos, i⟩, ∀ before, bs.Path before l → bs.WrittenOn params before r.name ∨
          r.name ∈ (earlier.flatMap Op.writes).map Register.name := by
      cases i with
      | phi => cases hi
      | _ => rfl
    rw [readFaults_of_noMerge hi, hreads]
    refine forall₂_congr fun r _ => ?_
    rw [mem_readsFaults_snd, hknown]
    by_cases hn : r.name ∈ (earlier.flatMap Op.writes).map Register.name
    · simp [hn]
    · simp only [hn, or_false]
      rfl

/-- **One block, its predecessors done**: it is at fault where one of its operations reads too
early, and the names known at its end are those written on every way there. -/
theorem readsFaults_eq_nil (hm : bs.MergesPredecessors) (hl : bs.Reachable l)
    (hpred : ∀ p, bs.Reachable p → bs.Edge p l →
      ∃ names, out.get? p = some names ∧ bs.EndsWith params p names)
    (hknown : known = if l = entryLabel then params else
      bs.knownAtStart bs.reversePostOrder out l) :
    ((readsFaults bs.reversePostOrder out l known (bs.opsAt l)).1 = [] ↔
        ∀ earlier o later, bs.opsAt l = earlier ++ o :: later →
          bs.ReadsWritten params l earlier o) ∧
      bs.EndsWith params l (readsFaults bs.reversePostOrder out l known (bs.opsAt l)).2 := by
  have hmem := mem_known hl hpred hknown
  constructor
  · rw [readsFaults_fst_eq_nil]
    exact forall₃_congr fun earlier o later => forall_congr' fun hsplit =>
      readFaults_eq_nil hm hpred hmem hsplit
  · intro n
    rw [mem_readsFaults_snd, hmem]
    exact brought_past.symm

/-- An operation of a block control never gets to reads nothing too early. -/
theorem readsWritten_of_unreachable (hm : bs.MergesPredecessors) (hl : ¬ bs.Reachable l)
    {earlier later : List Op} {o : Op} (hsplit : bs.opsAt l = earlier ++ o :: later) :
    bs.ReadsWritten params l earlier o := by
  obtain ⟨pos, i⟩ := o
  rw [ReadsWritten]
  split
  · rename_i inputs target hi
    intro p r hr before hway
    -- an input from a block within reach would bring the merge within reach
    have hmem : (⟨pos, .phi inputs target⟩ : Op) ∈ bs.opsAt l := by simp [hsplit, ← hi]
    exact absurd (hway.reachable.step (hm.edge hmem hr)) hl
  · exact fun r _ before hway => absurd hway.reachable hl

end Blocks

open Blocks

/-- **The checks are exact where nothing leads back.**  A body whose merges have inputs from
predecessors only passes if and only if it is finished: one pass with intersections says what holds
on every way. -/
theorem Body.violations_eq_nil_iff_finished {b : Body} {params : List String}
    (ha : b.blocks.Acyclic) (hm : b.blocks.MergesPredecessors) :
    b.violations params = [] ↔ b.blocks.Finished params := by
  have huse : b.blocks.useFaults params b.blocks.reversePostOrder ∅ b.blocks.reversePostOrder = [] ↔
      ∀ l, b.blocks.Reachable l → ∀ earlier o later, b.blocks.opsAt l = earlier ++ o :: later →
        b.blocks.ReadsWritten params l earlier o :=
    useFaults_eq_nil ha (b.blocks.EndsWith params) _ fun l out hl hpred known hknown =>
      readsFaults_eq_nil hm hl hpred hknown
  rw [violations_eq_nil, missingBlocks_eq_nil, terminatorFaults_eq_nil, rewritten_eq_nil, huse,
    List.forall_mem_map]
  constructor
  · rintro ⟨⟨⟨hfixed, hblocks⟩, hdistinct, hnew⟩, hreads⟩
    refine ⟨⟨hfixed, fun l b hb => (hblocks l b hb).1, fun l b hb => (hblocks l b hb).2.2⟩,
      fun l b hb => (hblocks l b hb).2.1, hdistinct, hnew, fun l earlier o later hsplit => ?_⟩
    by_cases hl : b.blocks.Reachable l
    · exact hreads l hl earlier o later hsplit
    · exact readsWritten_of_unreachable hm hl hsplit
  · intro h
    exact ⟨⟨⟨h.fixed, fun l b hb => ⟨h.once l b hb, h.leads l b hb, h.ends l b hb⟩⟩,
      h.distinct, h.notParam⟩, fun l _ => h.reads l⟩

/-- `if p then y = 2 else x = 1`, merged into `z` and returned. -/
def Blocks.merging : Blocks := Table.ofList [
  (entryLabel, ⟨entryLabel, [
    ⟨.synthetic, .branch (.ofVar (.ofBase "p")) "then" "else"⟩]⟩),
  ("then", ⟨"then", [
    ⟨.synthetic, .store (.literal (.int "2")) (.ofBase "y")⟩,
    ⟨.synthetic, .jump returnLabel⟩]⟩),
  ("else", ⟨"else", [
    ⟨.synthetic, .store (.literal (.int "1")) (.ofBase "x")⟩,
    ⟨.synthetic, .jump returnLabel⟩]⟩),
  (returnLabel, ⟨returnLabel, [
    ⟨.synthetic, .phi (Table.ofList [("then", .var (.ofBase "y")), ("else", .var (.ofBase "x"))])
      (.var (.ofBase "z"))⟩,
    ⟨.synthetic, .returnAssign (.ofVar (.ofBase "z")) .result⟩,
    ⟨.synthetic, .jump exitLabel⟩]⟩),
  (exitLabel, ⟨exitLabel, []⟩)]

theorem Blocks.merging_reversePostOrder : merging.reversePostOrder =
    ["entry", "else", "then", "returnassign", "exit"] := by
  have hkeys : merging.keys.erase entryLabel = ["else", "exit", "returnassign", "then"] := by
    decide +kernel
  have hentry : merging.successors entryLabel = ["then", "else"] := by decide +kernel
  have hthen : merging.successors "then" = ["returnassign"] := by decide +kernel
  have helse : merging.successors "else" = ["returnassign"] := by decide +kernel
  have hreturn : merging.successors "returnassign" = ["exit"] := by decide +kernel
  have hexit : merging.successors "exit" = [] := by decide +kernel
  rw [reversePostOrder, if_pos (by decide +kernel), hkeys, hentry]
  simp [search, hthen, helse, hreturn, hexit, entryLabel]

/-- It passes with its parameter, so it is finished; without, it reads a name too early. -/
theorem merging_finished : merging.Acyclic ∧ merging.MergesPredecessors ∧
    merging.Finished ["p"] ∧ ¬ merging.Finished [] := by
  have ha : merging.Acyclic :=
    acyclic_of_rank (fun l => ["entry", "then", "else", "returnassign", "exit"].idxOf l)
      (by decide +kernel)
  have hm : merging.MergesPredecessors := mergesPredecessors_of_keys (by decide +kernel)
  have exact_for : ∀ params, (⟨"", .synthetic, merging, none⟩ : Body).violations params = [] ↔
      merging.Finished params := fun _ => Body.violations_eq_nil_iff_finished ha hm
  refine ⟨ha, hm, (exact_for ["p"]).mp ?_, fun h => absurd ((exact_for []).mpr h) ?_⟩
  · rw [Body.violations, merging_reversePostOrder]
    decide +kernel
  · rw [Body.violations, merging_reversePostOrder]
    decide +kernel

end Monomorph
