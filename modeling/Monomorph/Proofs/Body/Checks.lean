import Monomorph.Body.Verify
import Monomorph.Proofs.Body.Meaning
import Monomorph.Proofs.Graph.Shape

/-!
# Body/Checks — when each check finds nothing

What `violations` lists is for people to read; here is what it means that nothing is listed.  The
checks on the shape of a body are conditions on its operations (`WellShaped`), on its names that
none is written twice (`rewritten_eq_nil`), and on its reads that the names known suffice.  Known
names grow by what is written, whether a read is at fault or not (`mem_readsFaults_snd`), and where
nothing leads back a block is taken with all its predecessors done, so that what is shown of one
block from its predecessors is shown of all (`useFaults_eq_nil`).
-/

namespace Monomorph

namespace Blocks

variable {bs : Blocks}

/-! ## Shape -/

/-- **The shape of a finished body**: the fixed blocks are there, and every block but the last ends
with its only jump. -/
structure WellShaped (bs : Blocks) : Prop where
  fixed : ∀ l ∈ [entryLabel, returnLabel, exitLabel], bs.contains l = true
  once : ∀ l b, bs.get? l = some b → b.EndsOnce
  ends : ∀ l b, bs.get? l = some b → l ≠ exitLabel → b.terminator?.isSome = true

theorem missingBlocks_eq_nil :
    bs.missingBlocks = [] ↔ ∀ l ∈ [entryLabel, returnLabel, exitLabel], bs.contains l = true := by
  rw [missingBlocks, List.map_eq_nil_iff, List.filter_eq_nil_iff]
  simp

theorem jumpFaults_eq_nil {label : String} {last : Bool} {o : Op} :
    bs.jumpFaults label last o = [] ↔
      (o.instr.isTerminator = true → last = true) ∧ ∀ l ∈ o.instr.labels, bs.contains l = true := by
  rw [jumpFaults, List.append_eq_nil_iff, List.map_eq_nil_iff, List.filter_eq_nil_iff]
  cases o.instr.isTerminator <;> cases last <;> simp

/-- **Nothing is wrong with the jumps of a row** if only the last operation jumps, to labels there
are. -/
theorem jumpsFaults_eq_nil {label : String} {ops : List Op} :
    bs.jumpsFaults label ops = [] ↔ (∀ o ∈ ops.dropLast, o.instr.isTerminator = false) ∧
      ∀ o ∈ ops, ∀ l ∈ o.instr.labels, bs.contains l = true := by
  induction ops with
  | nil => simp [jumpsFaults]
  | cons o ops ih =>
    rw [jumpsFaults, List.append_eq_nil_iff, jumpFaults_eq_nil, ih]
    cases ops with
    | nil => simp
    | cons x ops => simp; tauto

/-- Where labels exist and jumps come last, every label named exists. -/
theorem contains_labels (hc : bs.Closed) {l : String} {b : Block} (hb : bs.get? l = some b)
    (ho : b.EndsOnce) : ∀ o ∈ b.ops, ∀ k ∈ o.instr.labels, bs.contains k = true := by
  intro o hmem k hk
  have ht : o.instr.isTerminator = true := by
    by_contra hn
    rw [Instr.labels_eq_nil (Bool.not_eq_true _ ▸ hn)] at hk
    cases hk
  have hlast : b.ops.getLast? = some o := by
    rcases List.eq_nil_or_concat b.ops with hnil | ⟨init, x, hops⟩
    · simp [hnil] at hmem
    · rw [Block.EndsOnce, hops, List.concat_eq_append, List.dropLast_concat] at ho
      rw [hops, List.concat_eq_append, List.mem_append, List.mem_singleton] at hmem
      rw [hops, List.concat_eq_append, List.getLast?_concat]
      rcases hmem with hmem | rfl
      · rw [ho o hmem] at ht
        cases ht
      · rfl
  refine hc l k ?_
  rw [successors_of_get? hb, Block.successors, Block.terminator?, hlast]
  simpa [ht] using hk

/-- **Nothing is wrong with how blocks end** if every block ends once, leads to blocks there are, and
does end. -/
theorem terminatorFaults_eq_nil :
    bs.terminatorFaults = [] ↔ ∀ l b, bs.get? l = some b →
      b.EndsOnce ∧ (∀ o ∈ b.ops, ∀ k ∈ o.instr.labels, bs.contains k = true) ∧
        (l ≠ exitLabel → b.terminator?.isSome = true) := by
  rw [terminatorFaults, List.flatMap_eq_nil_iff]
  have block : ∀ (l : String) (b : Block), (bs.jumpsFaults l b.ops ++ if l ≠ exitLabel && b.terminator?.isNone then
          [(⟨l, "block does not end with a jump"⟩ : Violation)] else []) = [] ↔
        b.EndsOnce ∧ (∀ o ∈ b.ops, ∀ k ∈ o.instr.labels, bs.contains k = true) ∧
          (l ≠ exitLabel → b.terminator?.isSome = true) := by
    intro l b
    rw [List.append_eq_nil_iff, jumpsFaults_eq_nil, and_assoc]
    refine and_congr_right fun _ => and_congr_right fun _ => ?_
    by_cases hl : l = exitLabel
    · simp [hl]
    · cases b.terminator? <;> simp [hl]
  constructor
  · exact fun h l b hb => (block l b).mp (h (l, b) (Table.mem_entries.mpr hb))
  · exact fun h e he => (block e.1 e.2).mpr (h e.1 e.2 (Table.mem_entries.mp he))

theorem wellShaped_iff (hc : bs.Closed) :
    bs.WellShaped ↔ bs.missingBlocks = [] ∧ bs.terminatorFaults = [] := by
  rw [missingBlocks_eq_nil, terminatorFaults_eq_nil]
  exact ⟨fun h => ⟨h.fixed, fun l b hb =>
      ⟨h.once l b hb, contains_labels hc hb (h.once l b hb), h.ends l b hb⟩⟩,
    fun h => ⟨h.1, fun l b hb => (h.2 l b hb).1, fun l b hb => (h.2 l b hb).2.2⟩⟩

/-! ## Names -/

/-- **No name is written twice** if the names written differ from each other and from those
written before. -/
theorem rewritten_eq_nil {names : List String} {writes : List (String × Register)} :
    rewritten names writes = [] ↔
      (writes.map (·.2.name)).Nodup ∧ ∀ n ∈ writes.map (·.2.name), n ∉ names := by
  induction writes generalizing names with
  | nil => simp [rewritten]
  | cons e rest ih =>
    rw [rewritten]
    by_cases he : e.2.name ∈ names
    · simp [he]
    · rw [if_neg he, ih, List.map_cons, List.nodup_cons, List.forall_mem_cons]
      simp only [List.mem_cons, not_or]
      constructor
      · rintro ⟨hnd, hall⟩
        exact ⟨⟨fun hmem => (hall _ hmem).1 rfl, hnd⟩, he, fun n hn => (hall n hn).2⟩
      · rintro ⟨⟨hne, hnd⟩, -, hall⟩
        exact ⟨hnd, fun n hn => ⟨fun h => hne (h ▸ hn), hall n hn⟩⟩

/-! ## Reads -/

variable {reached : List String} {out : Table Names} {label : String}

theorem readFaults_of_noMerge {o : Op} (h : o.instr.isMerge = false) (known : Names) :
    readFaults reached out label known o = [] ↔ ∀ r ∈ o.reads, r.name ∈ known := by
  rw [readFaults]
  split
  · rename_i hi
    rw [hi] at h
    cases h
  · rw [List.map_eq_nil_iff, List.filter_eq_nil_iff]
    simp

theorem readFaults_of_phi {p : Position} {inputs : Table Register} {t : Register} {known : Names} :
    readFaults reached out label known ⟨p, .phi inputs t⟩ = [] ↔
      ∀ l r, inputs.get? l = some r → l ∈ reached → ∃ names, out.get? l = some names ∧
        r.name ∈ names := by
  rw [readFaults, List.map_eq_nil_iff, List.filter_eq_nil_iff]
  constructor
  · intro h l r hr hl
    have := h (l, r) (Table.mem_entries.mpr hr)
    simpa [hl, Option.any_eq_true] using this
  · intro h e he
    have := h e.1 e.2 (Table.mem_entries.mp he)
    by_cases hl : e.1 ∈ reached
    · obtain ⟨names, hn, hr⟩ := this hl
      simp [hl, hn, hr]
    · simp [hl]

/-- **After a row the names it writes are known**, and those known before. -/
theorem mem_readsFaults_snd {known : Names} {ops : List Op} {n : String} :
    n ∈ (readsFaults reached out label known ops).2 ↔
      n ∈ known ∨ n ∈ (ops.flatMap Op.writes).map Register.name := by
  induction ops generalizing known with
  | nil => simp [readsFaults]
  | cons o ops ih =>
    rw [readsFaults]
    simp only [ih, List.mem_append, List.flatMap_cons, List.map_append]
    tauto

theorem readsFaults_append {known : Names} {l r : List Op} :
    readsFaults reached out label known (l ++ r) =
      ((readsFaults reached out label known l).1
        ++ (readsFaults reached out label (readsFaults reached out label known l).2 r).1,
      (readsFaults reached out label (readsFaults reached out label known l).2 r).2) := by
  induction l generalizing known with
  | nil => rfl
  | cons o l ih =>
    rw [List.cons_append, readsFaults, ih, readsFaults]
    simp only [List.append_assoc]

/-- **A row is not at fault** if no operation is, with the names known where it stands. -/
theorem readsFaults_fst_eq_nil {known : Names} {ops : List Op} :
    (readsFaults reached out label known ops).1 = [] ↔ ∀ earlier o later,
      ops = earlier ++ o :: later →
        readFaults reached out label (readsFaults reached out label known earlier).2 o = [] := by
  constructor
  · rintro h earlier o later rfl
    rw [readsFaults_append, List.append_eq_nil_iff] at h
    exact (List.append_eq_nil_iff.mp h.2).1
  · intro h
    induction ops generalizing known with
    | nil => rfl
    | cons x ops ih =>
      refine List.append_eq_nil_iff.mpr ⟨h [] x ops rfl, ih fun earlier o later heq => ?_⟩
      exact h (x :: earlier) o later (by rw [heq, List.cons_append])

/-- **The names known at a block** are those known at the ends of all predecessors done. -/
theorem mem_knownAtStart {n : String} :
    n ∈ bs.knownAtStart reached out label ↔
      (∃ p ∈ bs.predecessors label, p ∈ reached ∧ out.contains p = true) ∧
        ∀ p ∈ bs.predecessors label, p ∈ reached → ∀ names, out.get? p = some names →
          n ∈ names := by
  have hmem : ∀ names, names ∈ ((bs.predecessors label).filter fun p =>
      decide (p ∈ reached)).filterMap out.get? ↔
      ∃ p ∈ bs.predecessors label, p ∈ reached ∧ out.get? p = some names := by
    intro names
    simp [List.mem_filterMap, and_assoc]
  have hall : (∀ p ∈ bs.predecessors label, p ∈ reached → ∀ names, out.get? p = some names →
      n ∈ names) ↔ ∀ names ∈ ((bs.predecessors label).filter fun p =>
        decide (p ∈ reached)).filterMap out.get?, n ∈ names := by
    simp only [hmem]
    exact ⟨fun h names ⟨p, hp, hr, hn⟩ => h p hp hr names hn,
      fun h p hp hr names hn => h names ⟨p, hp, hr, hn⟩⟩
  have hex : (∃ p ∈ bs.predecessors label, p ∈ reached ∧ out.contains p = true) ↔
      ((bs.predecessors label).filter fun p => decide (p ∈ reached)).filterMap out.get? ≠ [] := by
    constructor
    · rintro ⟨p, hp, hr, hc⟩
      obtain ⟨names, hn⟩ := Table.contains_iff.mp hc
      exact List.ne_nil_of_mem ((hmem names).mpr ⟨p, hp, hr, hn⟩)
    · intro h
      obtain ⟨names, hnames⟩ := List.exists_mem_of_ne_nil _ h
      obtain ⟨p, hp, hr, hn⟩ := (hmem names).mp hnames
      exact ⟨p, hp, hr, Table.contains_of_get? hn⟩
  rw [hall, hex, knownAtStart]
  cases ((bs.predecessors label).filter fun p => decide (p ∈ reached)).filterMap out.get? with
  | nil => simp
  | cons first rest => simp [List.mem_filter]

/-! ## Blocks in turn -/

/-- **What one block shows of itself once its predecessors are done, all blocks show**: `ends` is
what the names known at the end of a block are like, `good` says when the block is not at fault. -/
theorem useFaults_eq_nil (ha : bs.Acyclic) {params : List String} (ends : String → Names → Prop)
    (good : String → Prop)
    (step : ∀ l out, bs.Reachable l →
      (∀ p, bs.Reachable p → bs.Edge p l → ∃ names, out.get? p = some names ∧ ends p names) →
      ∀ known, known =
          (if l = entryLabel then params else bs.knownAtStart bs.reversePostOrder out l) →
        ((readsFaults bs.reversePostOrder out l known (bs.opsAt l)).1 = [] ↔ good l) ∧
          ends l (readsFaults bs.reversePostOrder out l known (bs.opsAt l)).2) :
    bs.useFaults params bs.reversePostOrder ∅ bs.reversePostOrder = [] ↔
      ∀ l, bs.Reachable l → good l := by
  -- on the blocks left, with the table of those done
  have run : ∀ rest done out, bs.reversePostOrder = done ++ rest →
      (∀ p ∈ done, ∃ names, out.get? p = some names ∧ ends p names) →
      (bs.useFaults params bs.reversePostOrder out rest = [] ↔ ∀ l ∈ rest, good l) := by
    intro rest
    induction rest with
    | nil => simp [useFaults]
    | cons l rest ih =>
      intro done out hr hdone
      have hl : bs.Reachable l := mem_reversePostOrder.mp (by simp [hr])
      obtain ⟨hfaults, hends⟩ := step l out hl
        (fun p hp e => hdone p (pred_mem_of_order ha hr hp e)) _ rfl
      have hnext : ∀ p ∈ done ++ [l], ∃ names, (out.insert l (readsFaults bs.reversePostOrder out l
          (if l = entryLabel then params else bs.knownAtStart bs.reversePostOrder out l)
          (bs.opsAt l)).2).get? p = some names ∧ ends p names := by
        intro p hp
        by_cases hpl : p = l
        · subst hpl
          exact ⟨_, Table.get?_insert_self _ _ _, hends⟩
        · rw [Table.get?_insert_ne _ _ hpl]
          exact hdone p ((List.mem_append.mp hp).resolve_right (by simpa using hpl))
      rw [List.forall_mem_cons, ← hfaults, ← ih (done ++ [l]) _ (by simp [hr]) hnext,
        ← List.append_eq_nil_iff]
      rfl
  rw [run bs.reversePostOrder [] ∅ (List.nil_append _).symm (by simp)]
  simp only [mem_reversePostOrder]

end Blocks

/-- **A body passes** if each check finds nothing. -/
theorem Body.violations_eq_nil {b : Body} {params : List String} :
    b.violations params = [] ↔
      ((b.blocks.missingBlocks = [] ∧ b.blocks.terminatorFaults = []) ∧
        Blocks.rewritten params b.blocks.allWrites = []) ∧
      b.blocks.useFaults params b.blocks.reversePostOrder ∅ b.blocks.reversePostOrder = [] := by
  rw [← List.append_eq_nil_iff, ← List.append_eq_nil_iff, violations]
  cases b.blocks.missingBlocks ++ b.blocks.terminatorFaults
    ++ Blocks.rewritten params b.blocks.allWrites <;> simp

end Monomorph
