import Monomorph.Body.Copies
import Monomorph.Proofs.Lowering.Trimming

/-!
# Lowering/Copies — reading through copies changes nothing that is read

Each copy holds what it copies (`Copies.Valid`): a write to either ends the copy, so this stays true
along a row.  **The row then runs exactly as it did** (`steps_rewriteAll`), to the same store and
the same events.  What it reads are registers it read before, each of them assigned where the copy
was made, so reads stay definitely assigned (`readsFrom_rewriteAll`).
-/

namespace Monomorph

namespace Copies

variable {c : Copies} {o : Op} {ops : List Op}

/-! ## What reading through copies leaves as it is -/

theorem target?_rewrite (c : Copies) (o : Op) : (c.rewrite o).instr.target? = o.instr.target? := by
  simp [rewrite, Op.mapInstr]

theorem writes_rewrite (c : Copies) (o : Op) : (c.rewrite o).writes = o.writes := by
  rw [Op.writes, Op.writes, target?_rewrite]

theorem assigns_rewrite (c : Copies) (o : Op) : (c.rewrite o).assigns = o.assigns := by
  rw [Op.assigns, Op.assigns, writes_rewrite]

theorem isMerge_rewrite (c : Copies) (o : Op) : (c.rewrite o).instr.isMerge = o.instr.isMerge := by
  simp [rewrite, Op.mapInstr]

theorem leads_rewrite (c : Copies) (o : Op) : (c.rewrite o).leads = o.leads :=
  Op.leads_congr (by simp [rewrite, Op.mapInstr]) (by simp [rewrite, Op.mapInstr])

theorem acts_rewrite (c : Copies) (o : Op) : (c.rewrite o).instr.acts = o.instr.acts := by
  simp [rewrite, Op.mapInstr]

theorem bare_rewrite (c : Copies) (o : Op) : (c.rewrite o).bare = o.bare := by
  rw [Op.bare, Op.bare, rewrite, Op.mapInstr, ← Instr.mapSlots_map, Instr.plain_mapSlots _ (by rfl),
    Instr.map_map]

/-- Whatever is the same of an operation that reads through copies is the same of a row. -/
theorem map_rewriteAll {β : Type} (f : Op → β) (h : ∀ (c : Copies) o, f (c.rewrite o) = f o)
    (c : Copies) (ops : List Op) : (c.rewriteAll ops).map f = ops.map f := by
  induction ops generalizing c with
  | nil => rfl
  | cons o ops ih =>
    rw [rewriteAll, List.map_cons, List.map_cons, h, ih]

/-! ## One operation -/

/-- **What is copied after an operation**: what it assigns, and what was copied before by and from
registers it does not write. -/
theorem get?_after {n : String} {a : Operand} : (c.after o).get? n = some a ↔
    (∃ t, o.instr = .assign a t ∧ t.name = n) ∨
      c.get? n = some a ∧ ∀ r ∈ o.writes, n ≠ r.name ∧ a.name ≠ r.name := by
  rw [after, Op.writes]
  cases htarget : o.instr.target? with
  | none =>
    split
    case h_1 b t hi =>
      rw [hi] at htarget
      cases htarget
    case h_2 hi =>
      constructor
      · exact fun h => .inr ⟨h, by simp⟩
      · rintro (⟨t, ht, -⟩ | ⟨h, -⟩)
        · exact absurd ht (hi a t)
        · exact h
  | some r =>
    have hkept : (c.filter fun n a => n ≠ r.name && a.name ≠ r.name).get? n = some a ↔
        c.get? n = some a ∧ n ≠ r.name ∧ a.name ≠ r.name := by
      rw [Table.get?_filter, Option.filter_eq_some_iff]
      simp
    simp only [Option.toList_some, List.mem_singleton, forall_eq]
    split
    case h_1 b t hi =>
      obtain rfl : .temp t = r := by
        rw [hi] at htarget
        exact Option.some.inj htarget
      rw [Table.get?_insert, hi]
      by_cases hn : n = t.name
      · simp [hn, Register.name, eq_comm]
      · rw [if_neg hn]
        refine hkept.trans (or_iff_right ?_).symm
        rintro ⟨s, hs, rfl⟩
        exact hn (congrArg Temp.name (Instr.assign.inj hs).2.symm)
    case h_2 hi =>
      refine hkept.trans (or_iff_right ?_).symm
      rintro ⟨t, ht, -⟩
      exact hi a t ht

/-- An operand is read as it is, or as what it copies. -/
theorem operand_eq_or (c : Copies) (a : Operand) :
    c.operand a = a ∨ ∃ t, a = .ofTemp t ∧ c.get? t.name = some (c.operand a) := by
  cases a with
  | literal l => exact .inl rfl
  | register r => cases r with
    | var v => exact .inl rfl
    | temp t =>
      rw [operand]
      cases ht : c.get? t.name with
      | none => exact .inl rfl
      | some b => exact .inr ⟨t, rfl, ht⟩

/-- A temporary in a slot is read as it is, or as the temporary it copies. -/
theorem temp_eq_or (c : Copies) (t : Temp) :
    c.temp t = t ∨ c.get? t.name = some (.ofTemp (c.temp t)) := by
  rw [temp]
  split
  · exact .inr ‹_›
  · exact .inl rfl

/-- What a copy made through copies is made of. -/
theorem instr_rewrite_eq_assign {b : Operand} {t : Temp} : (c.rewrite o).instr = .assign b t ↔
    ∃ a, o.instr = .assign a t ∧ c.operand a = b := by
  rw [rewrite, Op.mapInstr]
  cases o.instr <;> simp [Instr.map, Instr.mapSlots, and_comm]

/-- **What is read through copies**: what stands for an operand, or for a register in a slot. -/
theorem mem_reads_rewrite {r : Register} : r ∈ (c.rewrite o).reads ↔
    (∃ a ∈ o.instr.operands, c.operand a = .register r) ∨
      ∃ x ∈ o.instr.slots, x.rename { temp := c.temp } = r := by
  rw [Op.reads, rewrite, Op.mapInstr, Instr.operands_mapSlots, Instr.operands_map,
    Instr.slots_mapSlots, Instr.slots_map, List.mem_append, List.filterMap_map,
    List.mem_filterMap, List.mem_map]
  refine or_congr_left (exists_congr fun a => and_congr_right fun _ => ?_)
  rw [Function.comp_apply]
  cases c.operand a <;> simp [Operand.register?]

/-! ## Part of a row -/

/-- The copies there are after a row that reads through them. -/
def through (c : Copies) : List Op → Copies
  | [] => c
  | o :: ops => (c.after (c.rewrite o)).through ops

theorem through_append (c : Copies) (l r : List Op) :
    c.through (l ++ r) = (c.through l).through r := by
  induction l generalizing c with
  | nil => rfl
  | cons o l ih => exact ih _

/-- **A row goes on reading through the copies made by its beginning.** -/
theorem rewriteAll_append (c : Copies) (l r : List Op) :
    c.rewriteAll (l ++ r) = c.rewriteAll l ++ (c.through l).rewriteAll r := by
  induction l generalizing c with
  | nil => rfl
  | cons o l ih =>
    rw [List.cons_append, rewriteAll, rewriteAll, ih]
    rfl

theorem take_rewriteAll (c : Copies) (ops : List Op) (n : Nat) :
    (c.rewriteAll ops).take n = c.rewriteAll (ops.take n) := by
  induction ops generalizing c n with
  | nil => rw [rewriteAll, List.take_nil, rewriteAll]
  | cons o ops ih => cases n with
    | zero => rfl
    | succ n => rw [rewriteAll, List.take_succ_cons, List.take_succ_cons, rewriteAll, ih]

/-- **Each operation reads through the copies made before it.** -/
theorem getElem?_rewriteAll (c : Copies) (ops : List Op) (n : Nat) :
    (c.rewriteAll ops)[n]? = ops[n]?.map (c.through (ops.take n)).rewrite := by
  induction ops generalizing c n with
  | nil => rfl
  | cons o ops ih => cases n with
    | zero => rfl
    | succ n =>
      rw [rewriteAll, List.getElem?_cons_succ, List.getElem?_cons_succ, ih]
      rfl

/-- A point of a row that reads through copies is a point of the row. -/
theorem rewriteAll_eq_split {ops earlier' later' : List Op} {o' : Op}
    (h : c.rewriteAll ops = earlier' ++ o' :: later') : ∃ earlier o later,
      ops = earlier ++ o :: later ∧ earlier' = c.rewriteAll earlier ∧
        o' = (c.through earlier).rewrite o := by
  induction ops generalizing c earlier' with
  | nil => simp [rewriteAll] at h
  | cons x ops ih => cases earlier' with
    | nil =>
      obtain ⟨rfl, -⟩ := List.cons.inj h
      exact ⟨[], x, ops, rfl, rfl, rfl⟩
    | cons y earlier' =>
      obtain ⟨rfl, hrest⟩ := List.cons.inj h
      obtain ⟨earlier, o, later, rfl, rfl, rfl⟩ := ih hrest
      exact ⟨x :: earlier, o, later, rfl, rfl, rfl⟩

/-! ## Copies hold what they copy -/

/-- Every copy holds what it copies. -/
def Valid {V : Type} (m : Meaning V) (c : Copies) (σ : Store V) : Prop :=
  ∀ n a, c.get? n = some a → σ n = m.value σ a

section Valid

variable {V : Type} {m : Meaning V} {σ : Store V}

theorem Valid.value_operand (h : c.Valid m σ) (a : Operand) :
    m.value σ (c.operand a) = m.value σ a := by
  rcases c.operand_eq_or a with heq | ⟨t, rfl, ht⟩
  · rw [heq]
  · exact (h t.name _ ht).symm

theorem Valid.name_temp (h : c.Valid m σ) (t : Temp) : σ (c.temp t).name = σ t.name := by
  rcases c.temp_eq_or t with heq | ht
  · rw [heq]
  · exact (h t.name _ ht).symm

theorem Valid.name_slot (h : c.Valid m σ) (r : Register) :
    σ (r.rename { temp := c.temp }).name = σ r.name := by
  cases r with
  | var v => rfl
  | temp t => exact h.name_temp t

/-- **Reading a copy is the same event.** -/
theorem Valid.event_rewrite (h : c.Valid m σ) (o : Op) :
    m.event σ (c.rewrite o) = m.event σ o := by
  have hinstr : ((c.rewrite o).instr.map (m.value σ)).plain = (o.instr.map (m.value σ)).plain := by
    rw [rewrite, Op.mapInstr, ← Instr.mapSlots_map, Instr.plain_mapSlots _ (by rfl),
      Instr.map_map]
    simp only [h.value_operand]
  have hslots : ((c.rewrite o).instr.slots.map fun r => σ r.name)
      = o.instr.slots.map fun r => σ r.name := by
    rw [rewrite, Op.mapInstr, Instr.slots_mapSlots, Instr.slots_map, List.map_map]
    exact List.map_congr_left fun r _ => h.name_slot r
  rw [Meaning.event, Meaning.event, hinstr, hslots]
  rfl

theorem Valid.step_rewrite (h : c.Valid m σ) (ho : o.instr.isMerge = false)
    (origin : Option String) (past : List (Event V)) :
    m.step origin ⟨σ, past⟩ (c.rewrite o) = m.step origin ⟨σ, past⟩ o := by
  rw [m.step_event ((isMerge_rewrite c o).trans ho), m.step_event ho, target?_rewrite,
    h.event_rewrite]

/-- A write elsewhere does not change an operand. -/
theorem value_update {a : Operand} {n : String} (h : a.name ≠ n) (x : V) :
    m.value (Function.update σ n x) a = m.value σ a := by
  cases a with
  | literal l => rfl
  | register r => exact Function.update_of_ne h _ _

/-- What has just been assigned an operand holds it, also if the operand is the register itself. -/
theorem value_update_value (a : Operand) (n : String) :
    m.value (Function.update σ n (m.value σ a)) a = m.value σ a := by
  by_cases h : a.name = n
  · subst h
    cases a with
    | literal l => rfl
    | register r => exact Function.update_self ..
  · exact value_update h _

/-- **After an operation the copies that are left hold what they copy.** -/
theorem Valid.after (hm : m.Assigning) (h : c.Valid m σ) (ho : o.instr.isMerge = false)
    (origin : Option String) (past : List (Event V)) :
    (c.after o).Valid m (m.step origin ⟨σ, past⟩ o).store := by
  intro n a hn
  rw [m.step_event ho]
  rcases get?_after.mp hn with ⟨t, hi, rfl⟩ | ⟨hc, hkept⟩
  · have hgives : m.gives past (m.event σ o) = m.value σ a := by
      refine hm _ _ _ (Renaming.first.temp t) ?_
      rw [Meaning.event, hi]
      rfl
    rw [hi, hgives]
    exact (Function.update_self ..).trans (value_update_value a t.name).symm
  · rw [Op.writes] at hkept
    cases htarget : o.instr.target? with
    | none => exact h n a hc
    | some r =>
      obtain ⟨hne, hane⟩ := hkept r (by simp [htarget])
      exact (Function.update_of_ne hne _ _).trans ((h n a hc).trans (value_update hane _).symm)

/-- The step is the one before the rewriting, and the copies left hold what they copy. -/
theorem Valid.next (hm : m.Assigning) {s : Running V} (h : c.Valid m s.store)
    (ho : o.instr.isMerge = false) (origin : Option String) :
    m.step origin s (c.rewrite o) = m.step origin s o ∧
      (c.after (c.rewrite o)).Valid m (m.step origin s o).store := by
  have hstep : m.step origin s (c.rewrite o) = m.step origin s o := h.step_rewrite ho _ _
  refine ⟨hstep, ?_⟩
  rw [← hstep]
  exact h.after hm ((isMerge_rewrite c o).trans ho) origin s.past

/-- **A row that reads through copies runs as it did.** -/
theorem steps_rewriteAll (hm : m.Assigning) (hops : ∀ o ∈ ops, o.instr.isMerge = false)
    {origin : Option String} {s : Running V} (h : c.Valid m s.store) :
    m.steps origin s (c.rewriteAll ops) = m.steps origin s ops := by
  induction ops generalizing c s with
  | nil => rfl
  | cons o ops ih =>
    obtain ⟨hstep, hnext⟩ := h.next hm (hops o (by simp)) origin
    rw [rewriteAll, m.steps_cons, m.steps_cons, hstep]
    exact ih (fun x hx => hops x (List.mem_cons_of_mem _ hx)) hnext

/-- **Along a row copies go on holding what they copy.** -/
theorem Valid.through (hm : m.Assigning) (hops : ∀ o ∈ ops, o.instr.isMerge = false)
    {origin : Option String} {s : Running V} (h : c.Valid m s.store) :
    (c.through ops).Valid m (m.steps origin s ops).store := by
  induction ops generalizing c s with
  | nil => exact h
  | cons o ops ih =>
    obtain ⟨-, hnext⟩ := h.next hm (hops o (by simp)) origin
    exact ih (fun x hx => hops x (List.mem_cons_of_mem _ hx)) hnext

end Valid

/-! ## Registers read -/

/-- Every register that is copied satisfies `p`. -/
def Within (p : Register → Prop) (c : Copies) : Prop :=
  ∀ n r, c.get? n = some (.register r) → p r

variable {p : Register → Prop}

/-- **What reads through copies** reads what it read, or what is copied. -/
theorem Within.of_mem_reads (h : c.Within p) (ho : ∀ r ∈ o.reads, p r) :
    ∀ r ∈ (c.rewrite o).reads, p r := by
  intro r hr
  rcases mem_reads_rewrite.mp hr with ⟨a, ha, hr⟩ | ⟨x, hx, rfl⟩
  · rcases c.operand_eq_or a with heq | ⟨t, -, ht⟩
    · exact ho r (Op.mem_reads_of_operand (heq.symm.trans hr ▸ ha))
    · exact h t.name r (hr ▸ ht)
  · have hx' : p x := ho x (List.mem_append_right _ hx)
    cases x with
    | var v => exact hx'
    | temp t =>
      rcases c.temp_eq_or t with heq | ht
      · change p (.temp (c.temp t))
        rwa [heq]
      · exact h t.name _ ht

/-- What is copied after an operation was copied before it, or is read by it. -/
theorem Within.after (h : c.Within p) (ho : ∀ r ∈ o.reads, p r) : (c.after o).Within p := by
  intro n r hr
  rcases get?_after.mp hr with ⟨t, hi, -⟩ | ⟨hc, -⟩
  · exact ho r (Op.mem_reads_of_operand (by rw [hi]; exact List.mem_cons_self))
  · exact h n r hc

/-- A row that reads through copies reads what it read, or what is copied. -/
theorem Within.rewriteAll (h : c.Within p) (ho : ∀ o ∈ ops, ∀ r ∈ o.reads, p r) :
    ∀ o ∈ c.rewriteAll ops, ∀ r ∈ o.reads, p r := by
  induction ops generalizing c with
  | nil => exact fun o ho => absurd ho (by simp [Copies.rewriteAll])
  | cons x ops ih =>
    have hx := h.of_mem_reads (ho x (by simp))
    rw [Copies.rewriteAll]
    exact List.forall_mem_cons.mpr ⟨hx, ih (h.after hx) fun o hmem =>
      ho o (List.mem_cons_of_mem _ hmem)⟩

/-- **Reads stay assigned**: what is copied was read where the copy was made. -/
theorem readsFrom_rewriteAll {known : String → Prop} (h : c.Within fun r => known r.base)
    (ho : ReadsFrom known ops) : ReadsFrom known (c.rewriteAll ops) := by
  induction ops generalizing c known with
  | nil => trivial
  | cons x ops ih =>
    obtain ⟨hx, hops⟩ := ho
    have hx' : ∀ r ∈ (c.rewrite x).reads, known r.base :=
      h.of_mem_reads (p := fun r => known r.base) hx
    rw [rewriteAll, ReadsFrom, assigns_rewrite]
    exact ⟨hx', ih (fun n r hr => .inl (h.after hx' n r hr)) hops⟩

end Copies

namespace Blocks

variable {bs : Blocks} {params : List String}

theorem opsAt_readThroughCopies (bs : Blocks) (l : String) :
    bs.readThroughCopies.opsAt l = Copies.rewriteAll ∅ (bs.opsAt l) :=
  opsAt_mapOps rfl l

/-- Whatever is the same of an operation that reads through copies is the same of a body. -/
theorem map_opsAt_readThroughCopies {β : Type} (bs : Blocks) (f : Op → β)
    (h : ∀ (c : Copies) o, f (c.rewrite o) = f o) (l : String) :
    (bs.readThroughCopies.opsAt l).map f = (bs.opsAt l).map f := by
  rw [opsAt_readThroughCopies, Copies.map_rewriteAll f h]

theorem assignedAt_readThroughCopies (bs : Blocks) (l : String) :
    bs.readThroughCopies.assignedAt l = bs.assignedAt l := by
  rw [assignedAt, assignedAt, List.flatMap_def, List.flatMap_def,
    bs.map_opsAt_readThroughCopies _ Copies.assigns_rewrite]

theorem sameGraph_readThroughCopies (bs : Blocks) : SameGraph bs bs.readThroughCopies := by
  refine sameGraph_mapOps fun l b _ => ?_
  rw [Block.ending, Block.ending, Copies.map_rewriteAll _ Copies.leads_rewrite]

theorem sketch_readThroughCopies (h : ∀ o ∈ bs.allOps, o.instr.isMerge = false) (l : String) :
    bs.readThroughCopies.sketch l = bs.sketch l := by
  have hall : ∀ {l : String}, ∀ o ∈ bs.opsAt l, (!o.instr.isMerge) = true := fun o ho => by
    rw [h o (mem_allOps_of_opsAt ho)]
    rfl
  have hmerge := bs.map_opsAt_readThroughCopies (fun o => o.instr.isMerge) Copies.isMerge_rewrite l
  have hall' : ∀ o ∈ bs.readThroughCopies.opsAt l, (!o.instr.isMerge) = true := by
    intro o ho
    obtain ⟨x, hx, he⟩ := List.mem_map.mp (hmerge ▸ List.mem_map_of_mem ho)
    rw [← he]
    exact hall x hx
  rw [sketch, sketch, List.filter_eq_self.mpr hall', List.filter_eq_self.mpr hall,
    bs.map_opsAt_readThroughCopies _ Copies.bare_rewrite]

/-- Reading through copies, no other registers are used. -/
theorem uses_of_readThroughCopies {r : Register} (h : bs.readThroughCopies.Uses r) : bs.Uses r := by
  obtain ⟨o, ho, hr⟩ := h
  obtain ⟨l, b, hb, ho⟩ := mem_allOps_mapOps.mp ho
  have huse : ∀ x ∈ b.ops, ∀ y ∈ x.reads ++ x.writes, bs.Uses y :=
    fun x hx y hy => ⟨x, mem_allOps.mpr ⟨l, b, hb, hx⟩, hy⟩
  rcases List.mem_append.mp hr with hr | hr
  · have hnone : Copies.Within bs.Uses ∅ := fun n r hr => by cases hr
    exact hnone.rewriteAll (fun x hx y hy => huse x hx y (List.mem_append_left _ hy)) o ho r hr
  · have hwrites := Copies.map_rewriteAll _ Copies.writes_rewrite ∅ b.ops
    obtain ⟨x, hx, he⟩ := List.mem_map.mp (hwrites ▸ List.mem_map_of_mem ho)
    exact huse x hx r (List.mem_append_right _ (he ▸ hr))

theorem noMerge_readThroughCopies (h : ∀ o ∈ bs.allOps, o.instr.isMerge = false) :
    ∀ o ∈ bs.readThroughCopies.allOps, o.instr.isMerge = false := by
  intro o ho
  obtain ⟨l, b, hb, ho⟩ := mem_allOps_mapOps.mp ho
  have hmerge := Copies.map_rewriteAll (fun o => o.instr.isMerge) Copies.isMerge_rewrite ∅ b.ops
  obtain ⟨x, hx, he⟩ := List.mem_map.mp (hmerge ▸ List.mem_map_of_mem ho)
  rw [← he]
  exact h x (mem_allOps.mpr ⟨l, b, hb, hx⟩)

theorem definitelyAssigned_readThroughCopies (h : bs.DefinitelyAssigned params) :
    bs.readThroughCopies.DefinitelyAssigned params := by
  rw [definitelyAssigned_iff] at h ⊢
  intro l hl
  have hcertain : ∀ n, bs.readThroughCopies.CertainAt params l n ↔ bs.CertainAt params l n :=
    fun n => bs.sameGraph_readThroughCopies.certainAt
      (fun l => by rw [assignedAt_readThroughCopies]) l
  have hl' := h l (bs.sameGraph_readThroughCopies.reachable.mp hl)
  rw [ReadsCertain, opsAt_readThroughCopies]
  simp only [funext fun n => propext (hcertain n)]
  exact Copies.readsFrom_rewriteAll (fun n r hr => by cases hr) hl'

/-- **Reading through copies does its work.** -/
theorem lowersTo_readThroughCopies (h : bs.Lowerable params) (hs : bs.Settled) :
    LowersTo params bs bs.readThroughCopies where
  lowerable := h.of_uses bs.sameGraph_readThroughCopies (fun _ => uses_of_readThroughCopies)
    (noMerge_readThroughCopies h.noMerge) (definitelyAssigned_readThroughCopies h.assigned)
  settled l b' hb' := by
    rw [readThroughCopies, get?_mapOps, Option.map_eq_some_iff] at hb'
    obtain ⟨b, hb, rfl⟩ := hb'
    refine (hs l b hb).congr (Copies.map_rewriteAll _ (fun c o => ?_) ∅ b.ops)
    rw [Copies.leads_rewrite, Copies.acts_rewrite]
  graph := bs.sameGraph_readThroughCopies
  trims := by
    refine ⟨fun l => ?_, fun l => ?_⟩ <;> rw [sketch_readThroughCopies h.noMerge]
  follows m hm s := by
    have halong : ∀ way origin s,
        m.along bs.readThroughCopies origin s way = m.along bs origin s way := by
      intro way
      induction way with
      | nil => exact fun _ _ => rfl
      | cons l way ih =>
        intro origin s
        have hvalid : Copies.Valid m ∅ s.store := fun n a ha => by cases ha
        rw [Meaning.along, Meaning.along, opsAt_readThroughCopies,
          Copies.steps_rewriteAll hm.assigning (fun o ho => h.noMerge o (mem_allOps_of_opsAt ho))
            hvalid, ih]
    exact ⟨bs.sameGraph_readThroughCopies, rfl, fun before l _ => by rw [halong]⟩

end Blocks

end Monomorph
