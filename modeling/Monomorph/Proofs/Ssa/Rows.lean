import Monomorph.Proofs.Graph.Shape
import Monomorph.Proofs.Ssa.Names

/-!
# Ssa/Rows — a row of operations under the versions that reach it

Reads first, then the definition: an operation reads the version of each base that reaches it and
hands on a new version of the base it writes (`Turns`).  Which number the new version bears does not
matter to the row, so a converted row is described without the naming that made it
(`Naming.ops_spec`).  Where each version holds what the original name holds, **the converted
operation is the same event** (`event_rewrite`).
-/

namespace Monomorph

/-- An operation before conversion: no merge, and every register under its base name. -/
structure Op.Raw (known : String → Prop) (o : Op) : Prop where
  noMerge : o.instr.isMerge = false
  unversioned : ∀ r ∈ o.reads ++ o.writes, r.name = r.base
  known : ∀ r ∈ o.reads ++ o.writes, known r.base

/-- The same operation, writing under another version's name. -/
def Op.named (n : String) (o : Op) : Op :=
  o.mapInstr (·.mapTarget (.byName fun _ => n))

namespace Versions

/-- Every version is one of the base it stands for. -/
def Sound (known : String → Prop) (v : Versions) : Prop :=
  ∀ b w, v.get? b = some w → known b ∧ w.base = b ∧ Versioned b w.name

/-- One operation, and the versions before and after it. -/
inductive Turns (v : Versions) (o : Op) : Op → Versions → Prop
  | quiet (ht : o.instr.target? = none) : Turns v o (v.rewrite o) v
  | define {r : Register} {n : String} (ht : o.instr.target? = some r) (hv : Versioned r.base n) :
      Turns v o ((v.rewrite o).named n) (v.insert r.base (r.withName n))

/-- A row of operations, and the versions before and after it. -/
inductive Row : Versions → List Op → List Op → Versions → Prop
  | nil (v : Versions) : Row v [] [] v
  | cons {v u v' : Versions} {o o' : Op} {ops ops' : List Op} (h : Turns v o o' u)
      (hr : Row u ops ops' v') : Row v (o :: ops) (o' :: ops') v'

variable {known : String → Prop} {v u : Versions} {o o' : Op}

/-! ## Reading versions -/

theorem nameOf_of_get? {r w : Register} (h : v.get? r.base = some w) : v.nameOf r = w.name := by
  rw [nameOf, h]

theorem nameOf_of_none {r : Register} (h : v.get? r.base = none) : v.nameOf r = r.name := by
  rw [nameOf, h]

theorem operand_register (r : Register) :
    ∃ w, v.operand (.register r) = .register w ∧ w.name = v.nameOf r := by
  rw [operand, nameOf]
  cases v.get? r.base with
  | none => exact ⟨r, rfl, rfl⟩
  | some w =>
    by_cases h : w.name = r.name
    · exact ⟨r, if_pos h, h.symm⟩
    · exact ⟨w, if_neg h, rfl⟩

theorem target?_rewrite (v : Versions) (o : Op) :
    (v.rewrite o).instr.target? = o.instr.target? := by
  rw [rewrite, Op.mapInstr, Instr.target?_mapSlots, Instr.target?_map]

/-- **The names read** are those of the versions that reach the operation. -/
theorem names_reads_rewrite (v : Versions) (o : Op) :
    (v.rewrite o).reads.map Register.name = o.reads.map v.nameOf := by
  have operands : ∀ l : List Operand, ((l.map v.operand).filterMap Operand.register?).map
      Register.name = (l.filterMap Operand.register?).map v.nameOf := by
    intro l
    induction l with
    | nil => rfl
    | cons a l ih =>
      cases a with
      | register r =>
        obtain ⟨w, hw, hn⟩ := v.operand_register r
        rw [List.map_cons, hw, List.filterMap_cons_some (by rfl),
          List.filterMap_cons_some (by rfl), List.map_cons, List.map_cons, ih, hn]
      | literal c => exact ih
  have slots : (o.instr.slots.map (Register.rename (.byName v.nameOf))).map Register.name
      = o.instr.slots.map v.nameOf := by
    rw [List.map_map]
    exact List.map_congr_left fun r _ => Register.name_rename_byName _ r
  rw [rewrite, Op.mapInstr, Op.reads, Op.reads, Instr.operands_mapSlots, Instr.operands_map,
    Instr.slots_mapSlots, Instr.slots_map, List.map_append, List.map_append, operands, slots]

/-- **Reading the right versions is the same event.** -/
theorem event_rewrite {V : Type} (m : Meaning V) {σ σ' : Store V}
    (h : ∀ r ∈ o.reads, σ' (v.nameOf r) = σ r.name) :
    m.event σ' (v.rewrite o) = m.event σ o := by
  have hinstr : ((v.rewrite o).instr.map (m.value σ')).plain
      = (o.instr.map (m.value σ)).plain := by
    rw [rewrite, Op.mapInstr, ← Instr.mapSlots_map, Instr.plain_mapSlots _ (by rfl),
      Instr.map_map]
    refine congrArg Instr.plain (Instr.map_congr fun a ha => ?_)
    cases a with
    | register r =>
      obtain ⟨w, hw, hn⟩ := v.operand_register r
      rw [hw]
      exact (congrArg σ' hn).trans (h r (Op.mem_reads_of_operand ha))
    | literal c => rfl
  have hslots : ((v.rewrite o).instr.slots.map fun r => σ' r.name)
      = o.instr.slots.map fun r => σ r.name := by
    rw [rewrite, Op.mapInstr, Instr.slots_mapSlots, Instr.slots_map, List.map_map]
    refine List.map_congr_left fun r hr => ?_
    rw [Function.comp_apply, Register.name_rename_byName]
    exact h r (List.mem_append_right _ hr)
  rw [Meaning.event, Meaning.event, hinstr, hslots]
  rfl

end Versions

theorem Op.event_named {V : Type} (m : Meaning V) (σ : Store V) (n : String) (o : Op) :
    m.event σ (o.named n) = m.event σ o := by
  rw [Meaning.event, Meaning.event, Op.named, Op.mapInstr, ← Instr.mapTarget_map,
    Instr.plain_mapTarget _ (by rfl), Instr.slots_mapTarget]

theorem Op.reads_named (n : String) (o : Op) : (o.named n).reads = o.reads := by
  rw [Op.named, Op.mapInstr, Op.reads, Op.reads, Instr.operands_mapTarget, Instr.slots_mapTarget]

theorem Op.target?_named (n : String) (o : Op) :
    (o.named n).instr.target? = o.instr.target?.map (Register.rename (.byName fun _ => n)) :=
  Instr.target?_mapTarget _ _

/-! ## What naming makes of an operation -/

namespace Versions

variable {known : String → Prop} {v u : Versions} {o o' : Op}

/-- A converted operation reads the versions before it. -/
theorem Turns.names_reads (h : Turns v o o' u) :
    o'.reads.map Register.name = o.reads.map v.nameOf := by
  cases h with
  | quiet => exact names_reads_rewrite v o
  | define => rw [Op.reads_named]; exact names_reads_rewrite v o

theorem Turns.isMerge (h : Turns v o o' u) : o'.instr.isMerge = o.instr.isMerge := by
  cases h <;> simp [rewrite, Op.named, Op.mapInstr]

theorem Turns.leads (h : Turns v o o' u) : o'.leads = o.leads := by
  cases h <;> exact Op.leads_congr (by simp [rewrite, Op.named, Op.mapInstr])
    (by simp [rewrite, Op.named, Op.mapInstr])

/-- The base written is the one that has a new version, and that is the register written. -/
theorem Turns.writes (h : Turns v o o' u) :
    (o.writes = [] ∧ o'.writes = [] ∧ u = v) ∨ ∃ r w, o.writes = [r] ∧ o'.writes = [w] ∧
      w.base = r.base ∧ Versioned r.base w.name ∧ u = v.insert r.base w := by
  cases h with
  | quiet ht =>
    left
    rw [Op.writes, Op.writes, target?_rewrite, ht]
    exact ⟨rfl, rfl, rfl⟩
  | @define r n ht hv =>
    right
    refine ⟨r, r.withName n, ?_, ?_, Register.base_withName n r, ?_, rfl⟩
    · rw [Op.writes, ht]
      rfl
    · rw [Op.writes, Op.target?_named, target?_rewrite, ht, Option.map_some,
        Register.rename_byName_const]
      rfl
    · rwa [Register.name_withName]

theorem Turns.sound (hv : v.Sound known) (ho : o.Raw known) (h : Turns v o o' u) :
    u.Sound known := by
  cases h with
  | quiet => exact hv
  | @define r n ht hn =>
    intro b x hx
    rw [Table.get?_insert] at hx
    split at hx
    · subst_vars
      obtain rfl := Option.some.inj hx
      have hr : r ∈ o.reads ++ o.writes := List.mem_append_right _ (by simp [Op.writes, ht])
      exact ⟨ho.known r hr, Register.base_withName n r, by rwa [Register.name_withName]⟩
    · exact hv b x hx

/-- After an operation the base it assigns has a version, besides those that had one. -/
theorem Turns.contains (h : Turns v o o' u) (n : String) :
    u.contains n = true ↔ v.contains n = true ∨ n ∈ o.assigns := by
  cases h with
  | quiet ht => simp [Op.assigns, Op.writes, ht]
  | define ht => simp [Op.assigns, Op.writes, ht, Table.contains_insert, or_comm]

end Versions

namespace Naming

open Versions

variable {known : String → Prop}

theorem op_of_none (s : Naming) (v : Versions) {o : Op} (h : o.instr.target? = none) :
    s.op v o = (v.rewrite o, { s with changed := s.changed || v.stale o }, v) := by
  rw [op, v.target?_rewrite, h]

theorem op_of_some (s : Naming) (v : Versions) {o : Op} {r : Register}
    (h : o.instr.target? = some r) {d : Register × Naming}
    (hd : define { s with changed := s.changed || v.stale o } r = d) :
    s.op v o = ((v.rewrite o).named d.1.name, d.2, v.insert r.base d.1) := by
  rw [op, v.target?_rewrite, h, ← hd]
  rfl

/-- **One operation**: it turns into one that reads the versions before it, and the names it writes
are given out. -/
theorem op_spec (s : Naming) (v : Versions) {o : Op} (ho : o.Raw known) :
    Turns v o (s.op v o).1 (s.op v o).2.2 ∧
      Issues known s ((s.op v o).1.writes.map Register.name) (s.op v o).2.1 := by
  have hrw := v.target?_rewrite o
  cases ht : o.instr.target? with
  | none =>
    rw [s.op_of_none v ht]
    refine ⟨.quiet ht, ?_⟩
    rw [show (v.rewrite o).writes = [] by rw [Op.writes, hrw, ht]; rfl]
    exact .flag _ (.done _)
  | some r =>
    have hr : r ∈ o.reads ++ o.writes := List.mem_append_right _ (by simp [Op.writes, ht])
    obtain ⟨hi, hnamed, hv⟩ := define_spec { s with changed := s.changed || v.stale o }
      (ho.unversioned r hr) (ho.known r hr)
    set d := define { s with changed := s.changed || v.stale o } r with hd
    have hw : ((v.rewrite o).named d.1.name).writes.map Register.name = [d.1.name] := by
      rw [Op.writes, Op.target?_named, hrw, ht]
      exact congrArg (fun n => [n]) (Register.name_rename_byName _ r)
    have hturns : Turns v o ((v.rewrite o).named d.1.name) (v.insert r.base d.1) := by
      have := Turns.define (v := v) ht hv
      rwa [← hnamed] at this
    rw [s.op_of_some v ht hd.symm]
    refine ⟨hturns, ?_⟩
    rw [hw]
    exact .flag _ hi

/-- **A row of operations**, each under the versions the ones before hand on. -/
theorem ops_spec (s : Naming) (v : Versions) {ops : List Op} (h : ∀ o ∈ ops, o.Raw known) :
    Row v ops (s.ops v ops).1 (s.ops v ops).2.2 ∧
      Issues known s (((s.ops v ops).1.flatMap Op.writes).map Register.name)
        (s.ops v ops).2.1 := by
  induction ops generalizing s v with
  | nil => exact ⟨.nil v, .done s⟩
  | cons o ops ih =>
    obtain ⟨ht, hi⟩ := op_spec s v (h o (by simp))
    obtain ⟨hr, hi'⟩ := ih (s.op v o).2.1 (s.op v o).2.2 fun x hx => h x (by simp [hx])
    rw [Naming.ops]
    refine ⟨.cons ht hr, ?_⟩
    rw [List.flatMap_cons, List.map_append]
    exact hi.append hi'

end Naming

/-! ## What a row does to its versions -/

namespace Versions

variable {known : String → Prop} {v v' : Versions} {ops ops' : List Op}

theorem Row.sound (hv : v.Sound known) (ho : ∀ o ∈ ops, o.Raw known) (h : Row v ops ops' v') :
    v'.Sound known := by
  induction h with
  | nil => exact hv
  | cons ht _ ih =>
    exact ih (ht.sound hv (ho _ (by simp))) fun x hx => ho x (List.mem_cons_of_mem _ hx)

/-- The bases with a version at the end: those at the start, and those assigned. -/
theorem Row.contains (h : Row v ops ops' v') (n : String) :
    v'.contains n = true ↔ v.contains n = true ∨ n ∈ ops.flatMap Op.assigns := by
  induction h with
  | nil => simp
  | cons ht _ ih => rw [ih, ht.contains, List.flatMap_cons, List.mem_append, or_assoc]

theorem Row.map_leads (h : Row v ops ops' v') : ops'.map Op.leads = ops.map Op.leads := by
  induction h with
  | nil => rfl
  | cons ht _ ih => rw [List.map_cons, List.map_cons, ht.leads, ih]

theorem Row.noMerge (ho : ∀ o ∈ ops, o.instr.isMerge = false) (h : Row v ops ops' v') :
    ∀ o ∈ ops', o.instr.isMerge = false := by
  induction h with
  | nil => simp
  | cons ht _ ih =>
    refine List.forall_mem_cons.mpr ⟨?_, ih fun x hx => ho x (List.mem_cons_of_mem _ hx)⟩
    exact ht.isMerge.trans (ho _ (by simp))

end Versions

end Monomorph
