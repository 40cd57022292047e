import Monomorph.Proofs.Op.Views
import Monomorph.Proofs.Wire.Op

/-!
# Op/Registers — the views of an operation miss no register

The views are one table of the 57 instructions, and what an operation is written as is another: its
name, its position and all its fields.  So the second is the measure of the first.  **The registers
that an operation reads and the one it writes are, in order, those found in what is written of it**
(`registers_ofOp`) — operand lists, pairs and merges included, each as often as it stands there.
Each view is also what the change made through it visits, told by what is written once all registers
it visits bear one name and once they bear another (`Op.visited`).
Renaming over the three views leaves everything else as it was: with a hole in place of every
register, **what is written of an operation is the same under any renaming** (`blotted_rename`).
-/

namespace Monomorph

/-- An operand under a renaming; literals have no name to change. -/
def Operand.rename (r : Renaming) : Operand → Operand
  | .register x => .register (x.rename r)
  | .literal l => .literal l

@[simp] theorem Operand.register?_rename (r : Renaming) (a : Operand) :
    (a.rename r).register? = a.register?.map (Register.rename r) := by
  cases a <;> rfl

/-- The registers among renamed operands are the registers renamed. -/
theorem Operand.filterMap_rename (r : Renaming) (as : List Operand) :
    (as.map (rename r)).filterMap register? = (as.filterMap register?).map (Register.rename r) := by
  rw [List.filterMap_map, List.map_filterMap]
  exact List.filterMap_congr fun a _ => register?_rename r a

/-! ## Registers in what is written -/

namespace Json

mutual

/-- The registers in a value: every record that is read as one, wherever it stands. -/
def registers : Json → List Register
  | .array items => registersOfItems items
  | .object members =>
      match Wire.register true (.object members) with
      | .ok r => [r]
      | .error _ => registersOfMembers members
  | _ => []

def registersOfItems : List Json → List Register
  | [] => []
  | j :: r => j.registers ++ registersOfItems r

def registersOfMembers : List (String × Json) → List Register
  | [] => []
  | (_, j) :: r => j.registers ++ registersOfMembers r

end

mutual

/-- The value with a hole in place of every register. -/
def blotted : Json → Json
  | .array items => .array (blottedItems items)
  | .object members =>
      match Wire.register true (.object members) with
      | .ok _ => .unreadable
      | .error _ => .object (blottedMembers members)
  | j => j

def blottedItems : List Json → List Json
  | [] => []
  | j :: r => j.blotted :: blottedItems r

def blottedMembers : List (String × Json) → List (String × Json)
  | [] => []
  | (k, j) :: r => (k, j.blotted) :: blottedMembers r

end

theorem registersOfItems_eq (l : List Json) : registersOfItems l = l.flatMap registers := by
  induction l with
  | nil => rfl
  | cons j l ih => rw [registersOfItems, ih, List.flatMap_cons]

theorem registersOfMembers_eq (es : List (String × Json)) :
    registersOfMembers es = es.flatMap fun e => e.2.registers := by
  induction es with
  | nil => rfl
  | cons e es ih => rw [registersOfMembers, ih, List.flatMap_cons]

theorem blottedItems_eq (l : List Json) : blottedItems l = l.map blotted := by
  induction l with
  | nil => rfl
  | cons j l ih => rw [blottedItems, ih, List.map_cons]

theorem blottedMembers_eq (es : List (String × Json)) :
    blottedMembers es = es.map fun e => (e.1, e.2.blotted) := by
  induction es with
  | nil => rfl
  | cons e es ih => rw [blottedMembers, ih, List.map_cons]

/-! ### A record that is no register -/

/-- The registers of a record that is none itself are those of its members. -/
theorem registers_object {es : List (String × Json)} {w : Wire.Refusal}
    (h : Wire.register true (.object es) = .error w) :
    (Json.object es).registers = es.flatMap fun e => e.2.registers := by
  rw [registers, h, ← registersOfMembers_eq]

theorem blotted_object {es : List (String × Json)} {w : Wire.Refusal}
    (h : Wire.register true (.object es) = .error w) :
    (Json.object es).blotted = .object (es.map fun e => (e.1, e.2.blotted)) := by
  rw [blotted, h, ← blottedMembers_eq]

@[simp] theorem registers_array (l : List Json) :
    (Json.array l).registers = l.flatMap registers := by
  rw [registers, registersOfItems_eq]

@[simp] theorem blotted_array (l : List Json) :
    (Json.array l).blotted = .array (l.map blotted) := by
  rw [blotted, blottedItems_eq]

@[simp] theorem registers_text (s : String) : (Json.text s).registers = [] :=
  rfl

@[simp] theorem registers_bool (b : Bool) : (Json.bool b).registers = [] :=
  rfl

@[simp] theorem registers_ofNat (n : Nat) : (Json.ofNat n).registers = [] :=
  rfl

@[simp] theorem registers_texts (l : List String) : (Json.texts l).registers = [] := by
  simp [texts]

@[simp] theorem registers_nullable (s : Option String) :
    (Json.nullable Json.text s).registers = [] := by
  cases s <;> simp [nullable, registers]

end Json

namespace Wire

theorem register_ofRegister (r : Register) : register true (ofRegister r) = .ok r :=
  register_rearranged Json.rearranges_id r true

/-- A record none of whose tags names a kind of register is no register. -/
theorem register_eq_error {es : List (String × Json)}
    (h : ∀ e ∈ es, e.1 = "tag" → ∃ w, choice true ["temp", "var"] e.2 = .error w) :
    ∃ w, register true (.object es) = .error w := by
  rw [register, tagged, if_pos rfl, variantOf]
  split
  · next t hone =>
    obtain ⟨hmem, htag⟩ := List.mem_filter.mp (hone ▸ List.mem_singleton_self (_, t))
    obtain ⟨w, hw⟩ := h _ hmem (of_decide_eq_true htag)
    exact ⟨w, by rw [hw]; rfl⟩
  · exact ⟨_, rfl⟩

@[simp] theorem registers_ofRegister (r : Register) : (ofRegister r).registers = [r] := by
  have h := register_ofRegister r
  cases r <;> simp_all [ofRegister, ofTemp, ofVar, Json.registers]

@[simp] theorem blotted_ofRegister (r : Register) : (ofRegister r).blotted = .unreadable := by
  have h := register_ofRegister r
  cases r <;> simp_all [ofRegister, ofTemp, ofVar, Json.blotted]

@[simp] theorem registers_ofTemp (t : Temp) : (ofTemp t).registers = [.temp t] :=
  registers_ofRegister (.temp t)

@[simp] theorem registers_ofVar (v : Var) : (ofVar v).registers = [.var v] :=
  registers_ofRegister (.var v)

@[simp] theorem blotted_ofTemp (t : Temp) : (ofTemp t).blotted = .unreadable :=
  blotted_ofRegister (.temp t)

@[simp] theorem blotted_ofVar (v : Var) : (ofVar v).blotted = .unreadable :=
  blotted_ofRegister (.var v)

/-! ### Fields -/

@[simp] theorem registers_ofLiteral (l : Literal) : (ofLiteral l).registers = [] := by
  cases l <;> simp [ofLiteral, Json.registers]

@[simp] theorem registers_ofOperand (a : Operand) :
    (ofOperand a).registers = a.register?.toList := by
  cases a <;> simp [ofOperand, Operand.register?]

@[simp] theorem blotted_rename (r : Renaming) (a : Operand) :
    (ofOperand (a.rename r)).blotted = (ofOperand a).blotted := by
  cases a <;> simp [ofOperand, Operand.rename]

@[simp] theorem registers_ofOperands (as : List Operand) :
    (ofOperands as).registers = as.flatMap (·.register?.toList) := by
  simp [ofOperands, List.flatMap_map]

@[simp] theorem blotted_ofOperands (r : Renaming) (as : List Operand) :
    (ofOperands (as.map (Operand.rename r))).blotted = (ofOperands as).blotted := by
  simp [ofOperands]

theorem registers_ofPairs {κ : Type} {f : κ → Json} (h : ∀ k, (f k).registers = [])
    (ps : List (κ × Operand)) :
    (ofPairs f ps).registers = ps.flatMap (·.2.register?.toList) := by
  simp [ofPairs, List.flatMap_map, h]

@[simp] theorem blotted_ofPairs {κ : Type} (f : κ → Json) (r : Renaming)
    (ps : List (κ × Operand)) :
    (ofPairs f (ps.map fun p => (p.1, p.2.rename r))).blotted = (ofPairs f ps).blotted := by
  simp [ofPairs]

theorem registers_ofPosition (p : Position) : (ofPosition p).registers = [] := by
  obtain ⟨w, hw⟩ : ∃ w, register true (ofPosition p) = .error w := register_eq_error (by simp)
  rw [ofPosition, Json.registers_object hw]
  simp

/-- Registers in a table are no register together, whatever their labels. -/
theorem register_ofTable (t : Table Register) :
    ∃ w, register true (.object (t.entries.map fun e => (e.1, ofRegister e.2))) = .error w := by
  refine register_eq_error (List.forall_mem_map.mpr fun e _ _ => ?_)
  cases e.2 <;> exact ⟨_, rfl⟩

theorem registers_ofTable (t : Table Register) :
    (Json.object (t.entries.map fun e => (e.1, ofRegister e.2))).registers = t.values := by
  obtain ⟨w, hw⟩ := register_ofTable t
  rw [Json.registers_object hw, Table.values, List.flatMap_map, List.map_eq_flatMap]
  simp only [registers_ofRegister]

theorem blotted_ofTable (r : Renaming) (t : Table Register) :
    (Json.object ((t.map (Register.rename r)).entries.map fun e => (e.1, ofRegister e.2))).blotted =
      (Json.object (t.entries.map fun e => (e.1, ofRegister e.2))).blotted := by
  obtain ⟨w, hw⟩ := register_ofTable t
  obtain ⟨w', hw'⟩ := register_ofTable (t.map (Register.rename r))
  rw [Json.blotted_object hw, Json.blotted_object hw']
  simp [Table.map, Table.mapWithKey]

/-! ### Operations -/

theorem registers_rhsFields (e : Rhs Operand) :
    ((rhsFields e).2.flatMap fun f => f.2.registers) =
      e.operands.filterMap Operand.register? ++ e.slots := by
  cases e <;>
    simp [rhsFields, viewFields, Rhs.operands, Rhs.slots, List.filterMap_eq_flatMap_toList,
      List.flatMap_map, registers_ofPairs Json.registers_text,
      registers_ofPairs Json.registers_bool,
      registers_ofPairs fun i : UInt64 => Json.registers_ofNat i.toNat]

theorem registers_instrFields (i : Instr Operand) :
    ((instrFields i).2.flatMap fun f => f.2.registers) =
      i.operands.filterMap Operand.register? ++ i.slots ++ i.target?.toList := by
  cases i with
  | define e t =>
    rw [instrFields, List.flatMap_append, registers_rhsFields, List.flatMap_singleton,
      registers_ofTemp]
    rfl
  | debug a =>
    cases a <;> simp [instrFields, Instr.operands, Instr.slots, Instr.target?,
      List.filterMap_eq_flatMap_toList]
  | _ =>
    simp [instrFields, Instr.operands, Instr.slots, Instr.target?,
      List.filterMap_eq_flatMap_toList, registers_ofTable]

/-- No operation goes by the name of a kind of register. -/
theorem name_notRegister (i : Instr Operand) : (instrFields i).1 ∉ ["temp", "var"] := by
  cases i with
  | define e t => cases e <;> simp [instrFields, rhsFields]
  | debug a => cases a <;> simp [instrFields]
  | _ => simp [instrFields]

theorem register_ofOp (o : Op) : ∃ w, register true (ofOp o) = .error w := by
  have hkeys := (List.nodup_cons.mp (plain_instrFields o.instr).2).1
  refine register_eq_error (List.forall_mem_cons.mpr ⟨fun _ => ?_,
    List.forall_mem_cons.mpr ⟨by simp, fun f hf htag => ?_⟩⟩)
  · exact ⟨.malformed, by rw [choice, if_neg (name_notRegister o.instr)]⟩
  · exact absurd (List.mem_cons_of_mem _ (List.mem_map.mpr ⟨f, hf, htag⟩)) hkeys

/-- **What is written of an operation has its reads and its write in it**, and no other register. -/
theorem registers_ofOp (o : Op) : (ofOp o).registers = o.reads ++ o.writes := by
  obtain ⟨w, hw⟩ := register_ofOp o
  rw [ofOp, Json.registers_object hw, List.flatMap_cons, List.flatMap_cons, Json.registers_text,
    registers_ofPosition, List.nil_append, List.nil_append, registers_instrFields]
  rfl

/-- An operation's name, and its fields with a hole in place of every register. -/
def blottedFields (f : String × List (String × Json)) : String × List (String × Json) :=
  (f.1, f.2.map fun m => (m.1, m.2.blotted))

theorem blotted_mapRhs (r : Renaming) (e : Rhs Operand) :
    blottedFields (rhsFields (e.map (Operand.rename r))) = blottedFields (rhsFields e) := by
  cases e <;> simp [blottedFields, rhsFields, viewFields, Rhs.map]

theorem blotted_mapRhsSlots (r : Renaming) (e : Rhs Operand) :
    blottedFields (rhsFields (e.mapSlots r)) = blottedFields (rhsFields e) := by
  cases e <;> simp [blottedFields, rhsFields, Rhs.mapSlots]

/-- A value operation's fields are those of its right-hand side, and its target. -/
theorem blotted_define {e e' : Rhs Operand} (t t' : Temp)
    (h : blottedFields (rhsFields e) = blottedFields (rhsFields e')) :
    blottedFields (instrFields (.define e t)) = blottedFields (instrFields (.define e' t')) := by
  obtain ⟨hname, hfields⟩ := Prod.ext_iff.mp h
  refine Prod.ext hname ?_
  simp only [blottedFields] at hfields
  simp [blottedFields, instrFields, hfields]

theorem blotted_map (r : Renaming) (i : Instr Operand) :
    blottedFields (instrFields (i.map (Operand.rename r))) = blottedFields (instrFields i) := by
  cases i with
  | define e t => exact blotted_define t t (blotted_mapRhs r e)
  | debug a => cases a <;> simp [blottedFields, instrFields, Instr.map]
  | _ => simp [blottedFields, instrFields, Instr.map]

theorem blotted_mapSlots (r : Renaming) (i : Instr Operand) :
    blottedFields (instrFields (i.mapSlots r)) = blottedFields (instrFields i) := by
  cases i with
  | define e t => exact blotted_define t t (blotted_mapRhsSlots r e)
  | phi is t => simp [blottedFields, instrFields, Instr.mapSlots, blotted_ofTable]
  | _ => rfl

theorem blotted_mapTarget (r : Renaming) (i : Instr Operand) :
    blottedFields (instrFields (i.mapTarget r)) = blottedFields (instrFields i) := by
  cases i with
  | define e t => exact blotted_define _ t rfl
  | _ => simp [blottedFields, instrFields, Instr.mapTarget]

/-- Operations that agree in all fields but for registers are written alike but for registers. -/
theorem blotted_ofOp {o o' : Op} (hposition : o.position = o'.position)
    (h : blottedFields (instrFields o.instr) = blottedFields (instrFields o'.instr)) :
    (ofOp o).blotted = (ofOp o').blotted := by
  obtain ⟨w, hw⟩ := register_ofOp o
  obtain ⟨w', hw'⟩ := register_ofOp o'
  obtain ⟨hname, hfields⟩ := Prod.ext_iff.mp h
  simp only [blottedFields] at hname hfields
  rw [ofOp, ofOp, Json.blotted_object hw, Json.blotted_object hw']
  simp [hposition, hname, hfields]

end Wire

/-! ## What a change visits -/

namespace Register

/-- The registers of a row where two others differ. -/
def disputed : List Register → List Register → List Register → List Register
  | x :: xs, y :: ys, r :: rs => if x = y then disputed xs ys rs else r :: disputed xs ys rs
  | _, _, _ => []

/-- What is left alone is not disputed. -/
theorem disputed_append (l xs ys rs : List Register) :
    disputed (l ++ xs) (l ++ ys) (l ++ rs) = disputed xs ys rs := by
  induction l with
  | nil => rfl
  | cons x l ih =>
    rw [List.cons_append, List.cons_append, List.cons_append, disputed, if_pos rfl, ih]

/-- What is renamed in two ways that never agree is disputed. -/
theorem disputed_map_append {f g : Register → Register} (h : ∀ x, f x ≠ g x)
    (l xs ys rs : List Register) :
    disputed (l.map f ++ xs) (l.map g ++ ys) (l ++ rs) = l ++ disputed xs ys rs := by
  induction l with
  | nil => rfl
  | cons x l ih =>
    rw [List.map_cons, List.map_cons, List.cons_append, List.cons_append, List.cons_append,
      disputed, if_neg (h x), ih, List.cons_append]

theorem rename_byName_ne {n n' : String} (h : n ≠ n') (x : Register) :
    x.rename (.byName fun _ => n) ≠ x.rename (.byName fun _ => n') := by
  intro heq
  have hname := congrArg name heq
  cases x <;> exact h hname

end Register

namespace Op

/-- **The registers that a change gives its renaming**, in the order they are written in: those that
come out differently when all are to be named `0` and when all are to be named `1`. -/
def visited (change : Renaming → Op → Op) (o : Op) : List Register :=
  Register.disputed (Wire.ofOp (change (.byName fun _ => "0") o)).registers
    (Wire.ofOp (change (.byName fun _ => "1") o)).registers (Wire.ofOp o).registers

/-- A change visits what it renames, if it leaves alone what is written before and after that. -/
theorem visited_eq {change : Renaming → Op → Op} {o : Op} (before : List Register)
    {hit : List Register} (after : List Register)
    (h : (Wire.ofOp o).registers = before ++ (hit ++ after))
    (hchange : ∀ r, (Wire.ofOp (change r o)).registers =
      before ++ (hit.map (Register.rename r) ++ after)) : o.visited change = hit := by
  have hnone : Register.disputed after after after = [] := by
    simpa [Register.disputed] using Register.disputed_append after [] [] []
  rw [visited, h, hchange, hchange, Register.disputed_append,
    Register.disputed_map_append (Register.rename_byName_ne (by decide)), hnone, List.append_nil]

/-- The registers among the operands renamed. -/
def renameOperands (r : Renaming) (o : Op) : Op :=
  o.mapInstr (·.map (Operand.rename r))

/-- The registers in slots renamed. -/
def renameSlots (r : Renaming) (o : Op) : Op :=
  o.mapInstr (·.mapSlots r)

/-- The register written renamed. -/
def renameTarget (r : Renaming) (o : Op) : Op :=
  o.mapInstr (·.mapTarget r)

/-- **A change of the operands visits the registers among them**, one of the slots those in slots,
and one of the target what is written. -/
theorem visited_operands (o : Op) :
    o.visited renameOperands = o.instr.operands.filterMap Operand.register? := by
  refine visited_eq [] (o.instr.slots ++ o.writes) ?_ fun r => ?_
  · simp [Wire.registers_ofOp, reads]
  · rw [Wire.registers_ofOp, reads, writes, renameOperands, mapInstr, Instr.operands_map,
      Operand.filterMap_rename, Instr.slots_map, Instr.target?_map, List.nil_append,
      List.append_assoc, writes]

theorem visited_slots (o : Op) : o.visited renameSlots = o.instr.slots := by
  refine visited_eq (o.instr.operands.filterMap Operand.register?) o.writes ?_ fun r => ?_
  · simp [Wire.registers_ofOp, reads]
  · simp [Wire.registers_ofOp, reads, writes, renameSlots, mapInstr]

theorem visited_target (o : Op) : o.visited renameTarget = o.instr.target?.toList := by
  refine visited_eq o.reads [] ?_ fun r => ?_
  · simp [Wire.registers_ofOp, writes]
  · simp [Wire.registers_ofOp, reads, writes, renameTarget, mapInstr, Option.toList_map]

/-! ## The views -/

/-- Operands, slots and target, each under a renaming of its own. -/
def rename (onOperands onSlots onTarget : Renaming) (o : Op) : Op :=
  ((o.renameOperands onOperands).renameSlots onSlots).renameTarget onTarget

theorem instr_rename (a s t : Renaming) (o : Op) : (o.rename a s t).instr =
    ((o.instr.map (Operand.rename a)).mapSlots s).mapTarget t := rfl

variable (o : Op) (a s t : Renaming)

theorem reads_rename : (o.rename a s t).reads =
    (o.instr.operands.filterMap Operand.register?).map (Register.rename a) ++
      o.instr.slots.map (Register.rename s) := by
  rw [reads, instr_rename, Instr.operands_mapTarget, Instr.operands_mapSlots,
    Instr.operands_map, Operand.filterMap_rename]
  simp

theorem writes_rename : (o.rename a s t).writes = o.writes.map (Register.rename t) := by
  simp [instr_rename, writes, Option.toList_map]

/-- **Renaming changes registers and nothing else.** -/
theorem blotted_rename : (Wire.ofOp (o.rename a s t)).blotted = (Wire.ofOp o).blotted := by
  refine Wire.blotted_ofOp rfl ?_
  rw [instr_rename, Wire.blotted_mapTarget, Wire.blotted_mapSlots, Wire.blotted_map]

/-- A value operation writes one temporary. -/
theorem writes_of_value {o : Op} (h : o.instr.kind = .value) : ∃ x, o.writes = [.temp x] := by
  rw [writes]
  cases hi : o.instr with
  | define e x => exact ⟨x, rfl⟩
  | _ => simp [hi, Instr.kind] at h

/-- **The views of an operation are complete and agree with each other.**  Reads and writes are the
registers that stand anywhere in it, as often as they stand there.  The three views are what the
changes made through them visit, and the reads are those of the operands and then those in slots.
Renaming operands, slots and target changes exactly these, and nothing that is no register.  A value
operation writes one temporary, and an operation that may be dropped writes nothing but the
temporary it may be dropped for. -/
theorem views_complete :
    (Wire.ofOp o).registers = o.reads ++ o.writes ∧
      o.visited renameOperands = o.instr.operands.filterMap Operand.register? ∧
      o.visited renameSlots = o.instr.slots ∧
      o.visited renameTarget = o.instr.target?.toList ∧
      o.reads = o.visited renameOperands ++ o.visited renameSlots ∧
      o.writes = o.visited renameTarget ∧
      (o.rename a s t).reads =
        (o.visited renameOperands).map (Register.rename a) ++
          (o.visited renameSlots).map (Register.rename s) ∧
      (o.rename a s t).writes = (o.visited renameTarget).map (Register.rename t) ∧
      (o.rename a s t).position = o.position ∧
      (o.rename a s t).instr.labels = o.instr.labels ∧
      (Wire.ofOp (o.rename a s t)).blotted = (Wire.ofOp o).blotted ∧
      (o.instr.kind = .value → ∃ x, o.writes = [.temp x]) ∧
      ∀ x, o.instr.removable? = some x → o.writes = [.temp x] := by
  rw [visited_operands, visited_slots, visited_target]
  refine ⟨Wire.registers_ofOp o, rfl, rfl, rfl, rfl, rfl, o.reads_rename a s t,
    o.writes_rename a s t, rfl, ?_, o.blotted_rename a s t, writes_of_value,
    fun x => writes_of_removable?⟩
  simp [instr_rename]

/-- A point with three fields set, two of them from one temporary. -/
def update : Op where
  position := ⟨1, 1, 0, 0⟩
  instr := .define (.withFields "Point" (.ofVar (.ofBase "p")) "Point"
    [("x", .ofTemp (.ofId 1)), ("y", .literal (.int "0")), ("z", .ofTemp (.ofId 1))]) (.ofId 2)

theorem update_registers : update.instr.kind = .value ∧
    update.instr.removable? = some (.ofId 2) ∧
    (Wire.ofOp update).registers =
      [.var (.ofBase "p"), .temp (.ofId 1), .temp (.ofId 1), .temp (.ofId 2)] ∧
    (∃ x, update.writes = [.temp x]) ∧ update.writes = [.temp (.ofId 2)] := by
  obtain ⟨hall, -, -, -, -, -, -, -, -, -, -, hvalue, hremovable⟩ :=
    update.views_complete {} {} {}
  exact ⟨rfl, rfl, hall, hvalue rfl, hremovable _ rfl⟩

end Op

end Monomorph
