import Mathlib.Logic.Basic
import Monomorph.Op.Views
import Monomorph.Proofs.Table.Lookup

/-!
# Op/Views — the views of an operation and the maps over it fit together

Operands, slots and target are three disjoint parts: a map over one of them changes its own view
entry by entry and leaves the two other views alone.  So do the maps among themselves: maps over
different parts commute, and a map over one part is fixed by what it does to the view
(`map_congr`).
-/

namespace Monomorph

/-- One renaming after another. -/
def Renaming.comp (s r : Renaming) : Renaming where
  temp t := s.temp (r.temp t)
  var v := s.var (r.var v)

@[simp] theorem Register.rename_rename (s r : Renaming) (x : Register) :
    (x.rename r).rename s = x.rename (s.comp r) := by
  cases x <;> rfl

/-! ## Right-hand sides -/

namespace Rhs

variable {α β γ : Type} (e : Rhs α) (f : α → β) (g : β → γ) (r s : Renaming)

@[simp] theorem operands_map : (e.map f).operands = e.operands.map f := by
  cases e <;> simp [map, operands, Function.comp_def]

@[simp] theorem slots_map : (e.map f).slots = e.slots := by
  cases e <;> rfl

@[simp] theorem mayAct_map : (e.map f).mayAct = e.mayAct := by
  cases e <;> rfl

@[simp] theorem operands_mapSlots : (e.mapSlots r).operands = e.operands := by
  cases e <;> rfl

@[simp] theorem slots_mapSlots : (e.mapSlots r).slots = e.slots.map (Register.rename r) := by
  cases e <;> rfl

@[simp] theorem mayAct_mapSlots : (e.mapSlots r).mayAct = e.mayAct := by
  cases e <;> rfl

theorem map_map : (e.map f).map g = e.map fun a => g (f a) := by
  cases e <;> simp [map, Function.comp_def]

theorem mapSlots_mapSlots : (e.mapSlots r).mapSlots s = e.mapSlots (s.comp r) := by
  cases e <;> simp [mapSlots, Renaming.comp]

theorem mapSlots_map : (e.map f).mapSlots r = (e.mapSlots r).map f := by
  cases e <;> rfl

/-- Changing the second parts of a list of pairs, read off those parts alone. -/
theorem map_snd_congr {κ : Type} {f f' : α → β} {l : List (κ × α)}
    (h : ∀ a ∈ l.map (·.2), f a = f' a) :
    (l.map fun u => (u.1, f u.2)) = l.map fun u => (u.1, f' u.2) := by
  refine List.map_congr_left fun u hu => ?_
  rw [h u.2 (List.mem_map.mpr ⟨u, hu, rfl⟩)]

variable {e f} in
theorem map_congr {f' : α → β} (h : ∀ a ∈ e.operands, f a = f' a) : e.map f = e.map f' := by
  cases e with
  | collectionMixed t as | record t as =>
    rw [map, map, map_snd_congr h]
  | withIndices t a s us | withProperties t a s us | withFields t a s us =>
    obtain ⟨ha, hus⟩ := List.forall_mem_cons.mp h
    rw [map, map, ha, map_snd_congr hus]
  | _ => simp_all [map, operands]

theorem map_id (e : Rhs α) : e.map id = e := by
  cases e <;> simp [map]

variable {e r} in
theorem mapSlots_eq_self (h : ∀ x ∈ e.slots, x.rename r = x) : e.mapSlots r = e := by
  cases e <;> simp_all [mapSlots, slots, Register.rename]

end Rhs

/-! ## Instructions -/

namespace Instr

variable {α β γ : Type} (i : Instr α) (f : α → β) (g : β → γ) (r s : Renaming)

@[simp] theorem operands_map : (i.map f).operands = i.operands.map f := by
  cases i with
  | debug a => cases a <;> rfl
  | _ => simp [map, operands]

@[simp] theorem slots_map : (i.map f).slots = i.slots := by
  cases i <;> simp [map, slots]

@[simp] theorem target?_map : (i.map f).target? = i.target? := by
  cases i <;> rfl

@[simp] theorem labels_map : (i.map f).labels = i.labels := by
  cases i <;> rfl

@[simp] theorem isTerminator_map : (i.map f).isTerminator = i.isTerminator := by
  cases i <;> rfl

@[simp] theorem removable?_map : (i.map f).removable? = i.removable? := by
  cases i <;> simp [map, removable?]

@[simp] theorem operands_mapSlots : (i.mapSlots r).operands = i.operands := by
  cases i <;> simp [mapSlots, operands]

@[simp] theorem slots_mapSlots : (i.mapSlots r).slots = i.slots.map (Register.rename r) := by
  cases i <;> simp [mapSlots, slots]

@[simp] theorem target?_mapSlots : (i.mapSlots r).target? = i.target? := by
  cases i <;> rfl

@[simp] theorem labels_mapSlots : (i.mapSlots r).labels = i.labels := by
  cases i <;> rfl

@[simp] theorem isTerminator_mapSlots : (i.mapSlots r).isTerminator = i.isTerminator := by
  cases i <;> rfl

@[simp] theorem removable?_mapSlots : (i.mapSlots r).removable? = i.removable? := by
  cases i <;> simp [mapSlots, removable?]

@[simp] theorem operands_mapTarget : (i.mapTarget r).operands = i.operands := by
  cases i <;> rfl

@[simp] theorem slots_mapTarget : (i.mapTarget r).slots = i.slots := by
  cases i <;> rfl

@[simp] theorem target?_mapTarget :
    (i.mapTarget r).target? = i.target?.map (Register.rename r) := by
  cases i <;> rfl

@[simp] theorem labels_mapTarget : (i.mapTarget r).labels = i.labels := by
  cases i <;> rfl

@[simp] theorem isTerminator_mapTarget : (i.mapTarget r).isTerminator = i.isTerminator := by
  cases i <;> rfl

@[simp] theorem removable?_mapTarget :
    (i.mapTarget r).removable? = i.removable?.map r.temp := by
  cases i with
  | define e t => simp [mapTarget, removable?, apply_ite]
  | _ => rfl

theorem map_map : (i.map f).map g = i.map fun a => g (f a) := by
  cases i with
  | debug a => cases a <;> rfl
  | _ => simp [map, Rhs.map_map, Function.comp_def]

theorem mapSlots_mapSlots : (i.mapSlots r).mapSlots s = i.mapSlots (s.comp r) := by
  cases i with
  | phi is t =>
    rw [mapSlots, mapSlots, mapSlots]
    congr 1
    refine Table.ext_get? fun k => ?_
    simp [Function.comp_def]
  | _ => simp [mapSlots, Rhs.mapSlots_mapSlots]

theorem mapTarget_mapTarget : (i.mapTarget r).mapTarget s = i.mapTarget (s.comp r) := by
  cases i <;> simp [mapTarget, Renaming.comp]

theorem mapSlots_map : (i.map f).mapSlots r = (i.mapSlots r).map f := by
  cases i <;> simp [map, mapSlots, Rhs.mapSlots_map]

theorem mapTarget_map : (i.map f).mapTarget r = (i.mapTarget r).map f := by
  cases i <;> rfl

theorem mapTarget_mapSlots : (i.mapSlots r).mapTarget s = (i.mapTarget s).mapSlots r := by
  cases i <;> rfl

variable {i f} in
theorem map_congr {f' : α → β} (h : ∀ a ∈ i.operands, f a = f' a) : i.map f = i.map f' := by
  cases i with
  | define e t => rw [map, map, Rhs.map_congr h]
  | debug a => cases a <;> simp_all [map, operands]
  | _ => simp_all [map, operands]

variable {i} in
theorem map_eq_self {f : α → α} (h : ∀ a ∈ i.operands, f a = a) : i.map f = i := by
  have hid : i.map f = i.map id := map_congr h
  rw [hid]
  cases i with
  | define e t => rw [map, Rhs.map_id]
  | debug a => cases a <;> rfl
  | _ => simp [map]

variable {i r} in
theorem mapSlots_eq_self (h : ∀ x ∈ i.slots, x.rename r = x) : i.mapSlots r = i := by
  cases i with
  | define e t => rw [mapSlots, Rhs.mapSlots_eq_self h]
  | phi is t =>
    rw [mapSlots]
    congr 1
    refine Table.ext_get? fun k => ?_
    rw [Table.get?_map]
    cases hk : is.get? k with
    | none => rfl
    | some x => rw [Option.map_some, h x (Table.mem_values.mpr ⟨k, hk⟩)]
  | _ => rfl

/-- Only a jump or a branch leads anywhere. -/
theorem labels_eq_nil {i : Instr α} (h : i.isTerminator = false) : i.labels = [] := by
  cases i <;> simp_all [isTerminator, labels]

/-- What may be dropped writes the temporary it may be dropped for. -/
theorem target?_of_removable? {i : Instr α} {t : Temp} (h : i.removable? = some t) :
    i.target? = some (.temp t) := by
  cases i <;> simp_all [removable?, target?]

/-- What ends a block writes nothing. -/
theorem target?_of_isTerminator {i : Instr α} (h : i.isTerminator = true) : i.target? = none := by
  cases i <;> simp_all [isTerminator, target?]

end Instr

/-- What may be dropped writes nothing else. -/
theorem Op.writes_of_removable? {o : Op} {t : Temp} (h : o.instr.removable? = some t) :
    o.writes = [.temp t] := by
  rw [writes, Instr.target?_of_removable? h]
  rfl

end Monomorph
