import Monomorph.Proofs.Table.Lookup
import Monomorph.Session.Dispatch

/-!
# Assembly/Slots — what the slots of types hold while targets are recorded

A slot that is filled stays as it is, so of the targets of one slot the first that is recorded
counts (`InSlot.of_fill`), and no slot of a target recorded is free (`filled_fillAll`).
-/

namespace Monomorph

namespace Assembly

/-- The slots of a type: of an entity, or else of a concept. -/
def vtable? (m : Assembly) (key : String) : Option (Table String) :=
  match m.entities.get? key with
  | some d => some d.vtable
  | none => (m.concepts.get? key).map (·.vtable)

/-- A slot of an entity or a concept holds the key of a method. -/
def InSlot (m : Assembly) (type slot key : String) : Prop :=
  (∃ d, m.entities.get? type = some d ∧ d.vtable.get? slot = some key) ∨
    ∃ d, m.concepts.get? type = some d ∧ d.vtable.get? slot = some key

/-- A slot is not free, if there is such a type. -/
def Filled (m : Assembly) (type slot : String) : Prop :=
  ∀ v, m.vtable? type = some v → v.contains slot = true

theorem InSlot.of_vtable? {m : Assembly} {type slot key : String} {v : Table String}
    (hv : m.vtable? type = some v) (h : v.get? slot = some key) : m.InSlot type slot key := by
  rw [vtable?] at hv
  cases hd : m.entities.get? type with
  | some d =>
    rw [hd] at hv
    obtain rfl := Option.some.inj hv
    exact .inl ⟨d, hd, h⟩
  | none =>
    rw [hd] at hv
    obtain ⟨d, hd, rfl⟩ := Option.map_eq_some_iff.mp hv
    exact .inr ⟨d, hd, h⟩

variable {m : Assembly} {f : Filling} {key type slot : String}

@[simp] theorem hasInvoke_fill (m : Assembly) (f : Filling) (key k : String) :
    (m.fill f key).hasInvoke k = m.hasInvoke k := by
  rw [fill]
  split <;> rfl

theorem entities_fill (m : Assembly) (f : Filling) (key type : String) :
    (m.fill f key).entities.get? type = (m.entities.get? type).map fun d =>
      if type = f.receiver then { d with vtable := d.vtable.insertNew f.slot key } else d := by
  rw [fill]
  split
  case isTrue => exact Table.get?_mapWithKey ..
  case isFalse h =>
    have hnone := Table.contains_eq_false.mp (Bool.eq_false_iff.mpr h)
    by_cases ht : type = f.receiver
    · rw [ht, hnone]
      rfl
    · simp [ht]

theorem concepts_fill (m : Assembly) (f : Filling) (key type : String) :
    (m.fill f key).concepts.get? type = (m.concepts.get? type).map fun d =>
      if type = f.receiver ∧ m.entities.get? type = none then
        { d with vtable := d.vtable.insertNew f.slot key } else d := by
  rw [fill]
  split
  case isTrue h =>
    obtain ⟨e, he⟩ := Table.contains_iff.mp h
    by_cases ht : type = f.receiver
    · simp [ht, he]
    · simp [ht]
  case isFalse h =>
    have hnone := Table.contains_eq_false.mp (Bool.eq_false_iff.mpr h)
    rw [Table.modify, Table.get?_mapWithKey]
    refine Option.map_congr fun d _ => ?_
    by_cases ht : type = f.receiver
    · rw [if_pos ht, if_pos ⟨ht, ht ▸ hnone⟩]
    · rw [if_neg ht, if_neg fun h => ht h.1]

theorem vtable?_fill (m : Assembly) (f : Filling) (key type : String) :
    (m.fill f key).vtable? type = (m.vtable? type).map fun v =>
      if type = f.receiver then v.insertNew f.slot key else v := by
  rw [vtable?, vtable?, entities_fill, concepts_fill]
  cases m.entities.get? type with
  | some d => by_cases ht : type = f.receiver <;> simp [ht]
  | none =>
    cases m.concepts.get? type with
    | none => rfl
    | some d => by_cases ht : type = f.receiver <;> simp [ht]

@[simp] theorem types_fill (m : Assembly) (f : Filling) (key : String) :
    (m.fill f key).types = m.types := by
  rw [fill]
  split <;> rfl

/-- Filling a slot finishes nothing. -/
@[simp] theorem isFinished_fill (m : Assembly) (f : Filling) (key : String) (l : Lane)
    (k : String) : (m.fill f key).isFinished l k = m.isFinished l k := by
  cases l with
  | types =>
    change (m.fill f key).hasNominal k = m.hasNominal k
    simp only [hasNominal, Table.contains, entities_fill, concepts_fill, Option.isSome_map]
  | globals | consts =>
    change (m.fill f key).constants.contains k = m.constants.contains k
    rw [fill]
    split <;> rfl
  | functions | lambdas | statics | methods => exact hasInvoke_fill m f key k

theorem Filled.fill (h : m.Filled type slot) (f : Filling) (key : String) :
    (m.fill f key).Filled type slot := by
  intro v hv
  rw [vtable?_fill] at hv
  obtain ⟨v', hv', rfl⟩ := Option.map_eq_some_iff.mp hv
  obtain ⟨k, hk⟩ := Table.contains_iff.mp (h v' hv')
  split
  · exact Table.contains_of_get? (by rw [Table.get?_insertNew, hk, Option.some_or])
  · exact h v' hv'

theorem filled_fill (m : Assembly) (f : Filling) (key : String) :
    (m.fill f key).Filled f.receiver f.slot := by
  intro v hv
  rw [vtable?_fill] at hv
  obtain ⟨v', -, rfl⟩ := Option.map_eq_some_iff.mp hv
  rw [if_pos rfl]
  exact Table.contains_iff.mpr (by
    rw [Table.get?_insertNew, if_pos rfl]
    cases v'.get? f.slot <;> simp)

/-- Put in where there is nothing, what a table holds is what it held or what was put in. -/
theorem get?_insertNew_cases {v : Table String} {k k' w w' : String}
    (h : (v.insertNew k w).get? k' = some w') :
    v.get? k' = some w' ∨ k' = k ∧ w' = w ∧ v.contains k = false := by
  rw [Table.get?_insertNew] at h
  cases hk : v.get? k' with
  | some u =>
    rw [hk, Option.some_or] at h
    exact .inl h
  | none =>
    rw [hk, Option.none_or] at h
    split at h
    case isTrue heq =>
      exact .inr ⟨heq, (Option.some.inj h).symm, Table.contains_eq_false.mpr (heq ▸ hk)⟩
    case isFalse => cases h

/-- What a slot holds it held before, or it was free and has been filled now. -/
theorem InSlot.of_fill {k : String} (h : (m.fill f key).InSlot type slot k) :
    m.InSlot type slot k ∨
      type = f.receiver ∧ slot = f.slot ∧ k = key ∧ ¬ m.Filled type slot := by
  rcases h with ⟨d', hd', hslot⟩ | ⟨d', hd', hslot⟩
  · rw [entities_fill] at hd'
    obtain ⟨d, hd, rfl⟩ := Option.map_eq_some_iff.mp hd'
    split at hslot
    case isTrue ht =>
      rcases get?_insertNew_cases hslot with hold | ⟨hs, hk, hfree⟩
      · exact .inl (.inl ⟨d, hd, hold⟩)
      · refine .inr ⟨ht, hs, hk, fun hfilled => ?_⟩
        have := hfilled d.vtable (by rw [vtable?, hd])
        rw [hs, hfree] at this
        cases this
    case isFalse => exact .inl (.inl ⟨d, hd, hslot⟩)
  · rw [concepts_fill] at hd'
    obtain ⟨d, hd, rfl⟩ := Option.map_eq_some_iff.mp hd'
    split at hslot
    case isTrue ht =>
      rcases get?_insertNew_cases hslot with hold | ⟨hs, hk, hfree⟩
      · exact .inl (.inr ⟨d, hd, hold⟩)
      · refine .inr ⟨ht.1, hs, hk, fun hfilled => ?_⟩
        have := hfilled d.vtable (by rw [vtable?, ht.2, hd]; rfl)
        rw [hs, hfree] at this
        cases this
    case isFalse => exact .inl (.inr ⟨d, hd, hslot⟩)

/-- A concept declared with free slots fills none. -/
theorem InSlot.of_insert_concept {k : String} {d : ConceptDecl} (hd : d.vtable = ∅)
    (h : { m with concepts := m.concepts.insert k d }.InSlot type slot key) :
    m.InSlot type slot key := by
  refine h.imp_right fun ⟨d', hd', hslot⟩ => ?_
  rw [Table.get?_insert] at hd'
  split at hd'
  case isTrue =>
    obtain rfl := Option.some.inj hd'
    rw [hd] at hslot
    cases hslot
  case isFalse => exact ⟨d', hd', hslot⟩

/-- An entity declared with free slots fills none. -/
theorem InSlot.of_insert_entity {k : String} {d : EntityDecl} (hd : d.vtable = ∅)
    (h : { m with entities := m.entities.insert k d }.InSlot type slot key) :
    m.InSlot type slot key := by
  refine h.imp_left fun ⟨d', hd', hslot⟩ => ?_
  rw [Table.get?_insert] at hd'
  split at hd'
  case isTrue =>
    obtain rfl := Option.some.inj hd'
    rw [hd] at hslot
    cases hslot
  case isFalse => exact ⟨d', hd', hslot⟩

/-- Fill the slots of targets in turn. -/
def fillAll (m : Assembly) (ts : List Target) : Assembly :=
  ts.foldl (fun m t => m.fill t.filling t.key) m

theorem fillAll_append (m : Assembly) (ts us : List Target) :
    m.fillAll (ts ++ us) = (m.fillAll ts).fillAll us :=
  List.foldl_append

theorem hasInvoke_fillAll (m : Assembly) (ts : List Target) (k : String) :
    (m.fillAll ts).hasInvoke k = m.hasInvoke k := by
  induction ts generalizing m with
  | nil => rfl
  | cons t ts ih => exact (ih _).trans (hasInvoke_fill ..)

theorem types_fillAll (m : Assembly) (ts : List Target) : (m.fillAll ts).types = m.types := by
  induction ts generalizing m with
  | nil => rfl
  | cons t ts ih => exact (ih _).trans (types_fill ..)

theorem isFinished_fillAll (m : Assembly) (ts : List Target) (l : Lane) (k : String) :
    (m.fillAll ts).isFinished l k = m.isFinished l k := by
  induction ts generalizing m with
  | nil => rfl
  | cons t ts ih => exact (ih _).trans (isFinished_fill ..)

theorem Filled.fillAll (h : m.Filled type slot) (ts : List Target) :
    (m.fillAll ts).Filled type slot := by
  induction ts generalizing m with
  | nil => exact h
  | cons t ts ih => exact ih (h.fill t.filling t.key)

/-- No slot of a target recorded is free. -/
theorem filled_fillAll (m : Assembly) {ts : List Target} {t : Target} (ht : t ∈ ts) :
    (m.fillAll ts).Filled t.filling.receiver t.filling.slot := by
  induction ts generalizing m with
  | nil => cases ht
  | cons t' ts ih =>
    rcases List.mem_cons.mp ht with rfl | ht
    · exact (filled_fill m t.filling t.key).fillAll ts
    · exact ih (m.fill t'.filling t'.key) ht

end Assembly

end Monomorph
