import Monomorph.Proofs.Json.Rearranged
import Monomorph.Proofs.Result
import Monomorph.Proofs.Table.Lookup

/-!
# Wire/Record — the value a record is read as

Reading a record comes to a value or to a fault.  For the value nothing counts but what stands under
each name (`Layout.value?`), and it is made field by field; so **a record is read back in whatever
order its members come** (`Layout.ofJson_rearranged`), and so is a tagged one (`tagged_rearranged`).
What every value read satisfies is told in the same way, field by field (`Layout.Gives`).
-/

namespace Monomorph.Wire

variable {α β : Type}

/-! ## What stands under a name -/

/-- The values of the members of a name. -/
def Members.values (m : Members) (name : String) : List Json :=
  (m.entries.filter fun e => e.1 = name).map (·.2)

theorem Members.values_eq (m : Members) (name : String) :
    m.values name = (m.occurrences name).map (·.2) := by
  obtain ⟨es, positional⟩ := m
  suffices ∀ n, (es.filter fun e => e.1 = name).map (·.2) = ((es.zipIdx n).filterMap
      fun e => if e.1.1 = name then some (e.2, e.1.2) else none).map (·.2) from this 0
  induction es with
  | nil => exact fun _ => rfl
  | cons e es ih =>
    intro n
    rw [List.zipIdx_cons, List.filterMap_cons]
    by_cases h : e.1 = name
    · rw [if_pos h, List.filter_cons_of_pos (by simpa using h), List.map_cons, List.map_cons,
        ih (n + 1)]
    · rw [if_neg h, List.filter_cons_of_neg (by simpa using h), ih (n + 1)]

/-- Under each name listed stands the value listed, changed by `u`, and under no other name stands
anything. -/
structure Members.Holds (m : Members) (u : Json → Json) (es : List (String × Json)) : Prop where
  values : ∀ e ∈ es, m.values e.1 = [u e.2]
  others : ∀ n ∉ es.map (·.1), m.values n = []

/-- One member told from the others by its name. -/
theorem filter_name {name : String} {j : Json} {es es' : List (String × Json)}
    (h : es'.Perm ((name, j) :: es)) (hne : ∀ e ∈ es, e.1 ≠ name) :
    (es'.filter fun e => e.1 = name) = [(name, j)] ∧ (es'.filter fun e => e.1 ≠ name).Perm es := by
  have hnone : (es.filter fun e => decide (e.1 = name)) = [] :=
    List.filter_eq_nil_iff.mpr fun e he => by simpa using hne e he
  have hall : (es.filter fun e => decide (e.1 ≠ name)) = es :=
    List.filter_eq_self.mpr fun e he => by simpa using hne e he
  have hhead := h.filter fun e => decide (e.1 = name)
  have htail := h.filter fun e => decide (e.1 ≠ name)
  rw [List.filter_cons_of_pos (by simp), hnone] at hhead
  rw [List.filter_cons_of_neg (by simp), hall] at htail
  exact ⟨List.perm_singleton.mp hhead, htail⟩

/-- Members that differ in their names are found under them, wherever they stand. -/
theorem Members.holds_of_perm {u : Json → Json} {es es' : List (String × Json)}
    (h : es'.Perm (es.map fun e => (e.1, u e.2))) (hkeys : (es.map (·.1)).Nodup) :
    (⟨es', false⟩ : Members).Holds u es where
  values e he := by
    obtain ⟨before, after, rfl⟩ := List.append_of_mem he
    have hfront : es'.Perm ((e.1, u e.2) :: (before ++ after).map fun e => (e.1, u e.2)) := by
      refine h.trans ?_
      rw [List.map_append, List.map_cons, List.map_append]
      exact List.perm_middle
    rw [List.map_append, List.map_cons, List.perm_middle.nodup_iff, ← List.map_append] at hkeys
    have hne : ∀ f ∈ (before ++ after).map fun e => (e.1, u e.2), f.1 ≠ e.1 :=
      List.forall_mem_map.mpr fun f hf heq =>
        (List.nodup_cons.mp hkeys).1 (List.mem_map.mpr ⟨f, hf, heq⟩)
    rw [Members.values, (filter_name hfront hne).1]
    rfl
  others n hn := by
    have hnone : (es'.filter fun e => decide (e.1 = n)) = [] := by
      refine List.filter_eq_nil_iff.mpr fun e he => ?_
      obtain ⟨f, hf, rfl⟩ := List.mem_map.mp (h.mem_iff.mp he)
      simpa using fun heq : f.1 = n => hn (List.mem_map.mpr ⟨f, hf, heq⟩)
    rw [Members.values, hnone]
    rfl

/-! ## The value of a record -/

/-- The value found, if no fault stands in the way. -/
def Gathered.found? : Gathered α → Option α
  | .found a => some a
  | .refused .. => none

theorem Gathered.decoded_eq_ok {g : Gathered α} {a : α} :
    g.decoded = .ok a ↔ g.found? = some a := by
  cases g <;> simp [decoded, found?]

theorem Gathered.found?_map (f : α → β) (g : Gathered α) : (g.map f).found? = g.found?.map f := by
  cases g <;> rfl

theorem Gathered.found?_app (f : Gathered (α → β)) (g : Gathered α) :
    (f.app g).found? = f.found?.bind fun f => g.found?.map f := by
  cases f <;> cases g <;> first | rfl | (rw [app]; split <;> rfl)

theorem Members.found?_field (m : Members) (name : String) (missing : Option α)
    (read : Json → Decoded α) : (m.field name missing read).found? = match m.values name with
      | [] => missing
      | [j] => (read j).toOption
      | _ :: _ :: _ => none := by
  rw [values_eq]
  unfold field
  rcases m.occurrences name with _ | ⟨⟨i, j⟩, _ | ⟨o, os⟩⟩
  · cases missing <;> rfl
  · rw [List.map_singleton]
    cases hread : read j <;> simp [hread, Gathered.found?, Except.toOption]
  · rfl

namespace Layout

/-- What a layout makes of the members of a record. -/
def value? (l : Layout α) (m : Members) : Option α :=
  (l.read m).found?

variable {l : Layout α} {m : Members} {a : α}

@[simp] theorem value?_map (f : α → β) (l : Layout α) (m : Members) :
    (f <$> l).value? m = (l.value? m).map f :=
  Gathered.found?_map f (l.read m)

@[simp] theorem value?_seq (f : Layout (α → β)) (l : Layout α) (m : Members) :
    (f <*> l).value? m = (f.value? m).bind fun f => (l.value? m).map f :=
  Gathered.found?_app (f.read m) (l.read m)

@[simp] theorem value?_field (name : String) (read : Json → Decoded α) (m : Members) :
    (field name read).value? m = match m.values name with
      | [j] => (read j).toOption
      | _ => none := by
  refine (m.found?_field name none read).trans ?_
  rcases m.values name with _ | ⟨j, _ | ⟨o, os⟩⟩ <;> rfl

@[simp] theorem value?_defaulted (name : String) (default : α) (read : Json → Decoded α)
    (m : Members) : (defaulted name default read).value? m = match m.values name with
      | [] => some default
      | [j] => (read j).toOption
      | _ :: _ :: _ => none :=
  m.found?_field name (some default) read

@[simp] theorem value?_nullable (name : String) (read : Json → Decoded α) (m : Members) :
    (Layout.nullable name read).value? m = match m.values name with
      | [] => if m.positional then none else some none
      | [j] => (Wire.nullable read j).toOption
      | _ :: _ :: _ => none :=
  m.found?_field name _ _

theorem ofJson_object {es : List (String × Json)} :
    l.ofJson (.object es) = .ok a ↔ l.value? ⟨es, false⟩ = some a :=
  Gathered.decoded_eq_ok

/-- What a value is read as is the value of some record. -/
theorem exists_value? {j : Json} (h : l.ofJson j = .ok a) : ∃ m, l.value? m = some a := by
  cases j with
  | object es => exact ⟨_, ofJson_object.mp h⟩
  | array items =>
    refine ⟨⟨l.names.zip items, true⟩, ?_⟩
    rw [ofJson, ofArray] at h
    rw [value?]
    split at h
    · next b hb =>
      split at h
      · rw [hb, ← Except.ok.inj h]
        rfl
      · cases h
    · cases h
  | null | bool | number | text | unreadable => cases h

end Layout

/-! ## Reading back, in whatever order -/

section

variable {u : Json → Json} {a : α} (hu : Json.Rearranges u)
include hu

/-- **A record is read back** if its layout makes the value of what stands under each name. -/
theorem Layout.ofJson_rearranged {l : Layout α} {es : List (String × Json)}
    (hkeys : (es.map (·.1)).Nodup) (h : ∀ m : Members, m.Holds u es → l.value? m = some a) :
    l.ofJson (u (.object es)) = .ok a := by
  obtain ⟨es', hes', hperm⟩ := hu.object es hkeys
  rw [hes', ofJson_object]
  exact h _ (Members.holds_of_perm hperm hkeys)

/-- Where no field may be missing, the fields there are make the value. -/
theorem Layout.ofJson_fields {l : Layout α} {es : List (String × Json)}
    (hkeys : (es.map (·.1)).Nodup)
    (h : ∀ m : Members, (∀ e ∈ es, m.values e.1 = [u e.2]) → l.value? m = some a) :
    l.ofJson (u (.object es)) = .ok a :=
  Layout.ofJson_rearranged hu hkeys fun m hm => h m hm.values

/-- **A tagged record is read back** if the layout of its tag makes the value. -/
theorem tagged_rearranged {tag name : String} {names : List String} {layout : String → Layout α}
    {es : List (String × Json)} (hplain : (Json.object ((tag, .text name) :: es)).Plain)
    (hname : name ∈ names)
    (h : ∀ m : Members, m.Holds u es → (layout name).value? m = some a) (buffered : Bool) :
    tagged tag buffered names layout (u (.object ((tag, .text name) :: es))) = .ok a := by
  have hread : ∀ buffered, variantOf tag buffered names layout
      (u (.object ((tag, .text name) :: es))) = .ok a := by
    intro buffered
    obtain ⟨hkeys, -⟩ := Json.plain_object.mp hplain
    obtain ⟨es', hes', hperm⟩ := hu.object _ hkeys
    obtain ⟨htag, hrest⟩ := List.nodup_cons.mp hkeys
    rw [List.map_cons, hu.text] at hperm
    obtain ⟨hhead, htail⟩ := filter_name hperm <| List.forall_mem_map.mpr fun e he heq =>
      htag (List.mem_map.mpr ⟨e, he, heq⟩)
    rw [hes', variantOf, hhead]
    refine bind_eq_ok.mpr ⟨name, by rw [choice, if_pos hname], Gathered.decoded_eq_ok.mpr ?_⟩
    exact h _ (Members.holds_of_perm htail hrest)
  rw [tagged]
  split
  · exact hread true
  · rw [whole, if_pos (hplain.isReadable hu)]
    exact hread false

theorem list_rearranged {read : Json → Decoded α} {f : α → Json} {l : List α}
    (h : ∀ a ∈ l, read (u (f a)) = .ok a) : list read (u (.array (l.map f))) = .ok l := by
  rw [hu.array, list, List.map_map]
  exact mapM_map_eq_ok h

theorem text_rearranged (s : String) : text (u (.text s)) = .ok s := by
  rw [hu.text]
  rfl

theorem texts_rearranged (l : List String) : list text (u (.texts l)) = .ok l :=
  list_rearranged hu fun s _ => text_rearranged hu s

theorem flag_rearranged (b : Bool) : flag (u (.bool b)) = .ok b := by
  rw [hu.bool]
  rfl

theorem pair_rearranged {first : Json → Decoded α} {second : Json → Decoded β} {i j : Json} {b : β}
    (hi : first (u i) = .ok a) (hj : second (u j) = .ok b) :
    pair first second (u (.array [i, j])) = .ok (a, b) := by
  rw [hu.array]
  exact bind_eq_ok.mpr ⟨a, hi, bind_eq_ok.mpr ⟨b, hj, rfl⟩⟩

/-- **A table is read back**, since each key stands in it once. -/
theorem table_rearranged {read : Json → Decoded α} {f : α → Json} {t : Table α}
    (h : ∀ v ∈ t.values, read (u (f v)) = .ok v) :
    table read (u (.object (t.entries.map fun e => (e.1, f e.2)))) = .ok t := by
  have hkeys : ((t.entries.map fun e => (e.1, f e.2)).map (·.1)).Nodup := by
    rw [List.map_map]
    exact t.nodup_keys
  obtain ⟨es', hes', hperm⟩ := hu.object _ hkeys
  have hwritten : ((t.entries.map fun e => (e.1, f e.2)).map fun e => (e.1, u e.2)).mapM
      (fun e => (e.1, ·) <$> read e.2) = .ok t.entries := by
    rw [List.map_map]
    exact mapM_map_eq_ok fun e he => map_eq_ok.mpr ⟨e.2, h e.2 (List.mem_map_of_mem he), rfl⟩
  obtain ⟨l, hl, hperm⟩ := exists_mapM_of_perm hperm hwritten
  rw [hes', table]
  exact bind_eq_ok.mpr ⟨l, hl, congrArg Except.ok (Table.ofList_of_perm hperm)⟩

end

/-! ## What every value read satisfies -/

/-- Every value that a layout makes satisfies a property. -/
def Layout.Gives (l : Layout α) (P : α → Prop) : Prop :=
  ∀ m a, l.value? m = some a → P a

namespace Layout.Gives

variable {P : β → Prop}

theorem map {f : α → β} {l : Layout α} (h : l.Gives fun a => P (f a)) : (f <$> l).Gives P := by
  intro m b hb
  rw [value?_map] at hb
  obtain ⟨a, ha, rfl⟩ := Option.map_eq_some_iff.mp hb
  exact h m a ha

/-- Field by field: the property may speak of the fields before. -/
theorem seq {f : Layout (α → β)} {l : Layout α} (h : f.Gives fun f => l.Gives fun a => P (f a)) :
    (f <*> l).Gives P := by
  intro m b hb
  rw [value?_seq] at hb
  obtain ⟨f, hf, hb⟩ := Option.bind_eq_some_iff.mp hb
  obtain ⟨a, ha, rfl⟩ := Option.map_eq_some_iff.mp hb
  exact h m f hf m a ha

theorem field {name : String} {read : Json → Decoded β} (h : ∀ j b, read j = .ok b → P b) :
    (Layout.field name read).Gives P := by
  intro m b hb
  rw [value?_field] at hb
  split at hb
  · exact h _ b (toOption_eq_some.mp hb)
  · cases hb

theorem defaulted {name : String} {default : β} {read : Json → Decoded β} (hdefault : P default)
    (h : ∀ j b, read j = .ok b → P b) : (Layout.defaulted name default read).Gives P := by
  intro m b hb
  rw [value?_defaulted] at hb
  split at hb
  · exact Option.some.inj hb ▸ hdefault
  · exact h _ b (toOption_eq_some.mp hb)
  · cases hb

/-- A field that anything may stand in. -/
theorem any {l : Layout β} (h : ∀ b, P b) : l.Gives P :=
  fun _ b _ => h b

theorem ofJson {l : Layout β} (h : l.Gives P) {j : Json} {b : β} (hb : l.ofJson j = .ok b) :
    P b := by
  obtain ⟨m, hm⟩ := exists_value? hb
  exact h m b hm

end Layout.Gives

/-- A tagged record has one of the layouts. -/
theorem tagged_forall {tag : String} {buffered : Bool} {names : List String}
    {layout : String → Layout α} {P : α → Prop} (h : ∀ name, (layout name).Gives P) {j : Json}
    {a : α} (ha : tagged tag buffered names layout j = .ok a) : P a := by
  have hvariant : variantOf tag buffered names layout j = .ok a := by
    rw [tagged] at ha
    split at ha
    case isTrue hb => rwa [hb]
    case isFalse hb =>
      rw [whole] at ha
      split at ha
      · rwa [Bool.eq_false_iff.mpr hb]
      · cases ha
  cases j with
  | object es =>
    rw [variantOf] at hvariant
    split at hvariant
    · obtain ⟨name, -, hread⟩ := bind_eq_ok.mp hvariant
      exact h name _ a (Gathered.decoded_eq_ok.mp hread)
    · cases hvariant
  | array items =>
    cases items with
    | nil => cases hvariant
    | cons t items =>
      obtain ⟨name, -, hread⟩ := bind_eq_ok.mp hvariant
      exact (h name).ofJson (show (layout name).ofJson (.array items) = .ok a from hread)
  | null | bool | number | text | unreadable => cases hvariant

theorem list_forall {read : Json → Decoded α} {P : α → Prop} (h : ∀ j a, read j = .ok a → P a)
    {j : Json} {l : List α} (hl : list read j = .ok l) : ∀ a ∈ l, P a := by
  cases j with
  | array items =>
    intro a ha
    obtain ⟨i, -, hi⟩ := exists_of_mapM hl a ha
    exact h i a hi
  | null | bool | number | text | object | unreadable => cases hl

theorem pair_snd {first : Json → Decoded α} {second : Json → Decoded β} {P : β → Prop}
    (h : ∀ j b, second j = .ok b → P b) {j : Json} {x : α × β} (hx : pair first second j = .ok x) :
    P x.2 := by
  rw [pair.eq_def] at hx
  split at hx
  · obtain ⟨a, -, hx⟩ := bind_eq_ok.mp hx
    obtain ⟨b, hb, hx⟩ := bind_eq_ok.mp hx
    split at hx
    · obtain rfl := Except.ok.inj hx
      exact h _ b hb
    · cases hx
  · obtain ⟨a, -, hx⟩ := bind_eq_ok.mp hx
    cases hx
  · cases hx

theorem table_forall {read : Json → Decoded α} {P : α → Prop} (h : ∀ j a, read j = .ok a → P a)
    {j : Json} {t : Table α} (ht : table read j = .ok t) : ∀ v ∈ t.values, P v := by
  cases j with
  | object es =>
    intro v hv
    obtain ⟨k, hk⟩ := Table.mem_values.mp hv
    obtain ⟨l, hl, ht⟩ := bind_eq_ok.mp ht
    obtain rfl := Except.ok.inj ht
    obtain ⟨e, -, he⟩ := exists_of_mapM hl _ (Table.mem_of_get?_ofList hk)
    obtain ⟨w, hw, hpair⟩ := map_eq_ok.mp he
    exact (Prod.mk.inj hpair).2 ▸ h _ w hw
  | null | bool | number | text | array | unreadable => cases ht

end Monomorph.Wire
