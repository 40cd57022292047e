/-!
# Table — finite maps from text keys, listed in key order

A `Table` is its list of entries, strictly increasing by key.  Two tables with the same look-ups are
therefore equal (`Table.ext_get?`), and every traversal visits the keys in code-point order.
-/

namespace Monomorph

/-- A finite map: its entries, strictly increasing by key. -/
structure Table (α : Type) where
  entries : List (String × α)
  sorted : entries.Pairwise (fun a b => a.1 < b.1)

namespace Table

variable {α β : Type}

instance [DecidableEq α] : DecidableEq (Table α) := fun s t =>
  decidable_of_iff (s.entries = t.entries)
    ⟨fun h => by cases s; cases t; simp_all, fun h => h ▸ rfl⟩

instance : EmptyCollection (Table α) := ⟨⟨[], .nil⟩⟩

instance : Inhabited (Table α) := ⟨∅⟩

/-! ## Entries of a table

The operations on bare entry lists; each keeps a strictly increasing list strictly increasing. -/

namespace Entries

/-- Put a value under a key, in place of what was there. -/
def insert (k : String) (v : α) : List (String × α) → List (String × α)
  | [] => [(k, v)]
  | e :: r =>
      if k < e.1 then (k, v) :: e :: r
      else if k = e.1 then (k, v) :: r
      else e :: insert k v r

theorem mem_insert {k : String} {v : α} {l : List (String × α)} {e : String × α} :
    e ∈ insert k v l → e = (k, v) ∨ e ∈ l := by
  induction l with
  | nil => simp [insert]
  | cons d r ih => grind [insert]

theorem insert_sorted (k : String) (v : α) {l : List (String × α)}
    (h : l.Pairwise (fun a b => a.1 < b.1)) :
    (insert k v l).Pairwise (fun a b => a.1 < b.1) := by
  induction l with
  | nil => simp [insert]
  | cons d r ih =>
    have hd := List.pairwise_cons.1 h
    rw [insert]
    split
    case isTrue hk =>
      refine List.pairwise_cons.2 ⟨fun e he => ?_, h⟩
      rcases List.mem_cons.1 he with rfl | he
      · exact hk
      · exact String.lt_trans hk (hd.1 e he)
    case isFalse hk =>
      split
      case isTrue hk' => exact List.pairwise_cons.2 ⟨fun e he => hk' ▸ hd.1 e he, hd.2⟩
      case isFalse hk' =>
        refine List.pairwise_cons.2 ⟨fun e he => ?_, ih hd.2⟩
        rcases mem_insert he with rfl | he
        · grind
        · exact hd.1 e he

end Entries

/-! ## Operations -/

/-- The value under a key. -/
def get? (t : Table α) (k : String) : Option α :=
  t.entries.lookup k

/-- Whether a key has a value. -/
def contains (t : Table α) (k : String) : Bool :=
  (t.get? k).isSome

/-- Put a value under a key, in place of what was there. -/
def insert (t : Table α) (k : String) (v : α) : Table α :=
  ⟨Entries.insert k v t.entries, Entries.insert_sorted k v t.sorted⟩

/-- Put a value under a key that has none; a key that has one keeps it. -/
def insertNew (t : Table α) (k : String) (v : α) : Table α :=
  if t.contains k then t else t.insert k v

/-- Drop a key. -/
def erase (t : Table α) (k : String) : Table α :=
  ⟨t.entries.filter (fun e => e.1 ≠ k), t.sorted.filter _⟩

/-- Drop the entries a test refuses. -/
def filter (t : Table α) (p : String → α → Bool) : Table α :=
  ⟨t.entries.filter (fun e => p e.1 e.2), t.sorted.filter _⟩

/-- Change every value, keys as they are. -/
def mapWithKey (t : Table α) (f : String → α → β) : Table β :=
  ⟨t.entries.map (fun e => (e.1, f e.1 e.2)),
    List.pairwise_map.2 (t.sorted.imp fun h => h)⟩

/-- Change every value, keys as they are. -/
def map (t : Table α) (f : α → β) : Table β :=
  t.mapWithKey fun _ => f

/-- Change the value under one key, if it has one. -/
def modify (t : Table α) (k : String) (f : α → α) : Table α :=
  t.mapWithKey fun k' v => if k' = k then f v else v

/-- The keys, in order. -/
def keys (t : Table α) : List String :=
  t.entries.map (·.1)

/-- The values, in the order of their keys. -/
def values (t : Table α) : List α :=
  t.entries.map (·.2)

def size (t : Table α) : Nat :=
  t.entries.length

/-- The table of a list of entries — of equal keys the last wins. -/
def ofList (l : List (String × α)) : Table α :=
  l.foldl (fun t e => t.insert e.1 e.2) ∅

/-! ## Looking up -/

@[simp] theorem get?_empty (k : String) : (∅ : Table α).get? k = none := rfl

theorem Entries.lookup_insert (k : String) (v : α) (l : List (String × α)) (k' : String) :
    (Entries.insert k v l).lookup k' = if k' = k then some v else l.lookup k' := by
  induction l with
  | nil => grind [Entries.insert]
  | cons d r ih => obtain ⟨d, w⟩ := d; grind [Entries.insert]

theorem get?_insert (t : Table α) (k : String) (v : α) (k' : String) :
    (t.insert k v).get? k' = if k' = k then some v else t.get? k' :=
  Entries.lookup_insert k v t.entries k'

@[simp] theorem get?_insert_self (t : Table α) (k : String) (v : α) :
    (t.insert k v).get? k = some v := by simp [get?_insert]

theorem get?_insert_ne (t : Table α) {k k' : String} (v : α) (h : k' ≠ k) :
    (t.insert k v).get? k' = t.get? k' := by simp [get?_insert, h]

theorem Entries.lookup_eq_none_of_lt {k : String} :
    ∀ {l : List (String × α)}, (∀ e ∈ l, k < e.1) → l.lookup k = none
  | [], _ => rfl
  | d :: r, h => by
      have h0 := h d (by simp)
      have := lookup_eq_none_of_lt fun e he => h e (List.mem_cons_of_mem _ he)
      grind

/-- **A table is its look-ups** — the entries are strictly increasing, so nothing else is kept. -/
theorem ext_get? {s t : Table α} (h : ∀ k, s.get? k = t.get? k) : s = t := by
  suffices ∀ (l m : List (String × α)), l.Pairwise (fun a b => a.1 < b.1) →
      m.Pairwise (fun a b => a.1 < b.1) → (∀ k, l.lookup k = m.lookup k) → l = m by
    cases s; cases t
    congr 1
    exact this _ _ ‹_› ‹_› h
  intro l
  induction l with
  | nil =>
    rintro (_ | ⟨⟨k, v⟩, m⟩) _ _ h
    · rfl
    · have := h k
      simp at this
  | cons d l ih =>
    obtain ⟨k, v⟩ := d
    rintro (_ | ⟨⟨k', v'⟩, m⟩) hl hm h
    · have := h k
      simp at this
    · rw [List.pairwise_cons] at hl hm
      have hk : k = k' := by
        have hlt : ¬ k < k' := fun hlt => by
          have hn : m.lookup k = none :=
            Entries.lookup_eq_none_of_lt fun e he => String.lt_trans hlt (hm.1 e he)
          have := h k
          grind
        have hgt : ¬ k' < k := fun hlt => by
          have hn : l.lookup k' = none :=
            Entries.lookup_eq_none_of_lt fun e he => String.lt_trans hlt (hl.1 e he)
          have := h k'
          grind
        grind
      subst hk
      have hv : v = v' := by simpa using h k
      subst hv
      congr 1
      refine ih m hl.2 hm.2 fun k' => ?_
      by_cases hk : k' = k
      · subst hk
        rw [Entries.lookup_eq_none_of_lt hl.1, Entries.lookup_eq_none_of_lt hm.1]
      · have := h k'
        grind

end Table

end Monomorph
