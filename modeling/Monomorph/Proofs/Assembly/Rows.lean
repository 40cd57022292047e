import Mathlib.Logic.Relation
import Monomorph.Assembly.Subtypes
import Monomorph.Proofs.Listing.Order
import Monomorph.Proofs.Result
import Monomorph.Proofs.Table.Lookup

/-!
# Assembly/Rows — the rows of a table of supertypes

A row is its type and the rows of the supertypes it names, so a table made row by row lists with
every type what it reaches (`Rows.run`), and it can be made just if each type comes after those it
names (`Ordered`).  Rows stand in order, and halving a row in order finds what is in it
(`findsInRow_iff`).
-/

namespace Monomorph.Assembly

open Relation

/-! ## A row -/

theorem mem_addAll {l extra : List String} {s : String} :
    s ∈ addAll l extra ↔ s ∈ l ∨ s ∈ extra := by
  induction extra generalizing l with
  | nil => simp [addAll]
  | cons t extra ih =>
    rw [addAll, List.foldl_cons]
    refine ih.trans ?_
    rw [Listing.mem_insertNewBy_id, List.mem_cons, or_assoc, or_left_comm]

theorem addAll_sorted {l : List String} (h : l.Pairwise (· < ·)) (extra : List String) :
    (addAll l extra).Pairwise (· < ·) := by
  induction extra generalizing l with
  | nil => exact h
  | cons t extra ih =>
    have hnext : (Listing.insertNewBy id t l).Pairwise fun a b => id a < id b :=
      Listing.insertNewBy_sorted t h
    exact ih hnext

/-- Halving a row in order never loses the place of a text. -/
theorem halve_eq {row : List String} {s : String} {i : Nat} (h : row.Pairwise (· < ·))
    (hi : row[i]? = some s) {base size : Nat} (hbase : base ≤ i) (hsize : i < base + size) :
    halve row s base size = i := by
  fun_induction halve row s base size with
  | case1 base size hlt half middle above ih =>
    have hmiddle : middle = base + size / 2 := rfl
    have hhalf : half = size / 2 := rfl
    obtain ⟨hil, rfl⟩ := List.getElem?_eq_some_iff.mp hi
    -- a text above the middle stands behind it, any other in front
    by_cases hle : middle ≤ i
    · have hbelow : above = false := by
        have hml : middle < row.length := by omega
        have hnot : ¬ row[i] < row[middle] := by
          rcases Nat.eq_or_lt_of_le hle with heq | hlt
          · simp only [heq]
            exact String.lt_irrefl _
          · exact String.lt_asymm (List.pairwise_iff_getElem.mp h middle i hml hil hlt)
        simp only [above, List.getElem?_eq_getElem hml, decide_eq_false hnot]
      simp only [hbelow, Bool.false_eq_true, ↓reduceDIte, if_false] at ih ⊢
      exact ih hle (by omega)
    · have habove : above = true := by
        simp only [above]
        split
        case h_1 k hk =>
          obtain ⟨hml, rfl⟩ := List.getElem?_eq_some_iff.mp hk
          exact decide_eq_true (List.pairwise_iff_getElem.mp h i middle hil hml (by omega))
        case h_2 => rfl
      simp only [habove, ↓reduceDIte, if_true] at ih ⊢
      exact ih hbase (by omega)
  | case2 base size hle => omega

/-- **Halving a row in order finds what is in it.** -/
theorem findsInRow_iff {row : List String} (h : row.Pairwise (· < ·)) {s : String} :
    findsInRow row s = true ↔ s ∈ row := by
  rw [findsInRow, decide_eq_true_iff]
  constructor
  · exact List.mem_of_getElem?
  · intro hs
    obtain ⟨i, hi⟩ := List.mem_iff_getElem?.mp hs
    have hil := (List.getElem?_eq_some_iff.mp hi).1
    rwa [halve_eq h hi (Nat.zero_le i) (by omega)]

/-- A listing with the row of one more type. -/
def addRow (table : Table (List String)) (missing : String → Fault) (l : List String)
    (p : String) : Except Fault (List String) :=
  match table.get? p with
  | some row => .ok (addAll l row)
  | none => .error (missing p)

variable {table : Table (List String)} {missing : String → Fault} {key : String}
  {provides : List String}

theorem supertypes_eq_foldlM : supertypes table missing key provides
    = provides.foldlM (addRow table missing) [key] := rfl

theorem addRow_eq_ok {l row : List String} {p : String} :
    addRow table missing l p = .ok row ↔ ∃ r, table.get? p = some r ∧ row = addAll l r := by
  rw [addRow]
  cases table.get? p with
  | none => simp
  | some r => simp [eq_comm]

/-- **A row has what the rows of the types it names have**, and stands in order. -/
theorem foldlM_addRow {l row : List String}
    (h : provides.foldlM (addRow table missing) l = .ok row) :
    (∀ p ∈ provides, table.contains p = true) ∧
      (∀ s, s ∈ row ↔ s ∈ l ∨ ∃ p ∈ provides, ∃ r, table.get? p = some r ∧ s ∈ r) ∧
      (l.Pairwise (· < ·) → row.Pairwise (· < ·)) := by
  induction provides generalizing l with
  | nil =>
    obtain rfl := Except.ok.inj h
    exact ⟨by simp, by simp, id⟩
  | cons p provides ih =>
    rw [List.foldlM_cons] at h
    obtain ⟨l', hl', h⟩ := bind_eq_ok.mp h
    obtain ⟨r, hr, rfl⟩ := addRow_eq_ok.mp hl'
    obtain ⟨hall, hmem, hsorted⟩ := ih h
    refine ⟨List.forall_mem_cons.mpr ⟨Table.contains_of_get? hr, hall⟩, fun s => ?_,
      fun hl => hsorted (addAll_sorted hl r)⟩
    rw [hmem, mem_addAll, List.exists_mem_cons_iff, or_assoc]
    simp [hr]

theorem foldlM_addRow_isOk (h : ∀ p ∈ provides, table.contains p = true) (l : List String) :
    ∃ row, provides.foldlM (addRow table missing) l = .ok row := by
  induction provides generalizing l with
  | nil => exact ⟨l, rfl⟩
  | cons p provides ih =>
    obtain ⟨r, hr⟩ := Table.contains_iff.mp (h p List.mem_cons_self)
    obtain ⟨row, hrow⟩ := ih (fun q hq => h q (List.mem_cons_of_mem _ hq)) (addAll l r)
    exact ⟨row, bind_eq_ok.mpr ⟨_, addRow_eq_ok.mpr ⟨r, hr, rfl⟩, hrow⟩⟩

/-! ## Row by row -/

/-- Each type comes after those it names: those before are `before`, to start with. -/
def Ordered : List String → List (String × List String) → Prop
  | _, [] => True
  | before, (key, provides) :: rest =>
      (∀ p ∈ provides, p ∈ before) ∧ Ordered (before ++ [key]) rest

theorem ordered_append {before : List String} {l l' : List (String × List String)} :
    Ordered before (l ++ l') ↔ Ordered before l ∧ Ordered (before ++ l.map (·.1)) l' := by
  induction l generalizing before with
  | nil => simp [Ordered]
  | cons e l ih =>
    rw [List.cons_append, Ordered, Ordered, ih, and_assoc, List.map_cons, List.append_assoc]
    rfl

theorem ordered_iff {before : List String} {l : List (String × List String)} :
    Ordered before l ↔ ∀ first e rest, l = first ++ e :: rest →
      ∀ p ∈ e.2, p ∈ before ++ first.map (·.1) := by
  constructor
  · rintro h first ⟨key, provides⟩ rest rfl
    exact ((ordered_append.mp h).2).1
  · induction l generalizing before with
    | nil => exact fun _ => trivial
    | cons e l ih =>
      intro h
      refine ⟨by simpa using h [] e l rfl, ih fun first d rest hl p hp => ?_⟩
      have := h (e :: first) d rest (by rw [hl, List.cons_append]) p hp
      rwa [List.map_cons, List.append_cons] at this

/-- The rows of certain types: what each reaches, in order. -/
structure Rows (edge : String → String → Prop) (keys : List String) (table : Table (List String)) :
    Prop where
  contains : ∀ k, table.contains k = true ↔ k ∈ keys
  sorted : ∀ k row, table.get? k = some row → row.Pairwise (· < ·)
  mem : ∀ k row, table.get? k = some row → ∀ s, s ∈ row ↔ ReflTransGen edge k s

variable {edge : String → String → Prop} {keys : List String}

theorem Rows.empty (edge : String → String → Prop) : Rows edge [] ∅ :=
  ⟨by simp [Table.contains], by simp, by simp⟩

/-- A type comes after those it names, or there is no row for it. -/
theorem Rows.next (h : Rows edge keys table)
    (hedge : ∀ s, edge key s ↔ s ∈ provides) {row : List String}
    (hrow : supertypes table missing key provides = .ok row) :
    (∀ p ∈ provides, p ∈ keys) ∧ Rows edge (keys ++ [key]) (table.insert key row) := by
  rw [supertypes_eq_foldlM] at hrow
  obtain ⟨hall, hmem, hsorted⟩ := foldlM_addRow hrow
  have hreach : ∀ s, s ∈ row ↔ ReflTransGen edge key s := fun s => by
    rw [hmem, ReflTransGen.cases_head_iff, List.mem_singleton, eq_comm]
    refine or_congr Iff.rfl (exists_congr fun p => ?_)
    rw [hedge]
    refine and_congr_right fun hp => ?_
    obtain ⟨r, hr⟩ := Table.contains_iff.mp (hall p hp)
    simp [hr, h.mem p r hr]
  refine ⟨fun p hp => (h.contains p).mp (hall p hp), fun k => ?_, fun k r hk => ?_,
    fun k r hk => ?_⟩
  · rw [Table.contains_insert, Bool.or_eq_true, decide_eq_true_iff, h.contains, List.mem_append,
      List.mem_singleton, or_comm]
  all_goals
    rw [Table.get?_insert] at hk
    split at hk
  case refine_3.isTrue heq =>
    obtain rfl := Option.some.inj hk
    exact heq ▸ hreach
  case refine_3.isFalse => exact h.mem k r hk
  case refine_2.isTrue =>
    obtain rfl := Option.some.inj hk
    exact hsorted (List.pairwise_singleton ..)
  case refine_2.isFalse => exact h.sorted k r hk

/-- **A table made row by row has what each type reaches**, and each type comes after those it
names. -/
theorem Rows.run {missing : String → String → Fault} {l : List (String × List String)}
    {table' : Table (List String)} (h : Rows edge keys table)
    (hedge : ∀ e ∈ l, ∀ s, edge e.1 s ↔ s ∈ e.2) (hrun : addRows missing l table = .ok table') :
    Ordered keys l ∧ Rows edge (keys ++ l.map (·.1)) table' := by
  induction l generalizing keys table with
  | nil =>
    obtain rfl := Except.ok.inj hrun
    exact ⟨trivial, by rwa [List.map_nil, List.append_nil]⟩
  | cons e l ih =>
    obtain ⟨key, provides⟩ := e
    obtain ⟨hfirst, hrest⟩ := List.forall_mem_cons.mp hedge
    rw [addRows] at hrun
    obtain ⟨row, hrow, hrun⟩ := bind_eq_ok.mp hrun
    obtain ⟨hnamed, hnext⟩ := h.next hfirst hrow
    obtain ⟨hordered, hrows⟩ := ih hnext hrest hrun
    rw [List.append_assoc] at hrows
    exact ⟨⟨hnamed, hordered⟩, hrows⟩

/-- Types in order all get a row. -/
theorem Rows.run_isOk (missing : String → String → Fault) {l : List (String × List String)}
    (h : Rows edge keys table) (hedge : ∀ e ∈ l, ∀ s, edge e.1 s ↔ s ∈ e.2)
    (hordered : Ordered keys l) : ∃ table', addRows missing l table = .ok table' := by
  induction l generalizing keys table with
  | nil => exact ⟨table, rfl⟩
  | cons e l ih =>
    obtain ⟨key, provides⟩ := e
    obtain ⟨hfirst, hrest⟩ := List.forall_mem_cons.mp hedge
    obtain ⟨row, hrow⟩ : ∃ row, provides.foldlM (addRow table (missing key)) [key] = .ok row :=
      foldlM_addRow_isOk (fun p hp => (h.contains p).mpr (hordered.1 p hp)) [key]
    obtain ⟨table', htable'⟩ := ih (h.next hfirst hrow).2 hrest hordered.2
    exact ⟨table', bind_eq_ok.mpr ⟨row, hrow, htable'⟩⟩

/-- What is named stands before. -/
theorem Ordered.idxOf_lt {l : List (String × List String)} (h : Ordered [] l)
    (hnodup : (l.map (·.1)).Nodup) {e : String × List String} (he : e ∈ l) {p : String}
    (hp : p ∈ e.2) : (l.map (·.1)).idxOf p < (l.map (·.1)).idxOf e.1 := by
  obtain ⟨first, rest, rfl⟩ := List.append_of_mem he
  have hbefore := ordered_iff.mp h first e rest rfl p hp
  rw [List.nil_append] at hbefore
  have hsplit : (first ++ e :: rest).map (·.1) = first.map (·.1) ++ e.1 :: rest.map (·.1) := by
    rw [List.map_append, List.map_cons]
  exact Listing.idxOf_lt_of_split hsplit hnodup hbefore

end Monomorph.Assembly
