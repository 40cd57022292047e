import Monomorph.Body.Ssa
import Monomorph.Proofs.Body.Assigned
import Monomorph.Proofs.Ty.Separated

/-!
# Ssa/Names — the names conversion gives out

The versions of a base name `b` are `b` itself and the names `b$n`.  If no name in use reads like a
version of another (`Apart`), versions of different bases differ (`Versioned.base_eq`), so a write
to one base never disturbs another.  That all names given out differ is a matter of the counters
alone: `Naming.Issues` says what a naming may do — keep a base nobody had defined, or count one up —
and whatever it does, **no name is given out twice** (`Naming.Issues.nodup`).  How far a counter can get
is told in `Blocks.toSsa_counted`.
-/

namespace Monomorph

/-- A name is that of some version of a base. -/
def Versioned (base name : String) : Prop :=
  name = base ∨ ∃ n : Nat, name = base ++ "$" ++ toString n

/-- No name reads like a later version of another. -/
def Apart (known : String → Prop) : Prop :=
  ∀ b c, known b → known c → ∀ n : Nat, b ≠ c ++ "$" ++ toString n

/-! ## Reading a version -/

/-- Digits after a dollar sign can be told from what is before it. -/
theorem append_dollar_inj {b c : String} {n k : Nat}
    (h : b ++ "$" ++ toString n = c ++ "$" ++ toString k) : b = c ∧ n = k := by
  have chars := congrArg String.toList h
  rw [String.toList_append, String.toList_append, String.toList_append, String.toList_append,
    show ("$" : String).toList = ['$'] from rfl, List.append_assoc, List.append_assoc] at chars
  obtain ⟨hb, hn⟩ := digits_read (by decide) chars
  exact ⟨String.toList_inj.mp hb, hn⟩

theorem Versioned.self (b : String) : Versioned b b := .inl rfl

theorem Versioned.numbered (b : String) (n : Nat) : Versioned b (b ++ "$" ++ toString n) :=
  .inr ⟨n, rfl⟩

/-- **Versions of different bases differ.** -/
theorem Versioned.base_eq {known : String → Prop} (ha : Apart known) {b c name : String}
    (hb : known b) (hc : known c) (h : Versioned b name) (h' : Versioned c name) : b = c := by
  rcases h with rfl | ⟨n, rfl⟩ <;> rcases h' with h' | ⟨k, h'⟩
  · exact h'
  · exact absurd h' (ha _ _ hb hc k)
  · exact absurd h'.symm (ha _ _ hc hb n)
  · exact (append_dollar_inj h').1

/-- The only version of a base that is a name in use is the base. -/
theorem Versioned.eq_of_known {known : String → Prop} (ha : Apart known) {b name : String}
    (hb : known b) (hn : known name) (h : Versioned b name) : name = b := by
  rcases h with h | ⟨n, h⟩
  · exact h
  · exact absurd h (ha _ _ hn hb n)

/-! ## Names given out in turn -/

namespace Naming

/-- How many versions of a base are numbered. -/
def count (s : Naming) (b : String) : Nat :=
  (s.made.get? b).getD 0

/-- From one naming to another, giving out the names listed. -/
inductive Issues (known : String → Prop) : Naming → List String → Naming → Prop
  | done (s : Naming) : Issues known s [] s
  | flag {s t : Naming} {names : List String} (c : Bool)
      (h : Issues known { s with changed := c } names t) : Issues known s names t
  | keep {s t : Naming} {b : String} {names : List String} (hk : known b) (hb : b ∉ s.defined)
      (h : Issues known { s with defined := b :: s.defined } names t) :
      Issues known s (b :: names) t
  | count {s t : Naming} {b : String} {names : List String} (hk : known b)
      (h : Issues known (s.fresh b).2 names t) : Issues known s ((s.fresh b).1 :: names) t

variable {known : String → Prop}

theorem Issues.append {s t u : Naming} {names names' : List String}
    (h : Issues known s names t) (h' : Issues known t names' u) :
    Issues known s (names ++ names') u := by
  induction h with
  | done => exact h'
  | flag c _ ih => exact .flag c (ih h')
  | keep hk hb _ ih => exact .keep hk hb (ih h')
  | count hk _ ih => exact .count hk (ih h')

theorem fresh_eq (s : Naming) (b : String) :
    (s.fresh b).1 = b ++ "$" ++ toString (s.count b + 1) := rfl

theorem count_fresh (s : Naming) (b c : String) :
    (s.fresh b).2.count c = if c = b then s.count b + 1 else s.count c := by
  change ((s.made.insert b (s.count b + 1)).get? c).getD 0 = _
  rw [Table.get?_insert]
  by_cases h : c = b <;> simp [h, count]

/-- A name still to be given out: a base without a definition, or a number not reached. -/
def New (known : String → Prop) (s : Naming) (name : String) : Prop :=
  known name ∧ name ∉ s.defined ∨
    ∃ b n, known b ∧ s.count b < n ∧ name = b ++ "$" ++ toString n

theorem New.of_keep {s : Naming} {b name : String}
    (h : New known { s with defined := b :: s.defined } name) : New known s name :=
  h.imp_left fun ⟨hk, hd⟩ => ⟨hk, fun hs => hd (List.mem_cons_of_mem _ hs)⟩

theorem New.of_count {s : Naming} {b name : String} (h : New known (s.fresh b).2 name) :
    New known s name := by
  rcases h with h | ⟨c, n, hc, hn, rfl⟩
  · exact .inl h
  · refine .inr ⟨c, n, hc, ?_, rfl⟩
    rw [count_fresh] at hn
    split at hn
    · subst_vars
      omega
    · exact hn

/-- **No name is given out twice**, and none that had been given out before. -/
theorem Issues.nodup_and_new (ha : Apart known) {s t : Naming} {names : List String}
    (h : Issues known s names t) : names.Nodup ∧ ∀ x ∈ names, New known s x := by
  induction h with
  | done => simp
  | flag c _ ih => exact ih
  | @keep s t b names hk hb _ ih =>
    refine ⟨List.nodup_cons.mpr ⟨fun hx => ?_, ih.1⟩, ?_⟩
    · rcases ih.2 b hx with ⟨-, hd⟩ | ⟨c, n, hc, -, he⟩
      · exact hd (by simp)
      · exact ha b c hk hc n he
    · intro x hx
      rcases List.mem_cons.mp hx with rfl | hx
      · exact .inl ⟨hk, hb⟩
      · exact (ih.2 x hx).of_keep
  | @count s t b names hk _ ih =>
    refine ⟨List.nodup_cons.mpr ⟨fun hx => ?_, ih.1⟩, ?_⟩
    · rcases ih.2 _ hx with ⟨hx, -⟩ | ⟨c, n, hc, hn, he⟩
      · exact ha _ b hx hk _ rfl
      · rw [fresh_eq] at he
        obtain ⟨rfl, rfl⟩ := append_dollar_inj he
        rw [count_fresh, if_pos rfl] at hn
        omega
    · intro x hx
      rcases List.mem_cons.mp hx with rfl | hx
      · exact .inr ⟨b, s.count b + 1, hk, Nat.lt_succ_self _, rfl⟩
      · exact (ih.2 x hx).of_count

theorem Issues.nodup (ha : Apart known) {s t : Naming} {names : List String}
    (h : Issues known s names t) : names.Nodup :=
  (h.nodup_and_new ha).1

/-- A name in use that has a definition is not given out. -/
theorem Issues.not_mem_of_defined (ha : Apart known) {s t : Naming} {names : List String}
    (h : Issues known s names t) {p : String} (hp : known p) (hd : p ∈ s.defined) :
    p ∉ names := by
  intro hx
  rcases (h.nodup_and_new ha).2 p hx with ⟨-, hn⟩ | ⟨b, n, hb, -, he⟩
  · exact hn hd
  · exact ha p b hp hb n he

/-! ## Definitions -/

theorem define_of_mem {s : Naming} {r : Register} (h : r.base ∈ s.defined) :
    s.define r = (r.withName (s.fresh r.base).1, (s.fresh r.base).2) := by
  rw [define, if_pos h]

theorem define_of_notMem {s : Naming} {r : Register} (h : r.base ∉ s.defined) :
    s.define r = (r, { s with defined := r.base :: s.defined }) := by
  rw [define, if_neg h]

/-- **What a definition does**: it gives out one name, a version of the register's base, and writes
the register under it. -/
theorem define_spec (s : Naming) {r : Register} (hr : r.name = r.base) (hk : known r.base) :
    Issues known s [(s.define r).1.name] (s.define r).2 ∧
      (s.define r).1 = r.withName (s.define r).1.name ∧
      Versioned r.base (s.define r).1.name := by
  by_cases hd : r.base ∈ s.defined
  · rw [define_of_mem hd]
    refine ⟨?_, by rw [Register.name_withName], ?_⟩
    · rw [Register.name_withName]
      exact .count hk (.done _)
    · rw [Register.name_withName]
      exact .numbered _ _
  · rw [define_of_notMem hd, hr]
    exact ⟨.keep hk hd (.done _), hr ▸ (Register.withName_name r).symm, .self _⟩

end Naming

end Monomorph
