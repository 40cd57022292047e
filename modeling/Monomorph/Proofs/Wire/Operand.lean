import Monomorph.Proofs.Wire.Record
import Monomorph.Wire.Operand

/-!
# Wire/Operand — the literals that are read back

A number is written as its digits and read by its last letter, so digits that end in such a letter,
or have a point where none is expected, are taken for another number.  **The literals read back are
those of which that does not hold** (`Literal.WireSafe`): they are read back
(`operand_rearranged`), and every literal read is one of them (`operand_wireSafe`).
-/

namespace Monomorph

/-- What the digits of a literal must not look like if it is to be read back. -/
def Literal.WireSafe : Literal → Prop
  | .int d => '.' ∉ d.toList ∧ d.toList.getLast? ≠ some 'n' ∧ d.toList.getLast? ≠ some 'f'
  | .float d => ¬ ('.' ∈ d.toList ∧ d.toList.getLast? = some 'n')
  | .none | .bool _ | .bigInt _ | .string _ | .regex _ => True

def Operand.WireSafe : Operand → Prop
  | .literal l => l.WireSafe
  | .register _ => True

namespace Wire

/-! ## Numbers -/

theorem readNumeral_int {d : String} (h : (Literal.int d).WireSafe) : readNumeral d = .int d := by
  rw [readNumeral, if_neg h.2.1, if_neg h.1, if_neg h.2.2]

/-- A letter put behind the digits is the last one. -/
theorem toList_append_letter (d : String) {s : String} {c : Char} (hs : s.toList = [c]) :
    (d ++ s).toList.getLast? = some c ∧ (d ++ s).toList.dropLast = d.toList := by
  rw [String.toList_append, hs]
  exact ⟨List.getLast?_concat, List.dropLast_concat⟩

theorem readNumeral_bigInt (d : String) : readNumeral (d ++ "n") = .bigInt d := by
  obtain ⟨hlast, hinit⟩ := @toList_append_letter d "n" 'n' rfl
  rw [readNumeral, if_pos hlast, hinit, String.ofList_toList]

theorem readNumeral_float {d : String} (h : (Literal.float d).WireSafe) :
    readNumeral (if '.' ∈ d.toList then d else d ++ "f") = .float d := by
  by_cases hpoint : '.' ∈ d.toList
  · rw [if_pos hpoint, readNumeral, if_neg fun hlast => h ⟨hpoint, hlast⟩, if_pos hpoint]
  · obtain ⟨hlast, hinit⟩ := @toList_append_letter d "f" 'f' rfl
    have hnone : '.' ∉ (d ++ "f").toList := by
      rw [String.toList_append, List.mem_append, not_or]
      exact ⟨hpoint, by decide⟩
    rw [if_neg hpoint, readNumeral, if_neg (by rw [hlast]; decide), if_neg hnone, if_pos hlast,
      hinit, String.ofList_toList]

/-- Whatever a number is read as is read back. -/
theorem readNumeral_wireSafe (s : String) : (readNumeral s).WireSafe := by
  rw [readNumeral]
  split
  · trivial
  · next hn =>
    split
    · exact fun h => hn h.2
    · next hpoint =>
      split
      · intro h
        rw [String.toList_ofList] at h
        exact hpoint (List.dropLast_subset _ h.1)
      · next hf => exact ⟨hpoint, hn, hf⟩

/-- Digits that end like a big integer are taken for one. -/
example : readNumeral "7n" = .bigInt "7" := by decide

/-! ## What is written is plain -/

theorem plain_texts (l : List String) : (Json.texts l).Plain :=
  .array (List.forall_mem_map.mpr fun s _ => .text s)

theorem plain_ofNat (n : Nat) : (Json.ofNat n).Plain :=
  .number _

theorem plain_ofPosition (p : Position) : (ofPosition p).Plain :=
  .object (by simp) (by simp [plain_ofNat])

theorem plain_ofTemp (t : Temp) : (ofTemp t).Plain :=
  .object (by simp) (by simp [plain_ofNat, Json.Plain.text])

theorem plain_ofVar (v : Var) : (ofVar v).Plain :=
  .object (by simp) (by simp [Json.Plain.text])

theorem plain_ofRegister (r : Register) : (ofRegister r).Plain := by
  cases r
  · exact plain_ofTemp _
  · exact plain_ofVar _

theorem plain_ofLiteral (l : Literal) : (ofLiteral l).Plain := by
  cases l with
  | none => exact .null
  | bool b => exact .bool b
  | int | bigInt | float => exact .text _
  | string s => exact plain_texts [s]
  | regex s => exact plain_texts [s, "regex"]

theorem plain_ofOperand (a : Operand) : (ofOperand a).Plain := by
  cases a
  · exact plain_ofRegister _
  · exact plain_ofLiteral _

/-! ## Reading back -/

section

variable {u : Json → Json} (hu : Json.Rearranges u)
include hu

theorem natBelow_rearranged {n bound : Nat} (h : n < bound) :
    natBelow bound (u (.ofNat n)) = .ok n := by
  rw [Json.ofNat, hu.number, natBelow, if_pos (by omega)]
  rfl

theorem word32_rearranged (n : UInt32) : word32 (u (.ofNat n.toNat)) = .ok n := by
  rw [word32, natBelow_rearranged hu n.toNat_lt]
  exact congrArg Except.ok UInt32.ofNat_toNat

theorem word64_rearranged (n : UInt64) : word64 (u (.ofNat n.toNat)) = .ok n := by
  rw [word64, natBelow_rearranged hu n.toNat_lt]
  exact congrArg Except.ok UInt64.ofNat_toNat

theorem position_rearranged (p : Position) : position (u (ofPosition p)) = .ok p := by
  refine positionLayout.ofJson_fields hu (by simp) fun m hm => ?_
  simp only [List.forall_mem_cons] at hm
  simp [positionLayout, hm, word32_rearranged hu, word64_rearranged hu]

theorem register_rearranged (r : Register) (buffered : Bool) :
    register buffered (u (ofRegister r)) = .ok r := by
  cases r with
  | temp t =>
    refine tagged_rearranged hu (plain_ofTemp t) (by simp) (fun m hm => ?_) buffered
    have hvalues := hm.values
    simp only [List.forall_mem_cons] at hvalues
    simp [tempLayout, hvalues, word32_rearranged hu, text_rearranged hu]
  | var v =>
    refine tagged_rearranged hu (plain_ofVar v) (by simp) (fun m hm => ?_) buffered
    have hvalues := hm.values
    simp only [List.forall_mem_cons] at hvalues
    simp [varLayout, hvalues, text_rearranged hu]

theorem temp_rearranged (t : Temp) (buffered : Bool) : temp buffered (u (ofTemp t)) = .ok t :=
  bind_eq_ok.mpr ⟨.temp t, register_rearranged hu (.temp t) buffered, rfl⟩

theorem var_rearranged (v : Var) (buffered : Bool) : var buffered (u (ofVar v)) = .ok v :=
  bind_eq_ok.mpr ⟨.var v, register_rearranged hu (.var v) buffered, rfl⟩

/-- **An operand is read back** if it is wire safe. -/
theorem operand_rearranged {a : Operand} (h : a.WireSafe) : operand (u (ofOperand a)) = .ok a := by
  cases a with
  | register r =>
    have hobject : ∃ es, u (ofRegister r) = .object es := by
      cases r with
      | temp => exact (hu.object _ (Json.plain_object.mp (plain_ofTemp _)).1).imp fun _ => And.left
      | var => exact (hu.object _ (Json.plain_object.mp (plain_ofVar _)).1).imp fun _ => And.left
    obtain ⟨es, hes⟩ := hobject
    rw [ofOperand, hes]
    change Operand.register <$> register true (.object es) = _
    rw [← hes, register_rearranged hu r true]
    rfl
  | literal l =>
    cases l with
    | none => rw [ofOperand, ofLiteral, hu.null, operand]
    | bool b => rw [ofOperand, ofLiteral, hu.bool, operand]
    | int d => rw [ofOperand, ofLiteral, hu.text, operand, readNumeral_int h]
    | bigInt d => rw [ofOperand, ofLiteral, hu.text, operand, readNumeral_bigInt]
    | float d => rw [ofOperand, ofLiteral, hu.text, operand, readNumeral_float h]
    | string s =>
      rw [ofOperand, ofLiteral, hu.array, List.map_singleton, hu.text]
      rfl
    | regex s =>
      rw [ofOperand, ofLiteral, hu.array, List.map_cons, List.map_singleton, hu.text, hu.text]
      rfl

theorem literal_rearranged {l : Literal} (h : l.WireSafe) : literal (u (ofLiteral l)) = .ok l :=
  bind_eq_ok.mpr ⟨.literal l, operand_rearranged hu (show (Operand.literal l).WireSafe from h), rfl⟩

end

/-! ## Whatever is read -/

/-- **Every operand read is read back.** -/
theorem operand_wireSafe {j : Json} {a : Operand} (h : operand j = .ok a) : a.WireSafe := by
  -- an operand that was read as a register is one
  have hregister : ∀ {j}, Operand.register <$> register true j = .ok a → a.WireSafe := fun h => by
    obtain ⟨r, -, rfl⟩ := map_eq_ok.mp h
    trivial
  cases j with
  | null =>
    obtain rfl := Except.ok.inj h
    trivial
  | bool b =>
    obtain rfl := Except.ok.inj h
    trivial
  | text s =>
    obtain rfl := Except.ok.inj h
    exact readNumeral_wireSafe s
  | array items =>
    rw [operand] at h
    split at h
    · obtain ⟨l, hl, rfl⟩ := map_eq_ok.mp h
      rw [readStrings.eq_def] at hl
      split at hl
      · obtain rfl := Except.ok.inj hl
        trivial
      · obtain rfl := Except.ok.inj hl
        trivial
      · cases hl
    · exact hregister h
  | number | object | unreadable => exact hregister h

theorem literal_wireSafe {j : Json} {l : Literal} (h : literal j = .ok l) : l.WireSafe := by
  obtain ⟨a, ha, h⟩ := bind_eq_ok.mp h
  cases a with
  | literal l' =>
    obtain rfl := Except.ok.inj h
    exact operand_wireSafe ha
  | register r => cases h

end Wire

end Monomorph
