import Monomorph.Proofs.Wire.Op

/-!
# Wire/Literals — which operations are read back

An operation is written field by field, and of its fields only the literals can be taken for
something else: a number says by its last letter of which kind it is.  So **an operation is read
back exactly if each of its literals is** (`op_readBack`).  A document may spell an operation as an
object or as an array, in any order of members; whatever is read from it has literals of that kind,
and is therefore written and read from then on without a change.
-/

namespace Monomorph

/-- The literal an operand is, if it is one. -/
def Operand.literal? : Operand → Option Literal
  | .literal l => some l
  | .register _ => none

/-- The literals of a right-hand side: the one it loads, or those among its operands. -/
def Rhs.literals : Rhs Operand → List Literal
  | .const l => [l]
  | e => e.operands.filterMap Operand.literal?

/-- The literals of an instruction. -/
def Instr.literals : Instr Operand → List Literal
  | .define e _ => e.literals
  | i => i.operands.filterMap Operand.literal?

theorem Operand.wireSafe_iff {as : List Operand} : (∀ a ∈ as, a.WireSafe) ↔
    ∀ l ∈ as.filterMap Operand.literal?, l.WireSafe := by
  simp only [List.mem_filterMap]
  constructor
  · rintro h l ⟨a, ha, hl⟩
    cases a with
    | register => cases hl
    | literal l' =>
      obtain rfl := Option.some.inj hl
      exact h _ ha
  · intro h a ha
    cases a with
    | register => trivial
    | literal l => exact h l ⟨_, ha, rfl⟩

theorem Rhs.wireSafe_iff {e : Rhs Operand} : e.WireSafe ↔ ∀ l ∈ e.literals, l.WireSafe := by
  by_cases hconst : ∃ l, e = .const l
  · obtain ⟨l, rfl⟩ := hconst
    rw [literals, List.forall_mem_singleton]
    refine ⟨fun h => h.const l rfl, fun h => ⟨List.forall_mem_nil _, ?_⟩⟩
    intro _ heq
    cases heq
    exact h
  · have hliterals : e.literals = e.operands.filterMap Operand.literal? := by
      cases e with
      | const l => exact absurd ⟨l, rfl⟩ hconst
      | _ => rfl
    rw [hliterals, ← Operand.wireSafe_iff]
    exact ⟨WireSafe.operands, fun h => ⟨h, fun l heq => absurd ⟨l, heq⟩ hconst⟩⟩

theorem Instr.wireSafe_iff {i : Instr Operand} : i.WireSafe ↔ ∀ l ∈ i.literals, l.WireSafe := by
  by_cases hdefine : ∃ e t, i = .define e t
  · obtain ⟨e, t, rfl⟩ := hdefine
    rw [literals, ← Rhs.wireSafe_iff]
    refine ⟨fun h => h.define e t rfl, fun h => ⟨h.operands, ?_⟩⟩
    intro _ _ heq
    cases heq
    exact h
  · have hliterals : i.literals = i.operands.filterMap Operand.literal? := by
      cases i with
      | define e t => exact absurd ⟨e, t, rfl⟩ hdefine
      | _ => rfl
    rw [hliterals, ← Operand.wireSafe_iff]
    exact ⟨WireSafe.operands, fun h => ⟨h, fun e t heq => absurd ⟨e, t, heq⟩ hdefine⟩⟩

namespace Wire

/-- **An operation is read back exactly if its literals are wire safe, and those of every operation
read are**, so that what was read once is read again as it is.  Sorting members by key in between
changes nothing. -/
theorem op_readBack (o : Op) :
    (op (ofOp o) = .ok o ↔ ∀ l ∈ o.instr.literals, l.WireSafe) ∧
      (op (ofOp o).unordered = .ok o ↔ ∀ l ∈ o.instr.literals, l.WireSafe) ∧
      ∀ j, op j = .ok o → (∀ l ∈ o.instr.literals, l.WireSafe) ∧
        op (ofOp o) = .ok o ∧ op (ofOp o).unordered = .ok o := by
  simp only [← Instr.wireSafe_iff]
  have hback : o.instr.WireSafe → op (ofOp o) = .ok o := op_rearranged Json.rearranges_id
  have hsorted : o.instr.WireSafe → op (ofOp o).unordered = .ok o :=
    op_rearranged Json.rearranges_unordered
  refine ⟨⟨op_wireSafe, hback⟩, ⟨op_wireSafe, hsorted⟩, fun j hj => ?_⟩
  have hsafe := op_wireSafe hj
  exact ⟨hsafe, hback hsafe, hsorted hsafe⟩

/-- A sum of a big integer and a fraction, as an array. -/
def sumDocument : Json :=
  .array [.text "bin_op", .array [.ofNat 3, .ofNat 0, .ofNat 20, .ofNat 6], .text "NSCore::BigInt",
    .text "5n", .text "+", .text "NSCore::Float64", .text "1.5",
    .array [.text "temp", .ofNat 0, .text "#tmp_0"]]

/-- The sum, with its left operand given. -/
def sumOf (l : Literal) : Op :=
  ⟨⟨3, 0, 20, 6⟩, .define (.binary "NSCore::BigInt" (.literal l) "+" "NSCore::Float64"
    (.literal (.float "1.5"))) (.ofId 0)⟩

/-- The big integer is read, and read back; an integer with its digits and letter would come back as
the big integer. -/
theorem sum_readBack : op sumDocument = .ok (sumOf (.bigInt "5")) ∧
    op (ofOp (sumOf (.bigInt "5"))) = .ok (sumOf (.bigInt "5")) ∧
    op (ofOp (sumOf (.int "5n"))) ≠ .ok (sumOf (.int "5n")) := by
  have hread : op sumDocument = .ok (sumOf (.bigInt "5")) := by decide +kernel
  refine ⟨hread, ((op_readBack _).2.2 sumDocument hread).2.1, fun h => ?_⟩
  exact ((op_readBack _).1.mp h (.int "5n") List.mem_cons_self).2.1 rfl

end Wire

end Monomorph
