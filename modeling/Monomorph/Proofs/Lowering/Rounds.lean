import Monomorph.Body.Lowering

/-!
# Lowering/Rounds — what each pass preserves is preserved round after round

Passes may fail, and rounds stop at the first that says it changed nothing.  Neither matters to a
property that each pass preserves without failing (`Pass.Preserves`): it holds of what the passes
come to in turn, and of what any number of rounds comes to.
-/

namespace Monomorph

/-- A pass that makes of every body with a property another with it, and does not fail. -/
def Pass.Preserves (I : Body → Prop) (p : Pass) : Prop :=
  ∀ b, I b → ∃ b' changed, p.run b = .ok (b', changed) ∧ I b'

namespace Lowering

variable {I : Body → Prop} {passes : List Pass} {b b₁ : Body} {s s₁ : LoweringStats}

/-- **One round of passes.** -/
theorem runAll_preserves (hp : ∀ p ∈ passes, p.Preserves I) (h : I b) (s : LoweringStats) :
    ∃ b' s' changed, runAll passes b s = .ok (b', s', changed) ∧ I b' := by
  induction passes generalizing b s with
  | nil => exact ⟨b, s, false, rfl, h⟩
  | cons p passes ih =>
    obtain ⟨hfirst, hrest⟩ := List.forall_mem_cons.mp hp
    obtain ⟨b₁, changed, hrun, h₁⟩ := hfirst b h
    obtain ⟨b₂, s₂, others, hrun', h₂⟩ := ih hrest h₁ (if changed then s.count p.name else s)
    refine ⟨b₂, s₂, changed || others, ?_, h₂⟩
    rw [runAll, hrun]
    simp only [bind, Except.bind, hrun']
    rfl

/-- A round, and others if it changed something. -/
theorem repeatRounds_succ {changed : Bool} (hrun : runAll passes b s = .ok (b₁, s₁, changed))
    (n : Nat) : repeatRounds passes (n + 1) b s =
      if changed then repeatRounds passes n b₁ { s₁ with rounds := s₁.rounds + 1 }
      else .ok (b₁, { s₁ with rounds := s₁.rounds + 1 }) := by
  rw [repeatRounds, hrun]
  rfl

/-- **Any number of rounds.** -/
theorem repeatRounds_preserves (hp : ∀ p ∈ passes, p.Preserves I) (n : Nat) (h : I b)
    (s : LoweringStats) : ∃ b' s', repeatRounds passes n b s = .ok (b', s') ∧ I b' := by
  induction n generalizing b s with
  | zero => exact ⟨b, s, rfl, h⟩
  | succ n ih =>
    obtain ⟨b₁, s₁, changed, hrun, h₁⟩ := runAll_preserves hp h s
    rw [repeatRounds_succ hrun]
    cases changed with
    | false => exact ⟨b₁, _, rfl, h₁⟩
    | true => exact ih h₁ { s₁ with rounds := s₁.rounds + 1 }

/-- What the rounds come to is all that the last passes see. -/
theorem run_of_repeatRounds {l : Lowering}
    (h : repeatRounds l.passes l.maxRounds b {} = .ok (b₁, s)) :
    l.run b = (runAll l.finish b₁ s).map fun x => (x.1, x.2.1) := by
  rw [run, h]
  simp only [bind, Except.bind]
  cases runAll l.finish b₁ s <;> rfl

end Lowering

end Monomorph
