import Monomorph.Interned.Basic

/-!
# Interned/Equality — equality of interned types is decided part by part
-/

namespace Monomorph

mutual

def Interned.decEq : (a b : Interned) → Decidable (a = b)
  | .mk k xs, .mk l ys => @decidable_of_iff _ (k = l ∧ xs = ys) (by simp)
      (@instDecidableAnd _ _ _ (Shape.decEqs xs ys))

def Shape.decEq : (a b : Shape) → Decidable (a = b)
  | .entity k, .entity l => @decidable_of_iff _ (k = l) (by simp) inferInstance
  | .concept ps k, .concept qs l => @decidable_of_iff _ (ps = qs ∧ k = l) (by simp) inferInstance
  | .tuple es k, .tuple fs l => @decidable_of_iff _ (k = l ∧ es = fs) (by simp [and_comm])
      (@instDecidableAnd _ _ _ (Interned.decEqSlots es fs))
  | .record es k, .record fs l => @decidable_of_iff _ (k = l ∧ es = fs) (by simp [and_comm])
      (@instDecidableAnd _ _ _ (Interned.decEqFields es fs))
  | .ephemeral es k, .ephemeral fs l => @decidable_of_iff _ (k = l ∧ es = fs) (by simp [and_comm])
      (@instDecidableAnd _ _ _ (Interned.decEqs es fs))
  | .entity _, .concept .. | .entity _, .tuple .. | .entity _, .record .. | .entity _, .ephemeral ..
  | .concept .., .entity _ | .concept .., .tuple .. | .concept .., .record ..
  | .concept .., .ephemeral .. | .tuple .., .entity _ | .tuple .., .concept ..
  | .tuple .., .record .. | .tuple .., .ephemeral .. | .record .., .entity _
  | .record .., .concept .. | .record .., .tuple .. | .record .., .ephemeral ..
  | .ephemeral .., .entity _ | .ephemeral .., .concept .. | .ephemeral .., .tuple ..
  | .ephemeral .., .record .. => isFalse nofun

def Shape.decEqs : (a b : List Shape) → Decidable (a = b)
  | [], [] => isTrue rfl
  | [], _ :: _ | _ :: _, [] => isFalse nofun
  | a :: r, b :: s => @decidable_of_iff _ (a = b ∧ r = s) (by simp)
      (@instDecidableAnd _ _ (Shape.decEq a b) (Shape.decEqs r s))

def Interned.decEqs : (a b : List Interned) → Decidable (a = b)
  | [], [] => isTrue rfl
  | [], _ :: _ | _ :: _, [] => isFalse nofun
  | a :: r, b :: s => @decidable_of_iff _ (a = b ∧ r = s) (by simp)
      (@instDecidableAnd _ _ (Interned.decEq a b) (Interned.decEqs r s))

def Interned.decEqSlots : (a b : List (Slot Interned)) → Decidable (a = b)
  | [], [] => isTrue rfl
  | [], _ :: _ | _ :: _, [] => isFalse nofun
  | ⟨a, o⟩ :: r, ⟨b, q⟩ :: s => @decidable_of_iff _ ((o = q ∧ a = b) ∧ r = s) (by simp [and_comm])
      (@instDecidableAnd _ _ (@instDecidableAnd _ _ _ (Interned.decEq a b))
        (Interned.decEqSlots r s))

def Interned.decEqFields : (a b : List (String × Slot Interned)) → Decidable (a = b)
  | [], [] => isTrue rfl
  | [], _ :: _ | _ :: _, [] => isFalse nofun
  | (n, ⟨a, o⟩) :: r, (m, ⟨b, q⟩) :: s =>
      @decidable_of_iff _ (((n = m ∧ a = b) ∧ o = q) ∧ r = s) (by simp [and_assoc])
      (@instDecidableAnd _ _ (@instDecidableAnd _ _ (@instDecidableAnd _ _ _ (Interned.decEq a b)) _)
        (Interned.decEqFields r s))

end

instance : DecidableEq Interned := Interned.decEq

instance : DecidableEq Shape := Shape.decEq

end Monomorph
