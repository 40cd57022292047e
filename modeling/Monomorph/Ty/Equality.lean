import Monomorph.Ty.Basic

/-!
# Ty/Equality — equality of types is decided part by part
-/

namespace Monomorph

mutual

def Ty.decEq : (a b : Ty) → Decidable (a = b)
  | .union xs, .union ys => @decidable_of_iff _ (xs = ys) (by simp) (Atom.decEqs xs ys)

def Atom.decEq : (a b : Atom) → Decidable (a = b)
  | .entity p, .entity q => @decidable_of_iff _ (p = q) (by simp) (Part.decEq p q)
  | .concept ps, .concept qs => @decidable_of_iff _ (ps = qs) (by simp) (Part.decEqs ps qs)
  | .tuple es, .tuple fs => @decidable_of_iff _ (es = fs) (by simp) (Ty.decEqSlots es fs)
  | .record es, .record fs => @decidable_of_iff _ (es = fs) (by simp) (Ty.decEqFields es fs)
  | .ephemeral ts, .ephemeral us => @decidable_of_iff _ (ts = us) (by simp) (Ty.decEqs ts us)
  | .entity _, .concept _ | .entity _, .tuple _ | .entity _, .record _ | .entity _, .ephemeral _
  | .concept _, .entity _ | .concept _, .tuple _ | .concept _, .record _ | .concept _, .ephemeral _
  | .tuple _, .entity _ | .tuple _, .concept _ | .tuple _, .record _ | .tuple _, .ephemeral _
  | .record _, .entity _ | .record _, .concept _ | .record _, .tuple _ | .record _, .ephemeral _
  | .ephemeral _, .entity _ | .ephemeral _, .concept _ | .ephemeral _, .tuple _
  | .ephemeral _, .record _ => isFalse nofun

def Part.decEq : (a b : Part) → Decidable (a = b)
  | .mk d b, .mk e c => @decidable_of_iff _ (d = e ∧ b = c) (by simp)
      (@instDecidableAnd _ _ _ (Ty.decEqBinds b c))

def Atom.decEqs : (a b : List Atom) → Decidable (a = b)
  | [], [] => isTrue rfl
  | [], _ :: _ | _ :: _, [] => isFalse nofun
  | a :: r, b :: s => @decidable_of_iff _ (a = b ∧ r = s) (by simp)
      (@instDecidableAnd _ _ (Atom.decEq a b) (Atom.decEqs r s))

def Part.decEqs : (a b : List Part) → Decidable (a = b)
  | [], [] => isTrue rfl
  | [], _ :: _ | _ :: _, [] => isFalse nofun
  | a :: r, b :: s => @decidable_of_iff _ (a = b ∧ r = s) (by simp)
      (@instDecidableAnd _ _ (Part.decEq a b) (Part.decEqs r s))

def Ty.decEqs : (a b : List Ty) → Decidable (a = b)
  | [], [] => isTrue rfl
  | [], _ :: _ | _ :: _, [] => isFalse nofun
  | a :: r, b :: s => @decidable_of_iff _ (a = b ∧ r = s) (by simp)
      (@instDecidableAnd _ _ (Ty.decEq a b) (Ty.decEqs r s))

def Ty.decEqSlots : (a b : List (Slot Ty)) → Decidable (a = b)
  | [], [] => isTrue rfl
  | [], _ :: _ | _ :: _, [] => isFalse nofun
  | ⟨a, o⟩ :: r, ⟨b, q⟩ :: s => @decidable_of_iff _ ((o = q ∧ a = b) ∧ r = s) (by simp [and_comm])
      (@instDecidableAnd _ _ (@instDecidableAnd _ _ _ (Ty.decEq a b)) (Ty.decEqSlots r s))

def Ty.decEqFields : (a b : List (String × Slot Ty)) → Decidable (a = b)
  | [], [] => isTrue rfl
  | [], _ :: _ | _ :: _, [] => isFalse nofun
  | (n, ⟨a, o⟩) :: r, (m, ⟨b, q⟩) :: s =>
      @decidable_of_iff _ (((n = m ∧ a = b) ∧ o = q) ∧ r = s) (by simp [and_assoc])
      (@instDecidableAnd _ _ (@instDecidableAnd _ _ (@instDecidableAnd _ _ _ (Ty.decEq a b)) _)
        (Ty.decEqFields r s))

def Ty.decEqBinds : (a b : List (String × Ty)) → Decidable (a = b)
  | [], [] => isTrue rfl
  | [], _ :: _ | _ :: _, [] => isFalse nofun
  | (n, a) :: r, (m, b) :: s => @decidable_of_iff _ ((n = m ∧ a = b) ∧ r = s) (by simp)
      (@instDecidableAnd _ _ (@instDecidableAnd _ _ _ (Ty.decEq a b)) (Ty.decEqBinds r s))

end

instance : DecidableEq Ty := Ty.decEq

instance : DecidableEq Atom := Atom.decEq

instance : DecidableEq Part := Part.decEq

deriving instance DecidableEq for FunctionTy

deriving instance DecidableEq for Closure

end Monomorph
