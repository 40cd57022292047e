import Monomorph.Op.Basic

/-!
# Op/Views — what an operation reads and writes

Registers stand in three kinds of place: operands, which a literal may replace; *slots*, which hold
a register and nothing else; and the one target an operation may write.  For each kind there is a
view that lists the registers and a map that changes them; the passes over code use no others.
-/

namespace Monomorph

namespace Rhs

variable {α β : Type}

/-- The operands, in order. -/
def operands : Rhs α → List α
  | .checkInvariant _ _ a | .checkInvariantVirtual _ a => [a]
  | .construct _ as | .collectionOf _ as | .collectionCopies _ as | .tuple _ as | .ephemeral _ as
  | .call _ _ as | .callVirtual _ _ as _ => as
  | .collectionMixed _ as => as.map (·.2)
  | .record _ as => as.map (·.2)
  | .atIndex _ a _ _ | .atIndices _ a _ _ | .atProperty _ a _ _ | .atProperties _ a _ _
  | .atField _ a _ _ | .atFields _ a _ _ | .asTuple _ a _ _ _ | .asRecord _ a _ _ _
  | .asNominal _ a _ _ _ | .unary _ a _ | .isNone a | .isSome a | .isType _ a _ => [a]
  | .withIndices _ a _ us => a :: us.map (·.2)
  | .withProperties _ a _ us | .withFields _ a _ us => a :: us.map (·.2)
  | .extendTuple _ a _ u _ | .extendRecord _ a _ u _ | .extendObject _ a _ u _ _ => [a, u]
  | .binary _ a _ _ b | .equal _ a _ _ b _ | .less _ a _ b _ | .compare _ a _ _ b => [a, b]
  | .const _ | .safeString .. | .typedString .. | .constant _ | .fieldDefault _ | .argVar _
  | .localVar _ | .collectionEmpty _ | .fromEphemeral .. => []

/-- Change the operands. -/
def map (f : α → β) : Rhs α → Rhs β
  | .const l => .const l
  | .safeString v t s => .safeString v t s
  | .typedString v t s p e => .typedString v t s p e
  | .constant k => .constant k
  | .fieldDefault k => .fieldDefault k
  | .argVar v => .argVar v
  | .localVar v => .localVar v
  | .checkInvariant c t a => .checkInvariant c t (f a)
  | .checkInvariantVirtual t a => .checkInvariantVirtual t (f a)
  | .construct t as => .construct t (as.map f)
  | .collectionEmpty t => .collectionEmpty t
  | .collectionOf t as => .collectionOf t (as.map f)
  | .collectionCopies t as => .collectionCopies t (as.map f)
  | .collectionMixed t as => .collectionMixed t (as.map fun a => (a.1, f a.2))
  | .tuple t as => .tuple t (as.map f)
  | .record t as => .record t (as.map fun a => (a.1, f a.2))
  | .ephemeral t as => .ephemeral t (as.map f)
  | .atIndex t a s i => .atIndex t (f a) s i
  | .atIndices t a s is => .atIndices t (f a) s is
  | .atProperty t a s p => .atProperty t (f a) s p
  | .atProperties t a s ps => .atProperties t (f a) s ps
  | .atField t a s k => .atField t (f a) s k
  | .atFields t a s ks => .atFields t (f a) s ks
  | .asTuple t a s o p => .asTuple t (f a) s o p
  | .asRecord t a s o p => .asRecord t (f a) s o p
  | .asNominal t a s o p => .asNominal t (f a) s o p
  | .withIndices t a s us => .withIndices t (f a) s (us.map fun u => (u.1, f u.2))
  | .withProperties t a s us => .withProperties t (f a) s (us.map fun u => (u.1, f u.2))
  | .withFields t a s us => .withFields t (f a) s (us.map fun u => (u.1, f u.2))
  | .extendTuple t a s u r => .extendTuple t (f a) s (f u) r
  | .extendRecord t a s u r => .extendRecord t (f a) s (f u) r
  | .extendObject t a s u r ks => .extendObject t (f a) s (f u) r ks
  | .fromEphemeral a t s i => .fromEphemeral a t s i
  | .call t k as => .call t k (as.map f)
  | .callVirtual t k as r => .callVirtual t k (as.map f) r
  | .unary o a t => .unary o (f a) t
  | .binary lt l o rt r => .binary lt (f l) o rt (f r)
  | .equal lt l o rt r x => .equal lt (f l) o rt (f r) x
  | .less lt l rt r x => .less lt (f l) rt (f r) x
  | .compare lt l o rt r => .compare lt (f l) o rt (f r)
  | .isNone a => .isNone (f a)
  | .isSome a => .isSome (f a)
  | .isType s a t => .isType s (f a) t

/-- The registers in slots. -/
def slots : Rhs α → List Register
  | .argVar v | .localVar v => [.var v]
  | .fromEphemeral a _ _ _ => [a]
  | _ => []

/-- Change the registers in slots. -/
def mapSlots (r : Renaming) : Rhs α → Rhs α
  | .argVar v => .argVar (r.var v)
  | .localVar v => .localVar (r.var v)
  | .fromEphemeral a t s i => .fromEphemeral (a.rename r) t s i
  | e => e

/-- Whether computing the value may do more than give it: call, abort, or check. -/
def mayAct : Rhs α → Bool
  | .checkInvariant .. | .checkInvariantVirtual .. | .call .. | .callVirtual .. | .typedString ..
  | .unary .. | .binary .. | .atIndex .. | .construct .. | .collectionEmpty _ | .collectionOf ..
  | .collectionCopies .. | .collectionMixed .. => true
  | .asTuple _ _ _ soft _ | .asRecord _ _ _ soft _ | .asNominal _ _ _ soft _ => !soft
  | _ => false

end Rhs

namespace Instr

variable {α β : Type}

/-- The operands, in order. -/
def operands : Instr α → List α
  | .define e _ => e.operands
  | .assign a _ | .truthy a _ | .store a _ | .packSlice a _ _ | .returnAssign a _ => [a]
  | .packExtend b as _ _ => b :: as
  | .debug a => a.toList
  | .branch a _ _ | .branchNone a _ _ => [a]
  | .abort _ | .phi .. | .jump _ | .lifetimeStart .. | .lifetimeEnd _ => []

/-- Change the operands. -/
def map (f : α → β) : Instr α → Instr β
  | .define e t => .define (e.map f) t
  | .assign a t => .assign (f a) t
  | .truthy a t => .truthy (f a) t
  | .store a v => .store (f a) v
  | .packSlice a ty t => .packSlice (f a) ty t
  | .packExtend b as ty t => .packExtend (f b) (as.map f) ty t
  | .returnAssign a v => .returnAssign (f a) v
  | .abort i => .abort i
  | .debug a => .debug (a.map f)
  | .phi is t => .phi is t
  | .jump l => .jump l
  | .branch a x y => .branch (f a) x y
  | .branchNone a x y => .branchNone (f a) x y
  | .lifetimeStart n ty => .lifetimeStart n ty
  | .lifetimeEnd n => .lifetimeEnd n

/-- The registers in slots. -/
def slots : Instr α → List Register
  | .define e _ => e.slots
  | .phi is _ => is.values
  | _ => []

/-- Change the registers in slots. -/
def mapSlots (r : Renaming) : Instr α → Instr α
  | .define e t => .define (e.mapSlots r) t
  | .phi is t => .phi (is.map (Register.rename r)) t
  | i => i

/-- The register written. -/
def target? : Instr α → Option Register
  | .define _ t | .assign _ t | .truthy _ t | .packSlice _ _ t | .packExtend _ _ _ t =>
      some (.temp t)
  | .store _ v | .returnAssign _ v => some (.var v)
  | .phi _ r => some r
  | _ => none

/-- Change the register written. -/
def mapTarget (r : Renaming) : Instr α → Instr α
  | .define e t => .define e (r.temp t)
  | .assign a t => .assign a (r.temp t)
  | .truthy a t => .truthy a (r.temp t)
  | .store a v => .store a (r.var v)
  | .packSlice a ty t => .packSlice a ty (r.temp t)
  | .packExtend b as ty t => .packExtend b as ty (r.temp t)
  | .returnAssign a v => .returnAssign a (r.var v)
  | .phi is t => .phi is (t.rename r)
  | i => i

/-- The temporary without which the operation does nothing: if it is never read, the operation may
go. -/
def removable? : Instr α → Option Temp
  | .define e t => if e.mayAct then none else some t
  | .assign _ t | .truthy _ t | .packSlice _ _ t | .packExtend _ _ _ t => some t
  | _ => none

end Instr

namespace Op

/-- Change the instruction, position as it is. -/
def mapInstr (f : Instr Operand → Instr Operand) (o : Op) : Op :=
  { o with instr := f o.instr }

/-- The registers read: among the operands first, then in slots. -/
def reads (o : Op) : List Register :=
  o.instr.operands.filterMap Operand.register? ++ o.instr.slots

/-- The registers written, at most one. -/
def writes (o : Op) : List Register :=
  o.instr.target?.toList

end Op

end Monomorph
