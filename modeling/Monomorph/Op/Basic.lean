import Monomorph.Op.Operand
import Monomorph.Position

/-!
# Op/Basic — operations

A *value* operation computes a right-hand side into one fresh temporary; a *flow* operation rebinds
a register or acts; a *jump* operation ends a block, or marks a variable's lifetime.  Right-hand
sides and instructions are written over the type `α` of their operands: over `Operand` they are
code, over values they are what an interpretation has to make sense of.
-/

namespace Monomorph

/-- What a value operation computes. -/
inductive Rhs (α : Type)
  | const (value : Literal)
  /-- A string literal already checked against its string type. -/
  | safeString (value type textType : String)
  /-- A string literal of a typed string, with the function that parses it, if any. -/
  | typedString (value type textType : String) (parser errorType : Option String)
  | constant (key : String)
  | fieldDefault (key : String)
  | argVar (v : Var)
  | localVar (v : Var)
  | checkInvariant (check type : String) (receiver : α)
  | checkInvariantVirtual (receiverType : String) (receiver : α)
  | construct (type : String) (args : List α)
  | collectionEmpty (type : String)
  | collectionOf (type : String) (items : List α)
  | collectionCopies (type : String) (items : List α)
  /-- An item marked `true` is a collection whose items are copied. -/
  | collectionMixed (type : String) (items : List (Bool × α))
  | tuple (type : String) (items : List α)
  | record (type : String) (items : List (String × α))
  | ephemeral (type : String) (items : List α)
  | atIndex (type : String) (arg : α) (argType : String) (index : UInt64)
  | atIndices (type : String) (arg : α) (argType : String) (indices : List UInt64)
  | atProperty (type : String) (arg : α) (argType : String) (property : String)
  | atProperties (type : String) (arg : α) (argType : String) (properties : List String)
  | atField (type : String) (arg : α) (argType : String) (field : String)
  | atFields (type : String) (arg : α) (argType : String) (fields : List String)
  /-- The view of a value as a tuple type; `soft` if it may fail quietly. -/
  | asTuple (type : String) (arg : α) (argType : String) (soft : Bool) (target : String)
  | asRecord (type : String) (arg : α) (argType : String) (soft : Bool) (target : String)
  | asNominal (type : String) (arg : α) (argType : String) (soft : Bool) (target : String)
  | withIndices (type : String) (arg : α) (argType : String) (updates : List (UInt64 × α))
  | withProperties (type : String) (arg : α) (argType : String) (updates : List (String × α))
  | withFields (type : String) (arg : α) (argType : String) (updates : List (String × α))
  | extendTuple (type : String) (arg : α) (argType : String) (update : α) (updateType : String)
  | extendRecord (type : String) (arg : α) (argType : String) (update : α) (updateType : String)
  /-- `fields` gives the field key of each property of the update. -/
  | extendObject (type : String) (arg : α) (argType : String) (update : α) (updateType : String)
      (fields : List (String × String))
  | fromEphemeral (arg : Register) (type argType : String) (index : UInt64)
  | call (type key : String) (args : List α)
  /-- The first argument is the receiver. -/
  | callVirtual (type slot : String) (args : List α) (receiverType : String)
  | unary (operator : String) (arg : α) (argType : String)
  | binary (lhsType : String) (lhs : α) (operator rhsType : String) (rhs : α)
  | equal (lhsType : String) (lhs : α) (operator rhsType : String) (rhs : α) (relaxed : Bool)
  | less (lhsType : String) (lhs : α) (rhsType : String) (rhs : α) (relaxed : Bool)
  | compare (lhsType : String) (lhs : α) (operator rhsType : String) (rhs : α)
  | isNone (arg : α)
  | isSome (arg : α)
  | isType (argType : String) (arg : α) (type : String)
deriving DecidableEq

/-- What an operation does. -/
inductive Instr (α : Type)
  /-- A value operation. -/
  | define (rhs : Rhs α) (target : Temp)
  | assign (source : α) (target : Temp)
  | truthy (source : α) (target : Temp)
  | store (source : α) (target : Var)
  | packSlice (source : α) (type : String) (target : Temp)
  | packExtend (base : α) (items : List α) (type : String) (target : Temp)
  | returnAssign (source : α) (target : Var)
  | abort (info : String)
  /-- Print a value, or break for none. -/
  | debug (value : Option α)
  /-- A merge: the version that comes from each predecessor, under its label. -/
  | phi (inputs : Table Register) (target : Register)
  | jump (label : String)
  | branch (arg : α) (whenTrue whenFalse : String)
  | branchNone (arg : α) (whenNone whenSome : String)
  | lifetimeStart (name type : String)
  | lifetimeEnd (name : String)
deriving DecidableEq

/-- An operation where it stands in the source. -/
structure Op where
  position : Position
  instr : Instr Operand
deriving DecidableEq

/-- The three kinds of operation. -/
inductive OpKind
  | value
  | flow
  | jump
deriving DecidableEq

namespace Instr

variable {α : Type}

def kind : Instr α → OpKind
  | .define .. => .value
  | .assign .. | .truthy .. | .store .. | .packSlice .. | .packExtend .. | .returnAssign ..
  | .abort _ | .debug _ | .phi .. => .flow
  | .jump _ | .branch .. | .branchNone .. | .lifetimeStart .. | .lifetimeEnd _ => .jump

/-- Whether the operation ends a block; a lifetime marker does not. -/
def isTerminator : Instr α → Bool
  | .jump _ | .branch .. | .branchNone .. => true
  | _ => false

/-- The labels a terminator leads to, in the order of its branches. -/
def labels : Instr α → List String
  | .jump l => [l]
  | .branch _ t f => [t, f]
  | .branchNone _ n s => [n, s]
  | _ => []

end Instr

end Monomorph
