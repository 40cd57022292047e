import Monomorph.Body.Basic

/-!
# Body/Copies — reading what a temporary copies

Inside a block, after `#t = x` a read of `#t` becomes a read of `x`, until either is written again.
Only reads change.
-/

namespace Monomorph

/-- What each temporary copies, under the temporary's name. -/
abbrev Copies := Table Operand

namespace Copies

/-- An operand as it is read. -/
def operand (c : Copies) : Operand → Operand
  | .register (.temp t) => (c.get? t.name).getD (.register (.temp t))
  | a => a

/-- A temporary in a slot as it is read: a slot takes no variable and no literal in its place. -/
def temp (c : Copies) (t : Temp) : Temp :=
  match c.get? t.name with
  | some (.register (.temp s)) => s
  | _ => t

/-- An operation that reads through the copies. -/
def rewrite (c : Copies) (o : Op) : Op :=
  o.mapInstr fun i => (i.map c.operand).mapSlots { temp := c.temp }

/-- Whether an operand is a temporary that copies. -/
def holdsOperand (c : Copies) : Operand → Bool
  | .register (.temp t) => c.contains t.name
  | _ => false

/-- Whether a register in a slot is a temporary that copies a temporary. -/
def holdsSlot (c : Copies) : Register → Bool
  | .temp t => match c.get? t.name with
    | some (.register (.temp _)) => true
    | _ => false
  | .var _ => false

/-- Whether an operation reads a copy. -/
def touches (c : Copies) (o : Op) : Bool :=
  o.instr.operands.any c.holdsOperand || o.instr.slots.any c.holdsSlot

/-- The copies after an operation: a register written is no copy and is copied by none, unless what
is written is a copy. -/
def after (c : Copies) (o : Op) : Copies :=
  let kept := match o.instr.target? with
    | some r => c.filter fun n a => n ≠ r.name && a.name ≠ r.name
    | none => c
  match o.instr with
  | .assign a t => kept.insert t.name a
  | _ => kept

/-- A row of operations, each reading through the copies made before it. -/
def rewriteAll (c : Copies) : List Op → List Op
  | [] => []
  | o :: r => let o := c.rewrite o; o :: (c.after o).rewriteAll r

/-- Whether any operation of a row reads a copy made before it. -/
def touchesAny (c : Copies) : List Op → Bool
  | [] => false
  | o :: r => c.touches o || (c.after (c.rewrite o)).touchesAny r

end Copies

/-- Every block reading through the copies made in it. -/
def Blocks.readThroughCopies (bs : Blocks) : Blocks :=
  bs.mapOps (Copies.rewriteAll ∅)

/-- Whether some block reads a copy made in it. -/
def Blocks.readsCopies (bs : Blocks) : Bool :=
  bs.values.any fun b => Copies.touchesAny ∅ b.ops

end Monomorph
