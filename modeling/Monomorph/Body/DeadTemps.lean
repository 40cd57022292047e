import Monomorph.Body.Basic

/-!
# Body/DeadTemps — dropping what nobody reads

An operation that does nothing but write a temporary goes when no operation left reads that
temporary.  What goes may have been the last reader of another, so the sweep is repeated until it
drops nothing.
-/

namespace Monomorph

namespace Blocks

/-- The names of the temporaries some operation reads. -/
def tempsRead (bs : Blocks) : List String :=
  bs.values.flatMap fun b => b.ops.flatMap fun o => (o.reads.filter Register.isTemp).map (·.name)

/-- Whether an operation does more than write a temporary nobody reads. -/
def isLive (read : List String) (o : Op) : Bool :=
  match o.instr.removable? with
  | some t => decide (t.name ∈ read)
  | none => true

/-- Drop every operation whose temporary is not read now. -/
def sweep (bs : Blocks) : Blocks :=
  let read := bs.tempsRead
  bs.mapOps fun ops => ops.filter (isLive read)

/-- Sweep until nothing is dropped. -/
def dropDeadTemps (bs : Blocks) : Blocks :=
  let next := bs.sweep
  if next.opCount < bs.opCount then next.dropDeadTemps else bs
termination_by bs.opCount

/-- Whether a sweep drops anything. -/
def hasDeadTemps (bs : Blocks) : Bool :=
  let read := bs.tempsRead
  bs.values.any fun b => b.ops.any fun o => !isLive read o

end Blocks

end Monomorph
