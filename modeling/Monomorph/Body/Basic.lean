import Monomorph.Op.Text

/-!
# Body/Basic — blocks of operations, and bodies made of them

A body keeps its blocks under their labels.  Control enters at `entry`; what leads to where is read
off the last operation of each block alone.
-/

namespace Monomorph

/-- A label and the operations that run in a row. -/
structure Block where
  label : String
  ops : List Op := []
deriving DecidableEq

namespace Block

/-- The last operation, if it ends the block. -/
def terminator? (b : Block) : Option Op :=
  match b.ops.getLast? with
  | some o => if o.instr.isTerminator then some o else none
  | none => none

/-- The labels control may go on to, in the order of the branches. -/
def successors (b : Block) : List String :=
  match b.terminator? with
  | some o => o.instr.labels
  | none => []

end Block

abbrev Blocks := Table Block

/-- Where control enters. -/
def entryLabel : String := "entry"

/-- Where the result is assigned. -/
def returnLabel : String := "returnassign"

/-- Where control leaves. -/
def exitLabel : String := "exit"

structure Body where
  file : String
  position : Position
  blocks : Blocks
  /-- Type key of each name, once it has been inferred. -/
  types : Option (Table String) := none
deriving DecidableEq

namespace Blocks

/-- The labels a block leads to; none if there is no such block. -/
def successors (bs : Blocks) (label : String) : List String :=
  match bs.get? label with
  | some b => b.successors
  | none => []

/-- The labels of the blocks that lead to a block, in order. -/
def predecessors (bs : Blocks) (label : String) : List String :=
  (bs.entries.filter fun e => decide (label ∈ e.2.successors)).map (·.1)

/-- The blocks that lead to each label, a label without a block included. -/
def predecessorTable (bs : Blocks) : Table (List String) :=
  Table.ofList ((bs.keys ++ bs.values.flatMap Block.successors).map fun l => (l, bs.predecessors l))

/-- Change the operations of every block. -/
def mapOps (bs : Blocks) (f : List Op → List Op) : Blocks :=
  bs.map fun b => { b with ops := f b.ops }

/-- Number of operations in all blocks. -/
def opCount (bs : Blocks) : Nat :=
  (bs.values.map fun b => b.ops.length).foldl (· + ·) 0

end Blocks

end Monomorph
