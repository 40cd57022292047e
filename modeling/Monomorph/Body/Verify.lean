import Monomorph.Body.Order
import Monomorph.Op.Text

/-!
# Body/Verify — checks on a finished body

The three fixed blocks are there, every block but the last ends with its only jump, every label
exists, no name is written twice, and — only where nothing of that is wrong — every read within
reach has a definition on each way to it.  `violations` lists what is wrong in the order of the
checks, and inside a check in the order of the blocks.
-/

namespace Monomorph

/-- Something wrong in a block. -/
structure Violation where
  label : String
  message : String
deriving DecidableEq

/-- `label: message` -/
def Violation.text (v : Violation) : String :=
  v.label ++ ": " ++ v.message

/-- A text between back quotes. -/
def ticked (s : String) : String :=
  "`" ++ s ++ "`"

namespace Blocks

def missingBlocks (bs : Blocks) : List Violation :=
  ([entryLabel, returnLabel, exitLabel].filter fun l => !bs.contains l).map fun l =>
    ⟨l, "required block is missing"⟩

/-- What is wrong with one operation's jump, `last` saying whether it ends its block. -/
def jumpFaults (bs : Blocks) (label : String) (last : Bool) (o : Op) : List Violation :=
  (if o.instr.isTerminator && !last then
      [⟨label, "terminator " ++ ticked o.text ++ " is not last"⟩]
    else [])
    ++ (o.instr.labels.filter fun l => !bs.contains l).map fun l =>
      ⟨label, "jump to undefined block " ++ ticked l⟩

/-- What is wrong with the jumps in a row of operations. -/
def jumpsFaults (bs : Blocks) (label : String) : List Op → List Violation
  | [] => []
  | o :: r => bs.jumpFaults label r.isEmpty o ++ bs.jumpsFaults label r

/-- What is wrong with how blocks end. -/
def terminatorFaults (bs : Blocks) : List Violation :=
  bs.entries.flatMap fun (label, b) =>
    bs.jumpsFaults label b.ops
      ++ if label ≠ exitLabel && b.terminator?.isNone then
          [⟨label, "block does not end with a jump"⟩]
        else []

/-- Names written in a row of writes though they have been before, and all names written then. -/
def rewritten (names : List String) : List (String × Register) → List Violation
  | [] => []
  | (label, r) :: rest =>
      if r.name ∈ names then
        ⟨label, ticked r.name ++ " is defined more than once"⟩ :: rewritten names rest
      else rewritten (r.name :: names) rest

/-- Every write, in the order of the blocks. -/
def allWrites (bs : Blocks) : List (String × Register) :=
  bs.entries.flatMap fun (label, b) => b.ops.flatMap fun o => o.writes.map fun r => (label, r)

/-! ## Definitions before reads -/

/-- Names that are certain to have a value. -/
abbrev Names := List String

/-- Reads in one operation that may come before any definition; a merge reads at the ends of its
predecessors. -/
def readFaults (reached : List String) (out : Table Names) (label : String) (known : Names)
    (o : Op) : List Violation :=
  match o.instr with
  | .phi inputs _ =>
      (inputs.entries.filter fun (p, r) =>
        !((out.get? p).any fun names => decide (r.name ∈ names)) && decide (p ∈ reached)).map
        fun (p, r) =>
          ⟨label, "phi input " ++ ticked r.name ++ " is not defined at the end of " ++ ticked p⟩
  | _ =>
      (o.reads.filter fun r => !decide (r.name ∈ known)).map fun r =>
        ⟨label, ticked r.name ++ " may be used before it is defined"⟩

/-- Reads in a row of operations that may come before any definition, and the names known after. -/
def readsFaults (reached : List String) (out : Table Names) (label : String) (known : Names) :
    List Op → List Violation × Names
  | [] => ([], known)
  | o :: r =>
      let here := readFaults reached out label known o
      let (later, known) :=
        readsFaults reached out label (o.writes.map Register.name ++ known) r
      (here ++ later, known)

/-- The names known at the ends of all the predecessors done. -/
def knownAtStart (bs : Blocks) (reached : List String) (out : Table Names) (label : String) :
    Names :=
  let preds := (bs.predecessors label).filter fun p => decide (p ∈ reached)
  match preds.filterMap out.get? with
  | [] => []
  | first :: rest => first.filter fun n => rest.all fun names => decide (n ∈ names)

/-- Reads that may come before any definition, block by block. -/
def useFaults (bs : Blocks) (params reached : List String) :
    Table Names → List String → List Violation
  | _, [] => []
  | out, label :: rest =>
      let known := if label = entryLabel then params else bs.knownAtStart reached out label
      let ops := match bs.get? label with
        | some b => b.ops
        | none => []
      let (here, known) := readsFaults reached out label known ops
      here ++ bs.useFaults params reached (out.insert label known) rest

end Blocks

/-- What is wrong with a body whose parameters are given. -/
def Body.violations (b : Body) (params : List String) : List Violation :=
  let bs := b.blocks
  let shape := bs.missingBlocks ++ bs.terminatorFaults ++ Blocks.rewritten params bs.allWrites
  if shape.isEmpty then bs.useFaults params bs.reversePostOrder ∅ bs.reversePostOrder else shape

end Monomorph
