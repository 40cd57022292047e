import Monomorph.Body.Order
import Monomorph.Failure

/-!
# Body/Ssa — one name for each definition

The first definition of a base name keeps it, every later one is named `base$N`, and each read takes
the name of the version that reaches it.  Where versions of one base meet, the block begins with a
merge of them.  Blocks within reach must form no cycle, so one pass in order finds every
predecessor done; the pass faults on a cycle, and on a label that no block has.
-/

namespace Monomorph

/-- The version of each base name that reaches a point. -/
abbrev Versions := Table Register

namespace Versions

/-- An operand as the version that reaches it. -/
def operand (v : Versions) : Operand → Operand
  | .register r => match v.get? r.base with
    | some w => if w.name = r.name then .register r else .register w
    | none => .register r
  | a => a

/-- The name under which a register is read. -/
def nameOf (v : Versions) (r : Register) : String :=
  match v.get? r.base with
  | some w => w.name
  | none => r.name

/-- An operation that reads the versions that reach it. -/
def rewrite (v : Versions) (o : Op) : Op :=
  o.mapInstr fun i => (i.map v.operand).mapSlots (.byName v.nameOf)

/-- Whether an operation reads a register under a name that does not reach it. -/
def stale (v : Versions) (o : Op) : Bool :=
  o.reads.any fun r => v.nameOf r ≠ r.name

end Versions

/-- The names given out so far in a body. -/
structure Naming where
  /-- The base names that have a definition. -/
  defined : List String
  /-- How many names were made for each base, never more than the converted body has definitions. -/
  made : Table Nat := ∅
  /-- Whether anything was named anew. -/
  changed : Bool := false

namespace Naming

/-- A new name for a base. -/
def fresh (s : Naming) (base : String) : String × Naming :=
  let n := (s.made.get? base).getD 0 + 1
  (base ++ "$" ++ toString n, { s with made := s.made.insert base n, changed := true })

/-- A definition of a register: the first of its base keeps its name. -/
def define (s : Naming) (r : Register) : Register × Naming :=
  if r.base ∈ s.defined then
    let (name, s) := s.fresh r.base
    (r.withName name, s)
  else (r, { s with defined := r.base :: s.defined })

/-- One operation: reads first, then the definition. -/
def op (s : Naming) (v : Versions) (o : Op) : Op × Naming × Versions :=
  let s := { s with changed := s.changed || v.stale o }
  let o := v.rewrite o
  match o.instr.target? with
  | none => (o, s, v)
  | some r =>
      let (w, s) := s.define r
      (o.mapInstr (·.mapTarget (.byName fun _ => w.name)), s, v.insert r.base w)

/-- A row of operations. -/
def ops (s : Naming) (v : Versions) : List Op → List Op × Naming × Versions
  | [] => ([], s, v)
  | o :: r =>
      let (o, s, v) := s.op v o
      let (r, s, v) := s.ops v r
      (o :: r, s, v)

end Naming

/-! ## Merges -/

/-- The versions at the ends of the predecessors, under their labels. -/
abbrev Incoming := List (String × Versions)

/-- The version of a base name at the end of each predecessor. -/
def Incoming.versions (inc : Incoming) (base : String) : Table Register :=
  Table.ofList (inc.filterMap fun p => (p.2.get? base).map fun r => (p.1, r))

/-- Merge one base name, whose version at the end of the first predecessor is `r`: versions of one
name stay as they are, others make a new one. -/
def Naming.mergeOne (s : Naming) (inc : Incoming) (base : String) (r : Register) :
    Register × List Op × Naming :=
  if inc.all fun p => (p.2.get? base).all fun w => w.name = r.name then (r, [], s)
  else
    let (name, s) := s.fresh base
    let target := r.withName name
    (target, [⟨.synthetic, .phi (inc.versions base) target⟩], s)

/-- Merge base names in turn. -/
def Naming.mergeAll (s : Naming) (inc : Incoming) :
    List (String × Register) → Versions → Versions × List Op × Naming
  | [], v => (v, [], s)
  | (base, r) :: rest, v =>
      let (w, phi, s) := s.mergeOne inc base r
      let (v, phis, s) := s.mergeAll inc rest (v.insert base w)
      (v, phi ++ phis, s)

/-- The versions at the start of a block: those of the base names that reach it from every
predecessor. -/
def Naming.merge (s : Naming) : Incoming → Versions × List Op × Naming
  | [] => (∅, [], s)
  | (l, first) :: rest =>
      let everywhere := first.entries.filter fun e => rest.all fun p => p.2.contains e.1
      s.mergeAll ((l, first) :: rest) everywhere ∅

/-! ## Bodies -/

/-- A body partly converted: the versions at the end of each block done. -/
structure SsaState where
  blocks : Blocks
  out : Table Versions := ∅
  naming : Naming

namespace Blocks

/-- The first label a block leads to that no block has. -/
def undefinedTarget? (bs : Blocks) : Option Fault :=
  bs.values.findSome? fun b =>
    (b.successors.find? fun l => !bs.contains l).map fun l => .undefinedTarget b.label l

/-- Convert one block of `bs`, the blocks within reach being `reached`. -/
def ssaBlock (bs : Blocks) (params reached : List String) (st : SsaState) (label : String) :
    Except Fault SsaState :=
  let isReached := decide (label ∈ reached)
  let preds := (bs.predecessors label).filter fun p => !isReached || decide (p ∈ reached)
  match if isReached then preds.find? fun p => !st.out.contains p else none with
  | some p => .error (.cyclicBlocks p label)
  | none =>
      let (versions, phis, naming) :=
        if label = entryLabel then
          (Table.ofList (params.map fun p => (p, .var (.ofBase p))), [], st.naming)
        else st.naming.merge (preds.filterMap fun p => (st.out.get? p).map fun v => (p, v))
      match st.blocks.get? label with
      | none => .ok { st with naming }
      | some b =>
          let (ops, naming, versions) := naming.ops versions b.ops
          .ok ⟨st.blocks.insert label { b with ops := phis ++ ops },
            st.out.insert label versions, naming⟩

/-- Convert blocks in turn. -/
def ssaFrom (bs : Blocks) (params reached : List String) :
    SsaState → List String → Except Fault SsaState
  | st, [] => .ok st
  | st, l :: r => do
      let st ← bs.ssaBlock params reached st l
      bs.ssaFrom params reached st r

/-- Convert every block, and say whether anything was named anew. -/
def toSsa (bs : Blocks) (params : List String) : Except Fault (Blocks × Bool) :=
  match bs.undefinedTarget? with
  | some f => .error f
  | none => do
      let st ← bs.ssaFrom params bs.reversePostOrder ⟨bs, ∅, ⟨params, ∅, false⟩⟩ bs.order
      return (st.blocks, st.naming.changed)

end Blocks

end Monomorph
