import Monomorph.Body.Lowering
import Monomorph.Listing

/-!
# Body/Builder — writing a body operation by operation

A builder keeps the blocks of one body and appends to the active one, which it holds apart from the
others.  `finish` takes the blocks out and lowers them, and if that succeeds another body is begun.
Most operations are appended as they are; the few that take more than one operation, or choose
between several, have an emitter of their own.
-/

namespace Monomorph

structure Builder where
  /-- Namespace of the core types. -/
  core : String
  /-- Every block but the active one. -/
  blocks : Blocks
  /-- The active block. -/
  active : Block
  /-- Number of the next temporary. -/
  nextTemp : UInt32

/-- What a call hands back: its declared result, or, if it writes back variables too, a list of the
result and those.  Types are given by their keys. -/
structure Returned where
  declared : String
  list : String
  /-- Place of the first variable, if the result is a pack of what stands before it. -/
  packBase : Option UInt64 := none
  /-- The variables written back, with their types. -/
  refs : List (String × String) := []

/-- A call that writes back nothing. -/
def Returned.plain (type : String) : Returned :=
  ⟨type, type, none, []⟩

namespace Builder

/-- A builder at the start of a body: the three fixed blocks, `entry` active. -/
def new (core : String) : Builder where
  core
  blocks := (Table.insert ∅ returnLabel ⟨returnLabel, []⟩).insert exitLabel ⟨exitLabel, []⟩
  active := ⟨entryLabel, []⟩
  nextTemp := 0

/-- Start over. -/
def reset (b : Builder) : Builder :=
  new b.core

def freshTemp (b : Builder) : Temp × Builder :=
  (.ofId b.nextTemp, { b with nextTemp := b.nextTemp + 1 })

/-- An empty block under a label made of a stem and the number of blocks. -/
def newBlock (b : Builder) (stem : String) : String × Builder :=
  let label := stem ++ "_" ++ toString (b.blocks.size + 1)
  (label, { b with blocks := b.blocks.insert label ⟨label, []⟩ })

/-- Go on in another block. -/
def activate (b : Builder) (label : String) : Except Fault Builder :=
  if b.active.label = label then .ok b
  else match b.blocks.get? label with
    | none => .error (.unknownBlock label)
    | some next =>
        .ok { b with
          blocks := (b.blocks.erase label).insert b.active.label b.active
          active := next }

/-- Append an operation to the active block. -/
def emit (b : Builder) (o : Op) : Builder :=
  { b with active := { b.active with ops := b.active.ops ++ [o] } }

/-- Append an operation at a position. -/
def push (b : Builder) (p : Position) (i : Instr Operand) : Builder :=
  b.emit ⟨p, i⟩

/-- An operand as a truth value: as it is if it has to be one, else converted. -/
def truth (b : Builder) (p : Position) (strict : Bool) (a : Operand) : Operand × Builder :=
  if strict then (a, b)
  else
    let (t, b) := b.freshTemp
    (.ofTemp t, b.push p (.truthy a t))

/-- A negation, of a truth value. -/
def emitNot (b : Builder) (p : Position) (operator : String) (strict : Bool) (a : Operand)
    (type : String) (target : Temp) : Builder :=
  let (a, b) := b.truth p strict a
  b.push p (.define (.unary operator a type) target)

/-- A branch on a truth value. -/
def emitBranch (b : Builder) (p : Position) (a : Operand) (strict : Bool)
    (whenTrue whenFalse : String) : Builder :=
  let (a, b) := b.truth p strict a
  b.push p (.branch a whenTrue whenFalse)

/-- A type test; tests against the core types `None` and `Some` have operations of their own. -/
def emitTypeTest (b : Builder) (p : Position) (target : Temp) (type argType : String)
    (a : Operand) : Builder :=
  let e := if type = b.core ++ "::None" then .isNone a
    else if type = b.core ++ "::Some" then .isSome a
    else .isType argType a type
  b.push p (.define e target)

/-- Store the variables a call writes back, from a place of the list it returned on. -/
def storeRefs (p : Position) (list : Temp) (listType : String) :
    Nat → List (String × String) → Builder → Except Fault Builder
  | _, [], b => .ok b
  | place, (name, type) :: rest, b =>
      if place < UInt64.size then
        let (t, b) := b.freshTemp
        let load := Rhs.fromEphemeral (.temp list) type listType (UInt64.ofNat place)
        let b := (b.push p (.define load t)).push p (.store (.ofTemp t) (.ofBase name))
        storeRefs p list listType (place + 1) rest b
      else .error .positionOverflow

/-- A direct call. -/
def emitCall (b : Builder) (p : Position) (key : String) (args : List Operand) (ret : Returned)
    (target : Temp) : Except Fault Builder :=
  if ret.refs.isEmpty then .ok (b.push p (.define (.call ret.declared key args) target))
  else
    let (list, b) := b.freshTemp
    let b := b.push p (.define (.call ret.list key args) list)
    let b := match ret.packBase with
      | none => b.push p (.define (.fromEphemeral (.temp list) ret.declared ret.list 0) target)
      | some _ => b.push p (.packSlice (.ofTemp list) ret.declared target)
    storeRefs p list ret.list ((ret.packBase.map UInt64.toNat).getD 1) ret.refs b

/-- Every block, the active one among them. -/
def allBlocks (b : Builder) : Blocks :=
  b.blocks.insert b.active.label b.active

/-- All blocks taken out: an empty `entry` is active, and the numbers of temporaries go on. -/
def emptied (b : Builder) : Builder :=
  { b with blocks := ∅, active := ⟨entryLabel, []⟩ }

/-- The lowered body. -/
def finish (b : Builder) (file : String) (p : Position) (params : List String) :
    Except Fault Body := do
  let (body, _) ← (Lowering.standard (Listing.distinct params)).run ⟨file, p, b.allBlocks, none⟩
  return body

/-! ## Steps -/

/-- One call on a builder. -/
inductive Step
  | reset
  | freshTemp
  | capturedName (name : String)
  | newBlock (stem : String)
  | activate (label : String)
  | emit (o : Op)
  | emitNot (p : Position) (operator : String) (strict : Bool) (a : Operand) (type : String)
      (target : Temp)
  | emitBranch (p : Position) (a : Operand) (strict : Bool) (whenTrue whenFalse : String)
  | emitTypeTest (p : Position) (target : Temp) (type argType : String) (a : Operand)
  | emitCall (p : Position) (key : String) (args : List Operand) (ret : Returned) (target : Temp)
  | finish (file : String) (p : Position) (params : List String)

/-- What a call answers. -/
inductive Answer
  | done
  | name (s : String)
  | body (b : Body)

/-- The answer of a call, and the builder after it.  Once a body is lowered writing starts over; a
body that cannot be lowered is gone all the same. -/
def run (b : Builder) : Step → Except Fault Answer × Builder
  | .reset => (.ok .done, b.reset)
  | .freshTemp => let (t, b) := b.freshTemp; (.ok (.name t.name), b)
  | .capturedName name => (.ok (.name (Var.capturedName name)), b)
  | .newBlock stem => let (l, b) := b.newBlock stem; (.ok (.name l), b)
  | .activate label => match b.activate label with
    | .ok b => (.ok (.name b.active.label), b)
    | .error f => (.error f, b)
  | .emit o => (.ok .done, b.emit o)
  | .emitNot p op strict a type t => (.ok .done, b.emitNot p op strict a type t)
  | .emitBranch p a strict x y => (.ok .done, b.emitBranch p a strict x y)
  | .emitTypeTest p t type argType a => (.ok .done, b.emitTypeTest p t type argType a)
  | .emitCall p key args ret t => match b.emitCall p key args ret t with
    | .ok b => (.ok .done, b)
    | .error f => (.error f, b)
  | .finish file p params => match b.finish file p params with
    | .ok body => (.ok (.body body), b.reset)
    | .error f => (.error f, b.emptied)

end Builder

end Monomorph
