import Monomorph.Assembly.Basic
import Monomorph.Body.Order

/-!
# Body/VarTypes — the type of every name in a body

Every operation says what it writes: a type recorded on it, the type of a literal, or one made from
the types of what it reads.  One pass in block order is enough, since a name is written before it is
read.  A local that was declared has its declared type, whatever is stored in it.
-/

namespace Monomorph

/-- What is known of a body's names: their types, and the declared types of its locals, under their
base names. -/
structure Typing where
  types : Table String
  declared : Table String := ∅

/-- Where types come from. -/
structure TypeSource where
  assembly : Assembly
  /-- Namespace of the core types. -/
  core : String
  /-- Type key of the body's result. -/
  result : String

namespace TypeSource

/-- Key of a core type. -/
def coreType (s : TypeSource) (name : String) : String :=
  s.core ++ "::" ++ name

def literal (s : TypeSource) : Literal → String
  | .none => s.coreType "None"
  | .bool _ => s.coreType "Bool"
  | .int _ => s.coreType "Int"
  | .bigInt _ => s.coreType "BigInt"
  | .float _ => s.coreType "Float64"
  | .string _ => s.coreType "String"
  | .regex _ => s.coreType "Regex"

def operand (s : TypeSource) (g : Typing) : Operand → Option String
  | .literal l => some (s.literal l)
  | .register r => g.types.get? r.name

/-- The union of types, if each of several is interned. -/
def join (s : TypeSource) (types : List String) : Option String :=
  match Listing.distinct types with
  | [] => none
  | [t] => some t
  | ts => do
      let options ← ts.mapM fun t => (s.assembly.types.get? t).map Interned.options
      return (Interned.ofShapes options.flatten).key

/-- The type of a variable that is read: its own, or the one declared. -/
def local? (g : Typing) (v : Var) : Option String :=
  (g.types.get? v.name).or (g.declared.get? v.base)

def rhs (s : TypeSource) (g : Typing) : Rhs Operand → Option String
  | .const l => some (s.literal l)
  | .safeString _ t _ | .typedString _ t _ _ _ => some t
  | .constant k => (s.assembly.constants.get? k).map (·.type)
  | .fieldDefault k => (s.assembly.fields.get? k).map (·.type)
  | .argVar v | .localVar v => local? g v
  | .checkInvariant .. | .checkInvariantVirtual .. | .equal .. | .less .. | .compare ..
  | .isNone _ | .isSome _ | .isType .. => some (s.coreType "Bool")
  | .construct t _ | .collectionEmpty t | .collectionOf t _ | .collectionCopies t _
  | .collectionMixed t _ => some t
  | .tuple t _ | .record t _ | .ephemeral t _ | .atIndex t _ _ _ | .atIndices t _ _ _
  | .atProperty t _ _ _ | .atProperties t _ _ _ | .atField t _ _ _ | .atFields t _ _ _
  | .asTuple t _ _ _ _ | .asRecord t _ _ _ _ | .asNominal t _ _ _ _ | .withIndices t _ _ _
  | .withProperties t _ _ _ | .withFields t _ _ _ | .extendTuple t _ _ _ _
  | .extendRecord t _ _ _ _ | .extendObject t _ _ _ _ _ | .fromEphemeral _ t _ _ | .call t _ _
  | .callVirtual t _ _ _ => some t
  | .unary o _ t => some (if o = "!" then s.coreType "Bool" else t)
  | .binary t _ _ _ _ => some t

/-- The type of what an operation writes. -/
def written (s : TypeSource) (g : Typing) : Instr Operand → Option String
  | .define e _ => s.rhs g e
  | .assign a _ => s.operand g a
  | .truthy .. => some (s.coreType "Bool")
  | .store a v => (g.declared.get? v.base).or (s.operand g a)
  | .packSlice _ t _ | .packExtend _ _ t _ => some t
  | .returnAssign .. => some s.result
  | .phi inputs (.var v) =>
      (g.declared.get? v.base).or (s.join (inputs.values.filterMap fun r => g.types.get? r.name))
  | .phi inputs (.temp _) => s.join (inputs.values.filterMap fun r => g.types.get? r.name)
  | .abort _ | .debug _ | .jump _ | .branch .. | .branchNone .. | .lifetimeStart ..
  | .lifetimeEnd _ => none

/-- What is known after an operation. -/
def step (s : TypeSource) (g : Typing) (o : Op) : Typing :=
  match o.instr with
  | .lifetimeStart name type => { g with declared := g.declared.insert name type }
  | i => match s.written g i, i.target? with
    | some t, some r => { g with types := g.types.insert r.name t }
    | _, _ => g

/-- The type of every name of a body, those it can tell. -/
def infer (s : TypeSource) (b : Body) (params : List Param) : Table String :=
  let g : Typing := ⟨Table.ofList (params.map fun p => (p.name, p.type)), ∅⟩
  ((b.blocks.ordered.flatMap Block.ops).foldl s.step g).types

end TypeSource

namespace Assembly

/-- The inferred types of the names of a callable. -/
def inferTypes (m : Assembly) (core : String) (c : Callable) : Table String :=
  TypeSource.infer ⟨m, core, c.result⟩ c.body c.params

end Assembly

end Monomorph
