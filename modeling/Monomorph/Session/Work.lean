import Monomorph.Assembly.Basic
import Monomorph.Ty.Key

/-!
# Session/Work — what there is to specialize

A piece of work is a declaration together with types for its parameters.  Its key says which
specialization it is, and its lane which queue it waits in.
-/

namespace Monomorph

/-- The queues work waits in. -/
inductive Lane
  | types
  | globals
  | consts
  | functions
  | lambdas
  | statics
  | methods
deriving DecidableEq

/-- Every lane, in the order they are listed. -/
def Lane.all : List Lane :=
  [.types, .globals, .consts, .functions, .lambdas, .statics, .methods]

theorem Lane.mem_all (l : Lane) : l ∈ Lane.all := by
  cases l <;> decide

/-- A static or a method, with types for the parameters of its container and for its own. -/
structure Member where
  containing : TypeId
  /-- Types for the parameters of the container. -/
  outer : Binds
  decl : InvokeId
  binds : Binds
  closures : List Closure

/-- All bindings in force in a member: its own win. -/
def Member.allBinds (m : Member) : Binds :=
  m.outer.overlay m.binds

/-- A piece of work. -/
inductive Work
  | type (decl : TypeId) (binds : Binds)
  | global (decl : ConstId)
  | const (containing : TypeId) (outer : Binds) (decl : ConstId)
  | function (decl : InvokeId) (binds : Binds) (closures : List Closure)
  /-- `scope` are the bindings in force where the closure was written. -/
  | lambda (decl : InvokeId) (type : FunctionTy) (scope : Binds)
  | static (m : Member)
  | method (m : Member)

namespace Work

def lane : Work → Lane
  | .type .. => .types
  | .global _ => .globals
  | .const .. => .consts
  | .function .. => .functions
  | .lambda .. => .lambdas
  | .static _ => .statics
  | .method _ => .methods

/-- The key of a piece of work on a program. -/
def key (p : Program) : Work → Except Fault String
  | .type d b => do return Key.type (← p.type d) b
  | .global c => do return Key.global (← p.const c)
  | .const t b c => do return Key.const (← p.type t) b (← p.const c).name
  | .function i b cs => do
      let d ← p.invoke i
      return Key.function d.ns d.name b cs
  | .lambda i _ _ => do return Key.lambda (← p.invoke i)
  | .static m | .method m => do
      return Key.member (← p.type m.containing) (← p.invoke m.decl).name m.allBinds m.closures

end Work

/-- Whether an assembly holds what work in a lane comes to. -/
def Assembly.isFinished (m : Assembly) (lane : Lane) (key : String) : Bool :=
  match lane with
  | .types => m.hasNominal key
  | .globals | .consts => m.constants.contains key
  | .functions | .lambdas | .statics | .methods => m.hasInvoke key

/-- The slot of a type that a method fills. -/
structure Filling where
  slot : String
  /-- Key of the type. -/
  receiver : String
deriving DecidableEq

/-- A piece of work under its key. -/
structure Item where
  key : String
  work : Work
  /-- The slot a method found by dispatch fills. -/
  filling : Option Filling := none

end Monomorph
