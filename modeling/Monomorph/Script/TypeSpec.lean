import Monomorph.Session.Basic

/-!
# Script/TypeSpec — types and work as a script writes them

A script names declarations by their ids and may mention type parameters, which stand for what is
bound to them where the script is carried out.  `resolve` gives the type, or says why there is none.
-/

namespace Monomorph

/-- A type, with parameters free in it. -/
inductive TypeSpec
  /-- A declaration of either kind. -/
  | nominal (decl : TypeId) (binds : List (String × TypeSpec))
  | entity (decl : TypeId) (binds : List (String × TypeSpec))
  | concept (parts : List (TypeId × List (String × TypeSpec)))
  | tuple (entries : List (Slot TypeSpec))
  | record (entries : List (String × Slot TypeSpec))
  | ephemeral (types : List TypeSpec)
  | union (types : List TypeSpec)
  /-- What is bound to a parameter. -/
  | var (name : String)

/-- Types for parameter names, with parameters free in them. -/
abbrev BindsSpec := List (String × TypeSpec)

namespace TypeSpec

/-- Do without what is not there: a broken promise stops everything. -/
def promised {α : Type} (e : Except Fault α) : Except Stop α :=
  e.mapError .fault

mutual

/-- The type in a scope. -/
def resolve (p : Program) (scope : Binds) : TypeSpec → Except Stop Ty
  | .nominal d b => do
      let binds ← resolveBinds p scope b
      return .nominal (← promised (p.type d)) binds
  | .entity d b => do
      let binds ← resolveBinds p scope b
      promised (Ty.entity (← promised (p.type d)) binds)
  | .concept ps => do return .concept (← resolveParts p scope ps)
  | .tuple es => do return .tuple (← resolveSlots p scope es)
  | .record es => do return .record (← resolveFields p scope es)
  | .ephemeral ts => do return .ephemeral (← resolveAll p scope ts)
  | .union ts => do promised (Ty.join (← resolveAll p scope ts))
  | .var n => match scope.get? n with
    | some t => .ok t
    | none => .error (.failure (.config ("unbound " ++ n)))

/-- The bindings in a scope; of equal names the last wins. -/
def resolveBinds (p : Program) (scope : Binds) : List (String × TypeSpec) → Except Stop Binds
  | [] => return ∅
  | (n, t) :: r => do
      let t ← resolve p scope t
      return Binds.overlay (Table.insert ∅ n t) (← resolveBinds p scope r)

def resolveParts (p : Program) (scope : Binds) :
    List (TypeId × List (String × TypeSpec)) → Except Stop (List Part)
  | [] => return []
  | (d, b) :: r => do
      let binds ← resolveBinds p scope b
      return .ofDecl (← promised (p.type d)) binds :: (← resolveParts p scope r)

def resolveAll (p : Program) (scope : Binds) : List TypeSpec → Except Stop (List Ty)
  | [] => return []
  | t :: r => do return (← resolve p scope t) :: (← resolveAll p scope r)

def resolveSlots (p : Program) (scope : Binds) : List (Slot TypeSpec) → Except Stop (List (Slot Ty))
  | [] => return []
  | ⟨t, o⟩ :: r => do return ⟨← resolve p scope t, o⟩ :: (← resolveSlots p scope r)

def resolveFields (p : Program) (scope : Binds) :
    List (String × Slot TypeSpec) → Except Stop (List (String × Slot Ty))
  | [] => return []
  | (n, ⟨t, o⟩) :: r => do return (n, ⟨← resolve p scope t, o⟩) :: (← resolveFields p scope r)

end

end TypeSpec

/-- The type of a function value, with parameters free in it. -/
structure FunctionSpec where
  params : List (String × Slot TypeSpec)
  result : TypeSpec

def FunctionSpec.resolve (p : Program) (scope : Binds) (f : FunctionSpec) :
    Except Stop FunctionTy := do
  return ⟨← TypeSpec.resolveFields p scope f.params, ← f.result.resolve p scope⟩

/-- A closure, with parameters free in its types. -/
structure ClosureSpec where
  code : InvokeId
  scope : String
  captured : BindsSpec
  type : FunctionSpec

def ClosureSpec.resolve (p : Program) (scope : Binds) (c : ClosureSpec) : Except Stop Closure := do
  let d ← TypeSpec.promised (p.invoke c.code)
  return {
    code := d.id, file := d.file, position := d.position, scope := c.scope
    captured := ← TypeSpec.resolveBinds p scope c.captured
    type := ← c.type.resolve p scope }

/-- A piece of work, with parameters free in its types. -/
inductive WorkSpec
  | type (decl : TypeId) (binds : BindsSpec)
  | global (decl : ConstId)
  | const (containing : TypeId) (outer : BindsSpec) (decl : ConstId)
  | function (decl : InvokeId) (binds : BindsSpec) (closures : List ClosureSpec)
  | lambda (decl : InvokeId) (type : FunctionSpec) (scope : BindsSpec)
  | static (containing : TypeId) (outer : BindsSpec) (decl : InvokeId) (binds : BindsSpec)
      (closures : List ClosureSpec)
  | method (containing : TypeId) (outer : BindsSpec) (decl : InvokeId) (binds : BindsSpec)
      (closures : List ClosureSpec)

def WorkSpec.resolve (p : Program) (scope : Binds) : WorkSpec → Except Stop Work
  | .type d b => do return .type d (← binds b)
  | .global c => return .global c
  | .const t o c => do return .const t (← binds o) c
  | .function i b cs => do return .function i (← binds b) (← closures cs)
  | .lambda i f b => do return .lambda i (← f.resolve p scope) (← binds b)
  | .static t o i b cs => do return .static ⟨t, ← binds o, i, ← binds b, ← closures cs⟩
  | .method t o i b cs => do return .method ⟨t, ← binds o, i, ← binds b, ← closures cs⟩
where
  binds := TypeSpec.resolveBinds p scope
  closures := List.mapM (ClosureSpec.resolve p scope)

/-- A virtual call, with parameters free in its types. -/
structure CallSpec where
  receiver : TypeSpec
  name : String
  binds : BindsSpec
  closures : List ClosureSpec

def CallSpec.resolve (p : Program) (scope : Binds) (c : CallSpec) : Except Stop VirtualCall := do
  return {
    receiver := ← c.receiver.resolve p scope, name := c.name
    binds := ← TypeSpec.resolveBinds p scope c.binds
    closures := ← c.closures.mapM (ClosureSpec.resolve p scope) }

end Monomorph
