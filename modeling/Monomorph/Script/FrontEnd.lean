import Monomorph.FrontEnd.Basic
import Monomorph.Script.Basic
import Monomorph.Script.Hierarchy

/-!
# Script/FrontEnd — a front end that follows a script

For trying out specializations without a type checker: every declaration is processed as its script
says, and without a script it makes do with the core type `Int` and a body that returns something.
-/

namespace Monomorph.Script

/-- What a scripted front end does. -/
abbrev Doing := Action Ledger

/-- The program, the namespace of its core types, and the script. -/
structure Stage where
  program : Program
  core : String
  script : Script

def note (e : ScriptEvent) : Doing Unit :=
  .modifyState fun l => { l with events := l.events ++ [e] }

/-- Complain, and stop if the verdict says so. -/
def judge (v : Verdict) (key : String) : Doing Unit := do
  .modifyState fun l => { l with complaints := l.complaints ++ v.reports }
  match v.fail, v.foreign with
  | some m, _ => .fail (.hard key m)
  | none, some f => .fail f
  | none, none => return ()

/-- The value read.  That it could not be is a fault of the script, which is told as one of its
configuration. -/
def readable {α : Type} : Wire.Decoded α → Doing α
  | .ok a => .done a
  | .error _ => .fail (.config "Serialize")

namespace Stage

variable (e : Stage)

/-- The type named in a scope, stored. -/
def internSpec (scope : Binds) (t : TypeSpec) : Doing String := do
  .internKey (← .orStop (t.resolve e.program scope))

/-- The key of the core type `Int`, stored if it is declared. -/
def defaultType : Doing String :=
  match e.program.findType? e.core "Int" with
  | none => return "?"
  | some t => do .internKey (.nominal (← .ofExcept (e.program.type t)) ∅)

/-- The type named in a scope, or else the default. -/
def typeKey (scope : Binds) : Option TypeSpec → Doing String
  | some t => e.internSpec scope t
  | none => e.defaultType

/-! ## Types and constants -/

/-- Ask for the supertypes, each with its bindings. -/
def askSupertypes (scope : Binds) : List TypeId → List BindsSpec → Doing (List String)
  | [], _ => return []
  | t :: rest, specs => do
      let binds ← .orStop (TypeSpec.resolveBinds e.program scope (specs.head?.getD []))
      let key ← .ask (.type t binds)
      return key :: (← askSupertypes scope rest specs.tail)

/-- Store what is bound. -/
def internBinds : List (String × Ty) → Doing (List (String × String))
  | [] => return []
  | (n, t) :: rest => do
      let key ← .internKey t
      return (n, key) :: (← internBinds rest)

/-- Declare a field, and answer its key. -/
def declareField (d : TypeDecl) (key : String) (binds : Binds) (f : FieldScript) :
    Doing String := do
  let fkey := Key.field d binds f.name
  let type ← e.typeKey binds f.type
  let decl : FieldDecl := ⟨fkey, f.name, key, d.file, d.position, type, f.default⟩
  .modifyAssembly fun m => { m with fields := m.fields.insert fkey decl }
  return fkey

def processType (key : String) (decl : TypeId) (binds : Binds) : Doing Unit := do
  let s := (e.script.types.lookup decl).getD {}
  judge s.verdict key
  if s.skip then return ()
  let d ← .ofExcept (e.program.type decl)
  let provides ← e.askSupertypes binds d.provides s.providesBinds
  let terms := Table.ofList (← internBinds binds.entries)
  let fields ← s.fields.mapM (e.declareField d key binds)
  match d.kind with
  | .entity =>
      let decl : EntityDecl :=
        ⟨key, d.ns, d.name, d.file, d.position, d.attributes, terms, provides, fields, ∅⟩
      .modifyAssembly fun m => { m with entities := m.entities.insert key decl }
  | .concept =>
      let decl : ConceptDecl :=
        ⟨key, d.ns, d.name, d.file, d.position, d.attributes, terms, provides, ∅⟩
      .modifyAssembly fun m => { m with concepts := m.concepts.insert key decl }

def processConstant (key : String) (decl : ConstId) : Doing Unit := do
  let s := (e.script.consts.lookup decl).getD {}
  judge s.verdict key
  let d ← .ofExcept (e.program.const decl)
  let type ← e.typeKey ∅ s.type
  let decl : ConstantDecl := ⟨key, d.file, d.position, type, key ++ "$init"⟩
  .modifyAssembly fun m => { m with constants := m.constants.insert key decl }

/-! ## Callables -/

/-- Carry out a step; the answer is the value it comes to, if it is a call or reads a constant. -/
def carryOut (key : String) (pos : Position) (scope : Binds) :
    ScriptStep → Doing (Option Operand)
  | .call w result args => do
      let type ← e.typeKey scope result
      let callee ← .ask (← .orStop (w.resolve e.program scope))
      let t ← .freshTemp
      let args ← args.mapM readable
      let _ ← .step (.emitCall pos callee args (.plain type) t)
      return some (.ofTemp t)
  | .callVirtual c result args => do
      let type ← e.typeKey scope result
      let c ← .orStop (c.resolve e.program scope)
      let receiver ← .internKey c.receiver
      let slot ← .noteCall c .done
      let t ← .freshTemp
      let args ← args.mapM readable
      .emit pos (.define (.callVirtual type slot args receiver) t)
      return some (.ofTemp t)
  | .mention t => do
      let _ ← e.internSpec scope t
      return none
  | .lambda decl type => do
      let _ ← .ask (.lambda decl (← .orStop (type.resolve e.program scope)) scope)
      return none
  | .read w => do
      let constant ← .ask (← .orStop (w.resolve e.program scope))
      let t ← .freshTemp
      .emit pos (.define (.constant constant) t)
      return some (.ofTemp t)
  | .pattern text => do
      .modifyAssembly fun m => { m with regexes := m.regexes ++ [text] }
      return none
  | .build steps => do
      let _ ← steps.mapM fun s => do .step (← readable s)
      return none
  | .verdict v => do
      judge v key
      return none

/-- Carry out steps in turn; the answer is the value of the last that has one. -/
def carryOutAll (key : String) (pos : Position) (scope : Binds) :
    Option Operand → List ScriptStep → Doing (Option Operand)
  | last, [] => return last
  | last, s :: rest => do
      let v ← e.carryOut key pos scope s
      carryOutAll key pos scope (v.or last) rest

/-- End a body: it returns a value given, or else its first parameter, or else zero. -/
def writeReturn (d : InvokeDecl) (value : Option Operand) : Doing Unit := do
  let value ← match value, d.params with
    | some v, _ => pure v
    | none, [] => pure (.literal (.int "0"))
    | none, p :: _ => do
        let t ← .freshTemp
        .emit d.position (.define (.argVar (.ofBase p)) t)
        pure (.ofTemp t)
  .emit d.position (.returnAssign value .result)
  .emit d.position (.jump returnLabel)
  let _ ← .step (.activate returnLabel)
  .emit d.position (.jump exitLabel)

/-- The parameters of a callable with their types. -/
def typeParams (scope : Binds) (usual : String) :
    List String → List (Option TypeSpec) → Doing (List Param)
  | [], _ => return []
  | n :: rest, specs => do
      let type ← match specs.head? with
        | some (some t) => e.internSpec scope t
        | _ => pure usual
      return ⟨n, type⟩ :: (← typeParams scope usual rest specs.tail)

def processInvoke (key : String) (decl : InvokeId) (scope : Binds) : Doing Unit := do
  let d ← .ofExcept (e.program.invoke decl)
  let int ← e.defaultType
  let usual ← match scope.get? "T" with
    | some t => .internKey t
    | none => pure int
  let s := (e.script.invokes.lookup decl).getD {}
  let last ← e.carryOutAll key d.position scope none s.steps
  if let some implementation := s.primitive then
    let decl : Primitive := ⟨key, "", "", [], "", {}, [], "", implementation⟩
    .modifyAssembly fun m => { m with primitives := m.primitives.insert key decl }
    return ()
  if s.skip then return ()
  if !s.raw then writeReturn d last
  let params ← e.typeParams scope usual d.params s.params
  let result ← match s.result with
    | some t => e.internSpec scope t
    | none => pure (if d.params.isEmpty then int else usual)
  match ← .step (.finish d.file d.position d.params) with
  | .body body =>
      let decl : Callable :=
        ⟨key, d.ns, d.name, d.attributes, d.file, d.position, params, result, body⟩
      .modifyAssembly fun m => { m with callables := m.callables.insert key decl }
  | _ => return ()

/-! ## The front end -/

def processWork (key : String) : Work → Doing Unit
  | .type decl binds => e.processType key decl binds
  | .global decl | .const _ _ decl => e.processConstant key decl
  | .function decl binds _ => e.processInvoke key decl binds
  | .lambda decl _ scope => e.processInvoke key decl scope
  | .static m | .method m => e.processInvoke key m.decl m.allBinds

def process (i : Item) : Doing Unit := do
  note (.processed i)
  e.processWork i.key i.work

def collectPatterns : Doing Unit := do
  note .patterns
  .modifyAssembly fun m => { m with regexes := m.regexes ++ e.script.patterns.add }
  judge e.script.patterns.verdict "regex_info"

def finalChecks : Doing Unit := do
  let (_, s) ← .observe
  note (.finalChecks s.pending)
  judge e.script.finalChecks "final_checks"

/-- The front end; `hooks` says whether it takes part in the end of a run. -/
def frontEnd (hooks : Bool) : FrontEnd Ledger where
  process := e.process
  hierarchy _ := e.program.hierarchy
  collectPatterns := if hooks then e.collectPatterns else .done ()
  finalChecks := if hooks then e.finalChecks else .done ()
  diagnostics l := l.complaints

end Stage

end Monomorph.Script
