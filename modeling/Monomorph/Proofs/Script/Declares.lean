import Monomorph.Proofs.FrontEnd.Actions
import Monomorph.Proofs.Run.Declared
import Monomorph.Script.FrontEnd
import Monomorph.Script.Types

/-!
# Script/Declares — a scripted front end declares types as their declarations say

Of all that a script makes a front end do, only the processing of a type declares any
(`Stage.declaring`); and unless the script leaves types out or gives their supertypes types for
parameters, that declares the type with the keys of the supertypes it asked for.  The program a
script comes with has each type in its place (`buildProgram_placed`).
-/

namespace Monomorph

namespace Script

/-! ## The program -/

/-- **In the program of a document every type stands at the place that its id says**, as long as
there are ids. -/
theorem buildProgram_placed {types : List TypeDecl} {invokes : List InvokeEntry}
    {consts : List ConstEntry} {p : Program} (hlength : types.length ≤ UInt32.size)
    (h : buildProgram types invokes consts = .ok p) : p.Placed := by
  obtain ⟨p₁, h₁, h₂⟩ := bind_eq_ok.mp h
  refine foldlM_keeps (P := Program.Placed) (fun q e q' hq hplaced => ?_) h₂ <|
    foldlM_keeps (P := Program.Placed) (fun q e q' hq hplaced => ?_) h₁ <|
      Program.placed_foldl hlength
  -- callables and constants leave the types alone
  all_goals
    obtain ⟨d, -, hq⟩ := bind_eq_ok.mp hq
    obtain rfl := Except.ok.inj hq
    exact hplaced

/-! ## Steps that declare nothing -/

/-- The script leaves no type out, and gives no supertype types for its parameters. -/
def Plain (e : Script) : Prop :=
  ∀ t x, e.types.lookup t = some x → x.skip = false ∧ x.providesBinds = []

open Monomorph.Action (Changes)
open Assembly (SameDeclared)

theorem changes_modifyState (f : Ledger → Ledger) :
    (Action.modifyState f).Changes SameDeclared :=
  ⟨fun _ => .of_eq rfl rfl, trivial⟩

theorem changes_judge (v : Verdict) (key : String) : (judge v key).Changes SameDeclared := by
  rw [judge]
  refine (changes_modifyState _).bind fun _ => ?_
  split <;> trivial

theorem changes_readable {α : Type} (x : Wire.Decoded α) :
    (readable x).Changes SameDeclared := by
  cases x <;> trivial

namespace Stage

variable (e : Stage)

theorem changes_internSpec (scope : Binds) (t : TypeSpec) :
    (e.internSpec scope t).Changes SameDeclared :=
  (Changes.orStop _).bind fun _ _ => trivial

theorem changes_defaultType : e.defaultType.Changes SameDeclared := by
  rw [defaultType]
  split
  · trivial
  · exact (Changes.ofExcept _).bind fun _ _ => trivial

theorem changes_typeKey (scope : Binds) (t : Option TypeSpec) :
    (e.typeKey scope t).Changes SameDeclared := by
  cases t with
  | some t => exact e.changes_internSpec scope t
  | none => exact e.changes_defaultType

theorem changes_internBinds (bs : List (String × Ty)) : (internBinds bs).Changes SameDeclared := by
  induction bs with
  | nil => trivial
  | cons b bs ih => exact fun _ => ih.bind fun _ => trivial

theorem changes_askSupertypes (scope : Binds) (ts : List TypeId) (specs : List BindsSpec) :
    (e.askSupertypes scope ts specs).Changes SameDeclared := by
  induction ts generalizing specs with
  | nil => exact .done _
  | cons t ts ih =>
    exact (Changes.orStop _).bind fun _ => (Changes.ask _).bind fun _ =>
      (ih _).bind fun _ => .done _

theorem changes_declareField (d : TypeDecl) (key : String) (binds : Binds) (f : FieldScript) :
    (e.declareField d key binds f).Changes SameDeclared :=
  (e.changes_typeKey _ _).bind fun _ => ⟨fun _ => .of_eq rfl rfl, trivial⟩

theorem changes_processConstant (key : String) (decl : ConstId) :
    (e.processConstant key decl).Changes SameDeclared :=
  (changes_judge _ _).bind fun _ => (Changes.ofExcept _).bind fun _ =>
    (e.changes_typeKey _ _).bind fun _ => ⟨fun _ => .of_eq rfl rfl, trivial⟩

theorem changes_carryOut (key : String) (pos : Position) (scope : Binds) (s : ScriptStep) :
    (e.carryOut key pos scope s).Changes SameDeclared := by
  cases s with
  | call w result args =>
    exact (e.changes_typeKey _ _).bind fun _ => (Changes.orStop _).bind fun _ =>
      (Changes.ask _).bind fun _ => Changes.freshTemp.bind fun _ =>
        (Changes.mapM changes_readable args).bind fun _ => (Changes.step _).bind fun _ => .done _
  | callVirtual c result args =>
    exact (e.changes_typeKey _ _).bind fun _ => (Changes.orStop _).bind fun _ =>
      (Changes.internKey _).bind fun _ => Changes.bind (fun _ => trivial) fun _ =>
        Changes.freshTemp.bind fun _ => (Changes.mapM changes_readable args).bind fun _ =>
          (Changes.emit _ _).bind fun _ => .done _
  | mention t => exact (e.changes_internSpec _ _).bind fun _ => .done _
  | lambda decl type =>
    exact (Changes.orStop _).bind fun _ => (Changes.ask _).bind fun _ => .done _
  | read w =>
    exact (Changes.orStop _).bind fun _ => (Changes.ask _).bind fun _ =>
      Changes.freshTemp.bind fun _ => (Changes.emit _ _).bind fun _ => .done _
  | pattern text => exact ⟨fun _ => .of_eq rfl rfl, trivial⟩
  | build steps =>
    refine (Changes.mapM (fun s => ?_) steps).bind fun _ => .done _
    exact (changes_readable s).bind fun _ => .step _
  | verdict v => exact (changes_judge _ _).bind fun _ => .done _

theorem changes_carryOutAll (key : String) (pos : Position) (scope : Binds)
    (last : Option Operand) (ss : List ScriptStep) :
    (e.carryOutAll key pos scope last ss).Changes SameDeclared := by
  induction ss generalizing last with
  | nil => trivial
  | cons s ss ih => exact (e.changes_carryOut _ _ _ s).bind fun v => ih _

theorem changes_writeReturn (d : InvokeDecl) (value : Option Operand) :
    (writeReturn d value).Changes SameDeclared := by
  have hend : ∀ value : Operand, (do
      Action.emit d.position (.returnAssign value .result)
      Action.emit d.position (.jump returnLabel)
      let _ ← Action.step (.activate returnLabel)
      Action.emit d.position (.jump exitLabel) : Doing Unit).Changes SameDeclared := fun _ =>
    (Changes.emit _ _).bind fun _ => (Changes.emit _ _).bind fun _ =>
      (Changes.step _).bind fun _ => .emit _ _
  unfold writeReturn
  split
  · exact (Changes.done _).bind hend
  · exact (Changes.done _).bind hend
  · exact Changes.freshTemp.bind fun _ => (Changes.emit _ _).bind fun _ =>
      (Changes.done _).bind hend

theorem changes_typeParams (scope : Binds) (usual : String) (ps : List String)
    (specs : List (Option TypeSpec)) :
    (e.typeParams scope usual ps specs).Changes SameDeclared := by
  induction ps generalizing specs with
  | nil => trivial
  | cons n ps ih =>
    rw [typeParams]
    split
    · exact (e.changes_internSpec _ _).bind fun _ => (ih _).bind fun _ => trivial
    · exact (ih _).bind fun _ => trivial

theorem changes_processInvoke (key : String) (decl : InvokeId) (scope : Binds) :
    (e.processInvoke key decl scope).Changes SameDeclared := by
  unfold processInvoke
  refine (Changes.ofExcept _).bind fun d => e.changes_defaultType.bind fun int => ?_
  extract_lets script afterUsual
  have husual : ∀ usual, (afterUsual usual).Changes SameDeclared := fun usual => by
    refine (e.changes_carryOutAll _ _ _ _ _).bind fun last => ?_
    split
    · exact Changes.bind ⟨fun _ => .of_eq rfl rfl, trivial⟩ fun _ => .done _
    · split
      · exact .done _
      · extract_lets afterBody
        have hbody : ∀ u, (afterBody u).Changes SameDeclared := fun u => by
          refine (e.changes_typeParams _ _ _ _).bind fun params => ?_
          extract_lets afterResult
          have hresult : ∀ result, (afterResult result).Changes SameDeclared := fun result => by
            refine (Changes.step _).bind fun answer => ?_
            split
            · exact ⟨fun _ => .of_eq rfl rfl, trivial⟩
            · exact .done _
          split
          · exact (e.changes_internSpec _ _).bind hresult
          · exact (Changes.done _).bind hresult
        split
        · exact (changes_writeReturn _ _).bind hbody
        · exact hbody ()
  split
  · exact (Changes.internKey _).bind husual
  · exact (Changes.done _).bind husual

/-- Declare a type by its kind. -/
def declare (d : TypeDecl) (key : String) (terms : Table String) (provides fields : List String)
    (m : Assembly) : Assembly :=
  match d.kind with
  | .entity =>
      let decl : EntityDecl :=
        ⟨key, d.ns, d.name, d.file, d.position, d.attributes, terms, provides, fields, ∅⟩
      { m with entities := m.entities.insert key decl }
  | .concept =>
      let decl : ConceptDecl :=
        ⟨key, d.ns, d.name, d.file, d.position, d.attributes, terms, provides, ∅⟩
      { m with concepts := m.concepts.insert key decl }

theorem declared?_declare (d : TypeDecl) (key : String) (terms : Table String)
    (provides fields : List String) (m : Assembly) (kind : TypeKind) (k : String) :
    (declare d key terms provides fields m).declared? kind k
      = if kind = d.kind ∧ k = key then some provides else m.declared? kind k := by
  rw [declare]
  cases d.kind <;> cases kind <;> simp only [Assembly.declared?, Table.get?_insert] <;>
    by_cases hk : k = key <;> simp [hk]

/-- A type that the script leaves in is processed in these parts. -/
theorem processType_eq {t : TypeId} (binds : Binds) (key : String)
    (hskip : ((e.script.types.lookup t).getD {}).skip = false) :
    e.processType key t binds = (do
      judge ((e.script.types.lookup t).getD {}).verdict key
      let d ← .ofExcept (e.program.type t)
      let provides ←
        e.askSupertypes binds d.provides ((e.script.types.lookup t).getD {}).providesBinds
      let terms ← internBinds binds.entries
      let fields ← ((e.script.types.lookup t).getD {}).fields.mapM (e.declareField d key binds)
      .modifyAssembly (declare d key (.ofList terms) provides fields)) := by
  unfold processType
  simp only [hskip, Bool.false_eq_true, if_false]
  refine bind_congr fun _ => bind_congr fun d => bind_congr fun provides => ?_
  refine bind_congr fun terms => bind_congr fun fields => ?_
  unfold declare
  cases d.kind <;> rfl

theorem askSupertypes_cons (scope : Binds) (t : TypeId) (ts : List TypeId) :
    e.askSupertypes scope (t :: ts) [] = (do
      let key ← .ask (.type t ∅)
      return key :: (← e.askSupertypes scope ts [])) := by
  have hnone : TypeSpec.resolveBinds e.program scope [] = .ok ∅ := by
    rw [TypeSpec.resolveBinds]
    rfl
  rw [askSupertypes, List.head?_nil, Option.getD_none, hnone]
  rfl

/-- Asking for supertypes without types for their parameters is answered with their keys. -/
theorem askSupertypes_run {scope : Binds} {ts : List TypeId} {keys : List String}
    {st st' : Ledger} {s s' : Session}
    (h : (e.askSupertypes scope ts []).run st s = (.ok keys, st', s')) :
    (∀ k, k ∈ keys ↔ ∃ q ∈ ts, s.program.Bare q k) ∧
      ∀ q ∈ ts,
        .work (.type q ∅) ∈ Session.registered ((e.askSupertypes scope ts []).log st s) := by
  induction ts generalizing keys st st' s s' with
  | nil =>
    rw [askSupertypes] at h
    obtain rfl := Except.ok.inj (Prod.mk.inj h).1
    simp
  | cons t ts ih =>
    rw [askSupertypes_cons] at h ⊢
    obtain ⟨key, st₁, s₁, hask, h⟩ := Action.bind_run_eq_ok.mp h
    obtain ⟨rest, st₂, s₂, hrest, h⟩ := Action.bind_run_eq_ok.mp h
    obtain rfl := Except.ok.inj (Prod.mk.inj h).1
    obtain ⟨hkeys, hasked⟩ := ih hrest
    obtain ⟨-, hrequest⟩ := Action.ask_run_eq_ok.mp hask
    have hbare : ∀ k, s.program.Bare t k ↔ k = key := fun k => by
      rw [Program.Bare, (Session.request_eq_ok hrequest).1, Except.ok.injEq, eq_comm]
    rw [Action.log_bind hask, Action.log_bind hrest, Session.registered_append,
      Session.registered_append, Action.registered_ask]
    rw [(Action.run_path hask).program] at hkeys
    refine ⟨fun k => ?_, fun q hq => ?_⟩
    · rw [List.mem_cons, List.exists_mem_cons_iff, hbare, hkeys]
    · rcases List.mem_cons.mp hq with rfl | hq
      · exact List.mem_cons_self
      · exact List.mem_append_right _ (List.mem_append_left _ (hasked q hq))

variable {e}

/-- **A type that is processed asks for its supertypes and is declared with their keys**, and no
other type is. -/
theorem processType_declares (hplain : e.script.Plain) {t : TypeId} {binds : Binds} {key : String}
    {st st' : Ledger} {s s' : Session} (hs : s.program = e.program)
    (h : (e.processType key t binds).run st s = (.ok (), st', s')) :
    ∃ d, e.program.type t = .ok d ∧
      (∀ q ∈ d.provides, .work (.type q ∅) ∈
        Session.registered ((e.processType key t binds).log st s)) ∧
      s'.assembly.hasNominal key = true ∧
      ∀ m₁ m₂, .changed m₁ m₂ ∈ (e.processType key t binds).log st s →
        m₁.DeclaresOnly
          (fun kind k ps => k = key ∧ Assembly.DeclaredAs e.program d kind ps) m₂ := by
  have hscript : ((e.script.types.lookup t).getD {}).skip = false ∧
      ((e.script.types.lookup t).getD {}).providesBinds = [] := by
    cases hx : e.script.types.lookup t with
    | none => exact ⟨rfl, rfl⟩
    | some x => exact hplain t x hx
  rw [processType_eq e binds key hscript.1, hscript.2] at h ⊢
  obtain ⟨_, st₁, s₁, hjudge, h⟩ := Action.bind_run_eq_ok.mp h
  obtain ⟨d, st₂, s₂, htype, h⟩ := Action.bind_run_eq_ok.mp h
  obtain ⟨provides, st₃, s₃, hask, h⟩ := Action.bind_run_eq_ok.mp h
  obtain ⟨terms, st₄, s₄, hterms, h⟩ := Action.bind_run_eq_ok.mp h
  obtain ⟨fields, st₅, s₅, hfields, h⟩ := Action.bind_run_eq_ok.mp h
  have hd : e.program.type t = .ok d := by
    cases hd : e.program.type t with
    | error f =>
      rw [hd] at htype
      cases htype
    | ok d' =>
      rw [hd] at htype
      exact congrArg Except.ok (Except.ok.inj (Prod.mk.inj htype).1)
  have hprogram : s₂.program = e.program :=
    (Action.run_path htype).program.trans ((Action.run_path hjudge).program.trans hs)
  obtain ⟨hkeys, hasked⟩ := e.askSupertypes_run hask
  rw [hprogram] at hkeys
  rw [Action.log_bind hjudge, Action.log_bind htype, Action.log_bind hask, Action.log_bind hterms,
    Action.log_bind hfields]
  refine ⟨d, hd, fun q hq => ?_, ?_, fun m₁ m₂ hm => ?_⟩
  · simp only [Session.registered_append, List.mem_append]
    exact .inr (.inr (.inl (hasked q hq)))
  · obtain ⟨-, hs'⟩ := Prod.mk.inj h
    rw [← (Prod.mk.inj hs').2]
    refine Assembly.hasNominal_iff.mpr ⟨d.kind, ?_⟩
    rw [declared?_declare, if_pos ⟨rfl, rfl⟩]
    rfl
  · simp only [List.mem_append] at hm
    rcases hm with hm | hm | hm | hm | hm | hm
    · exact ((changes_judge _ _).of_mem_log hm).declaresOnly
    · exact ((Changes.ofExcept _).of_mem_log hm : SameDeclared m₁ m₂).declaresOnly
    · exact ((e.changes_askSupertypes _ _ _).of_mem_log hm).declaresOnly
    · exact ((changes_internBinds _).of_mem_log hm).declaresOnly
    · exact ((Changes.mapM (e.changes_declareField d key binds) _).of_mem_log hm).declaresOnly
    · obtain ⟨rfl, rfl⟩ := Session.Event.changed.inj (List.mem_singleton.mp hm)
      intro kind k
      rw [declared?_declare]
      split
      case isTrue hk => exact .inr ⟨provides, rfl, hk.2, hk.1, hkeys⟩
      case isFalse => exact .inl rfl

/-- **Whatever is processed declares what it has to.** -/
theorem process_declares (hplain : e.script.Plain) {i : Item} {st st' : Ledger} {s s' : Session}
    (hs : s.program = e.program) (h : (e.process i).run st s = (.ok (), st', s')) :
    Run.Declares e.program i ((e.process i).log st s) s'.assembly := by
  obtain ⟨_, st₁, s₁, hnote, h⟩ := Action.bind_run_eq_ok.mp h
  have hlog : (e.process i).log st s
      = (note (.processed i)).log st s ++ (e.processWork i.key i.work).log st₁ s₁ :=
    Action.log_bind hnote
  have hs₁ : s₁.program = e.program := (Action.run_path hnote).program.trans hs
  have hsame : ∀ m₁ m₂, .changed m₁ m₂ ∈ (note (.processed i)).log st s → SameDeclared m₁ m₂ :=
    fun m₁ m₂ hm => (changes_modifyState _).of_mem_log hm
  obtain ⟨key, work, filling⟩ := i
  rw [hlog]
  have hrest : ∀ {a : Doing Unit}, a.Changes SameDeclared → ∀ m₁ m₂,
      .changed m₁ m₂ ∈ (note (.processed ⟨key, work, filling⟩)).log st s ++ a.log st₁ s₁ →
        SameDeclared m₁ m₂ := fun ha m₁ m₂ hm =>
    (List.mem_append.mp hm).elim (hsame m₁ m₂) ha.of_mem_log
  cases work with
  | type t b =>
    obtain ⟨d, hd, hasks, hdeclared, hchanges⟩ := processType_declares hplain hs₁ h
    refine ⟨fun t' b' d' ht hd' q hq => ?_, fun t' b' ht => hdeclared, fun m₁ m₂ hm => ?_⟩
    · obtain ⟨rfl, rfl⟩ := Work.type.inj ht
      obtain rfl := Except.ok.inj (hd.symm.trans hd')
      rw [Session.registered_append]
      exact List.mem_append_right _ (hasks q hq)
    · rcases List.mem_append.mp hm with hm | hm
      · exact (hsame m₁ m₂ hm).declaresOnly
      · exact (hchanges m₁ m₂ hm).mono fun kind k ps hk => ⟨hk.1, t, b, d, rfl, hd, hk.2⟩
  | global c => exact .of_same nofun (hrest (e.changes_processConstant _ _))
  | const t b c => exact .of_same nofun (hrest (e.changes_processConstant _ _))
  | function i b cs => exact .of_same nofun (hrest (e.changes_processInvoke _ _ _))
  | lambda i t b => exact .of_same nofun (hrest (e.changes_processInvoke _ _ _))
  | static m => exact .of_same nofun (hrest (e.changes_processInvoke _ _ _))
  | method m => exact .of_same nofun (hrest (e.changes_processInvoke _ _ _))

/-- **A scripted front end declares types as their declarations say**, all through a run. -/
theorem declaring (hplain : e.script.Plain) (hooks : Bool) {b : Option UInt64} {r₀ : Run Ledger}
    (hr₀ : r₀.session.program = e.program) :
    Run.Declaring (e.frontEnd hooks) b r₀ e.program := by
  intro n r r' i es hn hm
  have hprogram := (Run.program_advance hn).trans hr₀
  cases hm with
  | handed hpop hrun => exact process_declares hplain hprogram hrun

/-- What it does at the end of a run declares nothing. -/
theorem changes_last (hooks : Bool) : (e.frontEnd hooks).last.Changes SameDeclared := by
  cases hooks with
  | false => trivial
  | true =>
    refine Changes.bind (f := fun _ => e.finalChecks) ?_ fun _ => ?_
    · exact (changes_modifyState _).bind fun _ =>
        Changes.bind ⟨fun _ => .of_eq rfl rfl, trivial⟩ fun _ => changes_judge _ _
    · exact Changes.bind (fun _ _ => trivial) fun _ => (changes_modifyState _).bind fun _ =>
        changes_judge _ _

end Stage

end Script

end Monomorph
