import Monomorph.Proofs.Session.Asking
import Monomorph.Proofs.Ty.Callable
import Monomorph.Ty.Equality

/-!
# Session/Identity — one key, one callable to specialize

Where callables have addresses of their own, the key a request is answered with says which callable
is asked for, with which types for the parameters of its container and for its own
(`Session.request_same`).  Of a lambda it says no more than where it is written: the bindings in
force there are those of the callable around it, which has a key of its own.
-/

namespace Monomorph

/-! ## Addresses of callables -/

/-- Where a callable is found: under a name in its container, or, for a lambda, where it is
written. -/
inductive Address
  | function (ns name : String)
  | member (containing : TypeId) (name : String)
  | lambda (file : String) (line : UInt32) (offset : UInt64)
deriving DecidableEq

/-- The address of a callable.  A static and a method of one name in one type share theirs. -/
def InvokeDecl.address (d : InvokeDecl) : Address :=
  match d.kind with
  | .function => .function d.ns d.name
  | .static t | .method t => .member t d.name
  | .lambda => .lambda d.file d.position.line d.position.offset

/-- **A program whose callables are told apart**: types and callables have plain names, and each
callable an address of its own. -/
structure Program.Addressed (p : Program) : Prop extends p.PlainlyNamed where
  callables : ∀ d ∈ p.invokes, d.kind ≠ .lambda → PlainName d.ns ∧ PlainName d.name
  addresses : (p.invokes.map InvokeDecl.address).Nodup

theorem InvokeDecl.address_of_containing? {d : InvokeDecl} {t : TypeId}
    (h : d.containing? = some t) : d.address = .member t d.name ∧ d.kind ≠ .lambda := by
  rw [containing?] at h
  rw [address]
  cases hk : d.kind <;> rw [hk] at h <;> cases h <;> exact ⟨rfl, nofun⟩

theorem Program.getElem?_of_invoke {p : Program} {i : InvokeId} {d : InvokeDecl}
    (h : p.invoke i = .ok d) : p.invokes[i.index.toNat]? = some d := by
  rw [invoke] at h
  split at h
  case h_1 d' hd =>
    obtain rfl := Except.ok.inj h
    exact hd
  case h_2 => cases h

theorem Program.mem_invokes {p : Program} {i : InvokeId} {d : InvokeDecl}
    (h : p.invoke i = .ok d) : d ∈ p.invokes :=
  List.mem_of_getElem? (getElem?_of_invoke h)

theorem Program.getElem?_of_type {p : Program} {t : TypeId} {d : TypeDecl}
    (h : p.type t = .ok d) : p.types[t.index.toNat]? = some d := by
  rw [type, type?] at h
  split at h
  case h_1 d' hd =>
    obtain rfl := Except.ok.inj h
    exact hd
  case h_2 => cases h

/-- Two places of a list at which a function of the elements is the same are one, where no two
elements have the same. -/
theorem index_unique {α β : Type} {f : α → β} {l : List α} (hl : (l.map f).Nodup) {i j : Nat}
    {a b : α} (ha : l[i]? = some a) (hb : l[j]? = some b) (h : f a = f b) : i = j := by
  have hi : i < (l.map f).length := by
    rw [List.length_map]
    exact (List.getElem?_eq_some_iff.mp ha).1
  refine (List.getElem?_inj hi hl).mp ?_
  rw [List.getElem?_map, List.getElem?_map, ha, hb, Option.map_some, Option.map_some, h]

namespace Program

variable {p : Program}

/-- A declaration stands under one id only. -/
theorem PlainlyNamed.id_unique (hp : p.PlainlyNamed) {t u : TypeId} {d : TypeDecl}
    (ht : p.type t = .ok d) (hu : p.type u = .ok d) : t = u := by
  have hindex := index_unique hp.distinct (getElem?_of_type ht) (getElem?_of_type hu) rfl
  exact congrArg TypeId.mk (UInt32.toNat_inj.mp hindex)

/-- **An address is that of one callable.** -/
theorem Addressed.id_unique (hp : p.Addressed) {i j : InvokeId} {d e : InvokeDecl}
    (hi : p.invoke i = .ok d) (hj : p.invoke j = .ok e) (h : d.address = e.address) : i = j := by
  have hindex :=
    index_unique hp.addresses (getElem?_of_invoke hi) (getElem?_of_invoke hj) h
  exact congrArg InvokeId.mk (UInt32.toNat_inj.mp hindex)

end Program

/-! ## Requests for callables -/

/-- The static or method asked for. -/
def Work.member? : Work → Option Member
  | .static m | .method m => some m
  | .type .. | .global _ | .const .. | .function .. | .lambda .. => none

/-- A member of the type of which it is asked for, with types built for parameters. -/
structure Member.Proper (p : Program) (m : Member) (c : TypeDecl) (d : InvokeDecl) : Prop where
  containing : p.type m.containing = .ok c
  decl : p.invoke m.decl = .ok d
  of : d.containing? = some m.containing
  outer : m.outer.Built p
  binds : m.binds.Built p

/-- **A request for a callable as it is declared.** -/
inductive Work.Proper (p : Program) : Work → Prop
  | function {i : InvokeId} {b : Binds} {cs : List Closure} {d : InvokeDecl}
      (hd : p.invoke i = .ok d) (hk : d.kind = .function) (hb : b.Built p) :
      Proper p (.function i b cs)
  | lambda {i : InvokeId} {t : FunctionTy} {scope : Binds} {d : InvokeDecl}
      (hd : p.invoke i = .ok d) (hk : d.kind = .lambda) : Proper p (.lambda i t scope)
  | member {w : Work} {m : Member} {c : TypeDecl} {d : InvokeDecl} (hw : w.member? = some m)
      (hm : m.Proper p c d) : Proper p w

/-- Requests for one member, with the same bindings in force.  If both bind the same names as their
own, what these stand for is the same, and so is what the container binds under any other name. -/
structure Member.Same (m m' : Member) : Prop where
  containing : m.containing = m'.containing
  decl : m.decl = m'.decl
  allBinds : m.allBinds = m'.allBinds
  apart : m.binds.keys = m'.binds.keys →
    m.binds = m'.binds ∧ ∀ n, n ∉ m.binds.keys → m.outer.get? n = m'.outer.get? n
  closures : Key.closures m.closures = Key.closures m'.closures

/-- **Requests for one callable**, with the same bindings, and closures written at the same places;
of a lambda nothing is said about the bindings in force where it is written. -/
inductive Work.Same : Work → Work → Prop
  | function {i : InvokeId} {b : Binds} {cs cs' : List Closure}
      (closures : Key.closures cs = Key.closures cs') : Same (.function i b cs) (.function i b cs')
  | lambda {i : InvokeId} {t t' : FunctionTy} {scope scope' : Binds} :
      Same (.lambda i t scope) (.lambda i t' scope')
  | member {w w' : Work} {m m' : Member} (hw : w.member? = some m) (hw' : w'.member? = some m')
      (h : m.Same m') : Same w w'

namespace Work

variable {p : Program} {w w' : Work} {k : String}

theorem key_function {i : InvokeId} {b : Binds} {cs : List Closure} {d : InvokeDecl}
    (hd : p.invoke i = .ok d) (h : (Work.function i b cs).key p = .ok k) :
    k = Key.function d.ns d.name b cs := by
  rw [key, hd] at h
  exact (Except.ok.inj h).symm

theorem key_lambda {i : InvokeId} {t : FunctionTy} {scope : Binds} {d : InvokeDecl}
    (hd : p.invoke i = .ok d) (h : (Work.lambda i t scope).key p = .ok k) : k = Key.lambda d := by
  rw [key, hd] at h
  exact (Except.ok.inj h).symm

theorem key_member {m : Member} {c : TypeDecl} {d : InvokeDecl} (hw : w.member? = some m)
    (hm : m.Proper p c d) (h : w.key p = .ok k) :
    k = Key.member c d.name m.allBinds m.closures := by
  cases w <;> cases hw <;> rw [key, hm.containing, hm.decl] at h <;>
    exact (Except.ok.inj h).symm

/-- A lambda has the key of no function and no member. -/
theorem key_lambda_ne (hp : p.Addressed) (e : InvokeDecl) :
    (∀ d ∈ p.invokes, d.kind = .function → ∀ b cs,
      Key.lambda e ≠ Key.function d.ns d.name b cs) ∧
    ∀ c ∈ p.types, ∀ n b cs, Key.lambda e ≠ Key.member c n b cs := by
  refine ⟨fun d hd hk b cs => ?_, fun c hc n b cs => ?_⟩
  · exact Key.lambda_ne (hp.callables d hd (by rw [hk]; nofun)).1 (Key.toList_function ..) e
  · exact Key.lambda_ne (hp.plain c hc).1 (Key.toList_member ..) e

/-- Requests for functions under one key. -/
theorem same_function (hp : p.Addressed) {i j : InvokeId} {b b' : Binds} {cs cs' : List Closure}
    {d e : InvokeDecl} (hd : p.invoke i = .ok d) (hk : d.kind = .function) (hb : b.Built p)
    (he : p.invoke j = .ok e) (hk' : e.kind = .function) (hb' : b'.Built p)
    (h : Key.function d.ns d.name b cs = Key.function e.ns e.name b' cs') :
    Same (.function i b cs) (.function j b' cs') := by
  obtain ⟨hns, hn⟩ := hp.callables d (Program.mem_invokes hd) (by rw [hk]; nofun)
  obtain ⟨hns', hn'⟩ := hp.callables e (Program.mem_invokes he) (by rw [hk']; nofun)
  obtain ⟨hspace, hname, rfl, hclosures⟩ :=
    Key.function_inj hp.toPlainlyNamed hns hns' hn hn' hb hb' h
  have haddress : d.address = e.address := by
    rw [InvokeDecl.address, InvokeDecl.address, hk, hk', hspace, hname]
  obtain rfl := hp.id_unique hd he haddress
  exact .function hclosures

/-- Requests for lambdas under one key. -/
theorem same_lambda (hp : p.Addressed) {i j : InvokeId} {t t' : FunctionTy} {scope scope' : Binds}
    {d e : InvokeDecl} (hd : p.invoke i = .ok d) (hk : d.kind = .lambda)
    (he : p.invoke j = .ok e) (hk' : e.kind = .lambda) (h : Key.lambda d = Key.lambda e) :
    Same (.lambda i t scope) (.lambda j t' scope') := by
  obtain ⟨hfile, hline, hoffset⟩ := Key.lambda_inj h
  have haddress : d.address = e.address := by
    rw [InvokeDecl.address, InvokeDecl.address, hk, hk', hfile, hline, hoffset]
  obtain rfl := hp.id_unique hd he haddress
  exact .lambda

/-- Requests for members under one key. -/
theorem same_member (hp : p.Addressed) {m m' : Member} {c c' : TypeDecl} {d d' : InvokeDecl}
    (hw : w.member? = some m) (hm : m.Proper p c d) (hw' : w'.member? = some m')
    (hm' : m'.Proper p c' d')
    (h : Key.member c d.name m.allBinds m.closures = Key.member c' d'.name m'.allBinds m'.closures) :
    w.Same w' := by
  have hd := Program.mem_invokes hm.decl
  have hd' := Program.mem_invokes hm'.decl
  obtain ⟨haddress, hk⟩ := InvokeDecl.address_of_containing? hm.of
  obtain ⟨haddress', hk'⟩ := InvokeDecl.address_of_containing? hm'.of
  obtain ⟨rfl, hname, hbinds, hclosures⟩ := Key.member_inj hp.toPlainlyNamed
    (Program.mem_types hm.containing) (Program.mem_types hm'.containing) (hp.callables d hd hk).2
    (hp.callables d' hd' hk').2 (hm.outer.overlay hm.binds) (hm'.outer.overlay hm'.binds) h
  have hcontaining := hp.toPlainlyNamed.id_unique hm.containing hm'.containing
  have hdecl : m.decl = m'.decl := hp.id_unique hm.decl hm'.decl (by
    rw [haddress, haddress', hcontaining, hname])
  exact .member hw hw' ⟨hcontaining, hdecl, hbinds,
    fun hkeys => Binds.overlay_inj hkeys hbinds, hclosures⟩

/-- **Works under one key are requests for one callable.** -/
theorem Proper.same (hp : p.Addressed) (hw : w.Proper p) (hw' : w'.Proper p)
    (h : w.key p = .ok k) (h' : w'.key p = .ok k) : w.Same w' := by
  -- keys of different sorts differ; keys of one sort say the address and the bindings
  cases hw with
  | @function i b cs d hd hk hb =>
    obtain rfl := key_function hd h
    cases hw' with
    | function hd' hk' hb' => exact same_function hp hd hk hb hd' hk' hb' (key_function hd' h')
    | lambda hd' _ =>
      exact absurd (key_lambda hd' h').symm
        ((key_lambda_ne hp _).1 d (Program.mem_invokes hd) hk b cs)
    | member hw' hm' =>
      obtain ⟨hns, hn⟩ := hp.callables d (Program.mem_invokes hd) (by rw [hk]; nofun)
      exact absurd (key_member hw' hm' h')
        (Key.function_ne_member (hp.plain _ (Program.mem_types hm'.containing)) hns hn)
  | @lambda i t scope d hd hk =>
    obtain rfl := key_lambda hd h
    cases hw' with
    | function hd' hk' _ =>
      exact absurd (key_function hd' h')
        ((key_lambda_ne hp d).1 _ (Program.mem_invokes hd') hk' _ _)
    | lambda hd' hk' => exact same_lambda hp hd hk hd' hk' (key_lambda hd' h')
    | member hw' hm' =>
      exact absurd (key_member hw' hm' h')
        ((key_lambda_ne hp d).2 _ (Program.mem_types hm'.containing) _ _ _)
  | member hw hm =>
    obtain rfl := key_member hw hm h
    cases hw' with
    | @function _ _ _ d' hd' hk' _ =>
      obtain ⟨hns, hn⟩ := hp.callables d' (Program.mem_invokes hd') (by rw [hk']; nofun)
      exact absurd (key_function hd' h').symm
        (Key.function_ne_member (hp.plain _ (Program.mem_types hm.containing)) hns hn)
    | lambda hd' _ =>
      exact absurd (key_lambda hd' h').symm
        ((key_lambda_ne hp _).2 _ (Program.mem_types hm.containing) _ _ _)
    | member hw' hm' => exact same_member hp hw hm hw' hm' (key_member hw' hm' h')

end Work

namespace Session

/-- Any piece of work that has a key can be asked for. -/
theorem exists_request {w : Work} {k : String} {s : Session}
    (h : (w.key s.program).toOption = some k) :
    ∃ s', s.request w = .ok (k, s') ∧ s'.program = s.program := by
  rw [request]
  cases hk : w.key s.program with
  | error e =>
    rw [hk] at h
    cases h
  | ok key =>
    rw [hk] at h
    obtain rfl : key = k := Option.some.inj h
    refine ⟨_, rfl, ?_⟩
    split <;> rfl

/-- **A key is answered for one callable.**  Of a program whose callables are told apart, any two
requests for callables as they are declared, whatever was asked for before and between them, that are
answered with one key ask for one callable with the same bindings, and hand over closures written at
the same places. -/
theorem request_same {p : Program} (hp : p.Addressed) {s s' t t' : Session} {w w' : Work}
    {k : String} (hs : s.program = p) (hs' : s'.program = p) (hw : w.Proper p) (hw' : w'.Proper p)
    (h : s.request w = .ok (k, t)) (h' : s'.request w' = .ok (k, t')) : w.Same w' :=
  Work.Proper.same hp hw hw' (hs ▸ (request_eq_ok h).1) (hs' ▸ (request_eq_ok h').1)

end Session

/-! ## Requests that a key does not tell apart -/

namespace Boxes

def box : TypeDecl := ⟨⟨0⟩, "Main", "Box", .entity, ["T"], [], [], "", {}⟩

def int : TypeDecl := ⟨⟨1⟩, "Main", "Int", .entity, [], [], [], "", {}⟩

def bool : TypeDecl := ⟨⟨2⟩, "Main", "Bool", .entity, [], [], [], "", {}⟩

/-- A type with one parameter, a static and a method in it that have a parameter of the same name,
and a lambda. -/
def program (method : String) : Program where
  types := [box, int, bool]
  invokes := [⟨⟨0⟩, "Main", "make", .static ⟨0⟩, ["T"], [], [], "", {}⟩,
    ⟨⟨1⟩, "Main", method, .method ⟨0⟩, ["T"], [], [], "", {}⟩,
    ⟨⟨2⟩, "Main", "", .lambda, [], [], [], "main.bsq", ⟨7, 3, 120, 10⟩⟩]

/-- One type for the parameter. -/
def of (d : TypeDecl) : Binds :=
  Table.ofList [("T", .nominal d ∅)]

def thunk : FunctionTy := ⟨[], .nominal int ∅⟩

/-- The static or the method, of boxes of one type, with a type for its own parameter. -/
def member (decl : UInt32) (outer inner : TypeDecl) (closures : List Closure) : Member :=
  ⟨⟨0⟩, of outer, ⟨decl⟩, of inner, closures⟩

def lambda (scope : TypeDecl) : Work :=
  .lambda ⟨2⟩ thunk (of scope)

theorem built_of {m : String} {d : TypeDecl} (hd : d ∈ (program m).types) :
    (of d).Built (program m) := by
  refine ⟨fun n hn => ?_, fun t ht => ?_⟩
  · obtain rfl : n = "T" := List.mem_singleton.mp hn
    decide +kernel
  · obtain rfl : t = .nominal d ∅ := List.mem_singleton.mp ht
    exact .nominal hd (List.forall_mem_nil _) (List.forall_mem_nil _)

theorem plainlyNamed (m : String) : (program m).PlainlyNamed where
  plain := (by decide +kernel : ∀ d ∈ [box, int, bool], PlainName d.ns ∧ PlainName d.name)
  distinct := (by decide +kernel : ([box, int, bool].map fun d => (d.ns, d.name)).Nodup)

/-- A static asked for twice, with closures written at one place in different callables. -/
theorem request_static : ∃ k s₁ s₂, (program "grow").Addressed ∧
    (Session.new (program "grow") "").request
      (.static (member 0 int bool [⟨⟨2⟩, "main.bsq", {}, "Main::f", of int, thunk⟩])) = .ok (k, s₁) ∧
    s₁.request
      (.static (member 0 int bool [⟨⟨2⟩, "main.bsq", {}, "Main::g", of bool, thunk⟩])) = .ok (k, s₂) ∧
    Work.Same
      (.static (member 0 int bool [⟨⟨2⟩, "main.bsq", {}, "Main::f", of int, thunk⟩]))
      (.static (member 0 int bool [⟨⟨2⟩, "main.bsq", {}, "Main::g", of bool, thunk⟩])) := by
  have haddressed : (program "grow").Addressed :=
    ⟨plainlyNamed _, by decide +kernel, by decide +kernel⟩
  have hproper : ∀ cs, (Work.static (member 0 int bool cs)).Proper (program "grow") := fun cs =>
    .member rfl ⟨rfl, rfl, rfl, built_of (by decide +kernel), built_of (by decide +kernel)⟩
  obtain ⟨s₁, h₁, hs₁⟩ := Session.exists_request (s := Session.new (program "grow") "")
    (w := .static (member 0 int bool [⟨⟨2⟩, "main.bsq", {}, "Main::f", of int, thunk⟩]))
    (k := "Main::Box::make<T=Main::Bool>[main.bsq%0%0]") (by decide +kernel)
  obtain ⟨s₂, h₂, -⟩ := Session.exists_request (s := s₁)
    (w := .static (member 0 int bool [⟨⟨2⟩, "main.bsq", {}, "Main::g", of bool, thunk⟩]))
    (k := "Main::Box::make<T=Main::Bool>[main.bsq%0%0]") (by rw [hs₁]; decide +kernel)
  exact ⟨_, s₁, s₂, haddressed, h₁, h₂,
    Session.request_same haddressed rfl hs₁ (hproper _) (hproper _) h₁ h₂⟩

/-- **Requests that differ under one key**: for a lambda in two scopes, for a static and a method of
one name, for a member whose own parameter hides that of its container, and for two members asked for
as if they were functions. -/
theorem request_shared : (program "make").PlainlyNamed ∧
    (∀ d ∈ (program "make").invokes, d.kind ≠ .lambda → PlainName d.ns ∧ PlainName d.name) ∧
    (program "make").invokes.Pairwise (fun d e => d.kind = e.kind → d.address ≠ e.address) ∧
    of int ≠ of bool ∧
    (∃ k s₁ s₂, (Session.new (program "make") "").request (lambda int) = .ok (k, s₁) ∧
      s₁.request (lambda bool) = .ok (k, s₂)) ∧
    (∃ k s₁ s₂, (Session.new (program "make") "").request (.static (member 0 int int []))
      = .ok (k, s₁) ∧ s₁.request (.method (member 1 int int [])) = .ok (k, s₂)) ∧
    (∃ k s₁ s₂, (Session.new (program "make") "").request (.static (member 0 int int []))
      = .ok (k, s₁) ∧ s₁.request (.static (member 0 bool int [])) = .ok (k, s₂)) ∧
    ∃ k s₁ s₂, (Session.new (program "make") "").request (.function ⟨0⟩ ∅ []) = .ok (k, s₁) ∧
      s₁.request (.function ⟨1⟩ ∅ []) = .ok (k, s₂) := by
  have both : ∀ (w w' : Work) (k : String), (w.key (program "make")).toOption = some k →
      (w'.key (program "make")).toOption = some k → ∃ k s₁ s₂,
        (Session.new (program "make") "").request w = .ok (k, s₁) ∧
          s₁.request w' = .ok (k, s₂) := by
    intro w w' k h h'
    obtain ⟨s₁, h₁, hs₁⟩ := Session.exists_request (s := Session.new (program "make") "") h
    obtain ⟨s₂, h₂, -⟩ := Session.exists_request (s := s₁) (by rw [hs₁]; exact h')
    exact ⟨k, s₁, s₂, h₁, h₂⟩
  refine ⟨plainlyNamed _, by decide +kernel, by decide +kernel, by decide +kernel, ?_, ?_, ?_, ?_⟩
  · exact both _ _ "fn--main.bsq+7##120" (by decide +kernel) (by decide +kernel)
  · exact both _ _ "Main::Box::make<T=Main::Int>" (by decide +kernel) (by decide +kernel)
  · exact both _ _ "Main::Box::make<T=Main::Int>" (by decide +kernel) (by decide +kernel)
  · exact both _ _ "Main::make" (by decide +kernel) (by decide +kernel)

end Boxes

end Monomorph
