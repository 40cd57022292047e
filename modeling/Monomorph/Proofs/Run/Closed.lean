import Monomorph.Proofs.Script.Declares

/-!
# Run/Closed — the assembly that comes out has the subtypes of the program

Where a run ends well, and the checks at the end have nothing to complain about, the assembly charts
the declarations of the program; so closing it does not fail, and of two types without parameters
one is below the other just if the program says so (`generate_subtypes`).
-/

namespace Monomorph

namespace Run

variable {σ : Type} {fe : FrontEnd σ} {r r' : Run σ} {p : Program} {c : Config}

/-- Concluding a run does what the front end does last, or nothing. -/
theorem conclude_sameDeclared (h : r.conclude fe = (.ok (), r'))
    (hlast : ∀ m₁ m₂, .changed m₁ m₂ ∈ fe.last.log r.state r.session → m₁.SameDeclared m₂) :
    r.session.assembly.SameDeclared r'.session.assembly := by
  rw [conclude] at h
  split at h
  case isTrue =>
    rcases hrun : fe.last.run r.state r.session with ⟨result, state, session⟩
    rw [FrontEnd.last] at hrun
    simp only [hrun] at h
    obtain ⟨rfl, rfl⟩ := Prod.mk.inj h
    refine (Action.run_path hrun).invariant
      (P := fun s => r.session.assembly.SameDeclared s.assembly) (fun he hpass hs => ?_)
      (.of_eq rfl rfl)
    rcases hpass.assembly with ⟨m, rfl, rfl⟩ | hsame
    · exact hs.trans (hlast _ _ he)
    · rw [hsame]
      exact hs.trans (.of_eq rfl rfl)
  case isFalse =>
    obtain ⟨-, rfl⟩ := Prod.mk.inj h
    exact .of_eq rfl rfl

/-- **The subtypes of the assembly are those of the program.**  The supertypes that a program names
are concepts, without a cycle; types are declared as their declarations say, and nothing more at the
end.  Then a run that ends well, and is concluded without complaint, comes to a closed assembly, in
which a type on record that has no parameters is below another just if its declaration provides the
other's at some distance. -/
theorem generate_subtypes {state : σ} {s : Session} {n : Nat} (hp : p.PlainlyNamed)
    (hconcepts : p.ProvidesConcepts) (hacyclic : p.Acyclic) (hs : Session.seeded p c = .ok s)
    (hfe : Declaring fe c.maxRounds { state, session := s } p)
    (h : advance fe c.maxRounds n { state, session := s } = .ended (.ok ()) r)
    (hlast : ∀ m₁ m₂, .changed m₁ m₂ ∈ fe.last.log r.state r.session → m₁.SameDeclared m₂)
    (hconclude : r.conclude fe = (.ok (), r'))
    (hquiet : (fe.diagnostics r'.state).isEmpty = true) :
    ∃ m, generate fe c n state p = (.closed m, r'.state) ∧
      ∀ t q d f, p.type t = .ok d → p.type q = .ok f →
        (∃ i ∈ r.session.instances, i.key = Key.type d ∅) →
          p.providesTransitively t q = .ok (m.isSubtype (Key.type d ∅) (Key.type f ∅)) := by
  obtain ⟨hcharts, hdeclared⟩ := ended_charts hp hconcepts hs hfe h
  have hsame := conclude_sameDeclared hconclude hlast
  obtain ⟨m, hclose, hsubtypes⟩ := (hcharts.of_declared hsame).close hp hconcepts hacyclic c
  refine ⟨m, ?_, fun t q d f hd hf ⟨i, hi, hkey⟩ => hsubtypes t q d f hd hf ?_⟩
  · rw [generate, hs]
    simp only [h, hconclude, outcome, hquiet, if_true, hclose]
  · rw [← hkey]
    have honly : r.session.assembly.DeclaresOnly (fun _ _ _ => False) _ := hsame.declaresOnly
    exact honly.hasNominal (hdeclared i hi)

end Run

namespace Gallery

def base : TypeDecl := ⟨⟨0⟩, "Main", "Base", .concept, [], [], [], "", {}⟩

def solid : TypeDecl := ⟨⟨1⟩, "Main", "Solid", .concept, [], [⟨0⟩], [], "", {}⟩

def cube : TypeDecl := ⟨⟨2⟩, "Main", "Cube", .entity, [], [⟨1⟩], [], "", {}⟩

/-- An entity below a concept below another, and a script with nothing in it. -/
def stage : Script.Stage where
  program := { types := [base, solid, cube] }
  core := "Main"
  script := {}

/-- What a declaration names stands before it. -/
theorem stage_extends {u v : TypeId} (h : stage.program.Extends u v) :
    v.index.toNat < u.index.toNat ∧ ∃ e, stage.program.type v = .ok e ∧ e.kind = .concept := by
  obtain ⟨d, hd, hv⟩ := h
  have hall : ∀ (n : Nat) (d : TypeDecl), stage.program.types[n]? = some d → ∀ q ∈ d.provides,
      q.index.toNat < n ∧ ∃ e, stage.program.type q = .ok e ∧ e.kind = .concept := by
    rintro (_ | _ | _ | n) d hd q hq
    · obtain rfl := Option.some.inj hd
      cases hq
    · obtain rfl := Option.some.inj hd
      obtain rfl := List.mem_singleton.mp hq
      exact ⟨by decide, base, rfl, rfl⟩
    · obtain rfl := Option.some.inj hd
      obtain rfl := List.mem_singleton.mp hq
      exact ⟨by decide, solid, rfl, rfl⟩
    · cases hd
  exact hall _ d hd v hv

/-- The entity is below the topmost concept, which only the other concept names. -/
theorem stage_subtypes : ∃ m st,
    generate (stage.frontEnd true) { coreNamespace := "Main", coreTypes := ["Cube"] } 4 {}
      stage.program = (.closed m, st) ∧ m.isSubtype "Main::Cube" "Main::Base" = true ∧
      m.isSubtype "Main::Base" "Main::Cube" = false := by
  have hend : (Run.ended? (stage.frontEnd true) stage.program
      { coreNamespace := "Main", coreTypes := ["Cube"] } {} 4).any (fun e =>
        decide ((∃ i ∈ e.2.session.instances, i.key = "Main::Cube") ∧
          (∃ i ∈ e.2.session.instances, i.key = "Main::Base")) &&
        (match (e.2.conclude (stage.frontEnd true)).1 with
          | .ok () => true
          | .error _ => false) &&
        ((stage.frontEnd true).diagnostics
          (e.2.conclude (stage.frontEnd true)).2.state).isEmpty) = true := by
    decide +kernel
  obtain ⟨e, he, hend⟩ := (Option.any_eq_true _ _).mp hend
  obtain ⟨s, hs, hrun, -⟩ := Run.ended?_eq_some he
  rw [Bool.and_eq_true, Bool.and_eq_true] at hend
  obtain ⟨⟨hinstances, hok⟩, hquiet⟩ := hend
  obtain ⟨hcube, hbase⟩ := of_decide_eq_true hinstances
  have hconclude : e.2.conclude (stage.frontEnd true)
      = (.ok (), (e.2.conclude (stage.frontEnd true)).2) := by
    rcases hc : e.2.conclude (stage.frontEnd true) with ⟨_ | u, r'⟩
    · rw [hc] at hok
      cases hok
    · rfl
  have hp : stage.program.PlainlyNamed := ⟨by decide +kernel, by decide +kernel⟩
  have hplain : stage.script.Plain := fun t x h => by cases h
  obtain ⟨m, hm, hsubtypes⟩ := Run.generate_subtypes hp (fun u v e => (stage_extends e).2)
    (Assembly.not_transGen_of_rank (fun t => t.index.toNat) fun u v e => (stage_extends e).1) hs
    (Script.Stage.declaring hplain true (Session.seeded_path hs).program) hrun
    (fun m₁ m₂ hm => (Script.Stage.changes_last true).of_mem_log hm) hconclude hquiet
  have hknown : stage.program.Known :=
    Program.ProvidesConcepts.known fun u v e => (stage_extends e).2
  obtain ⟨up, hup, hupiff⟩ := Program.providesTransitively_eq hknown ⟨2⟩ rfl ⟨0⟩
  obtain ⟨down, hdown, hdowniff⟩ := Program.providesTransitively_eq hknown ⟨0⟩ rfl ⟨2⟩
  rw [hsubtypes ⟨2⟩ ⟨0⟩ cube base rfl rfl hcube] at hup
  rw [hsubtypes ⟨0⟩ ⟨2⟩ base cube rfl rfl hbase] at hdown
  refine ⟨m, _, hm, (Except.ok.inj hup).trans (hupiff.mpr ?_), (Except.ok.inj hdown).trans ?_⟩
  · exact .head ⟨cube, rfl, List.mem_cons_self⟩ (.single ⟨solid, rfl, List.mem_cons_self⟩)
  · refine Bool.eq_false_iff.mpr fun h => ?_
    rcases (hdowniff.mp h).cases_head with heq | ⟨v, ⟨d, hd, hv⟩, -⟩
    · exact absurd heq (by decide)
    · obtain rfl := Option.some.inj hd
      cases hv

end Gallery

end Monomorph
