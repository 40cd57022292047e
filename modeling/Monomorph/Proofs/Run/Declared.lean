import Monomorph.Proofs.Assembly.Declared
import Monomorph.Proofs.Run.Dispatched

/-!
# Run/Declared — a run that ends has charted the declarations it met

A front end that, for a type, asks for the supertypes its declaration names and declares it as the
declaration says (`Run.Declares`) keeps every assembly faithful: what is declared is declared as its
declaration says, under a key that has been seen (`Session.Faithful`).  Where a run ends all keys
seen have been handed over, so every supertype of a type declared is declared as well: the assembly
charts the program (`Run.ended_charts`).
-/

namespace Monomorph

namespace Assembly

/-- A change of what is declared: types that are allowed are, and no others. -/
def DeclaresOnly (allowed : TypeKind → String → List String → Prop) (m m' : Assembly) : Prop :=
  ∀ kind k, m'.declared? kind k = m.declared? kind k ∨
    ∃ ps, m'.declared? kind k = some ps ∧ allowed kind k ps

variable {m m' : Assembly} {k : String} {allowed : TypeKind → String → List String → Prop}

theorem DeclaresOnly.mono {allowed' : TypeKind → String → List String → Prop}
    (h : m.DeclaresOnly allowed m') (hsub : ∀ kind k ps, allowed kind k ps → allowed' kind k ps) :
    m.DeclaresOnly allowed' m' := fun kind k =>
  (h kind k).imp_right fun ⟨ps, hps, hk⟩ => ⟨ps, hps, hsub kind k ps hk⟩

/-- What is declared stays declared. -/
theorem DeclaresOnly.hasNominal (h : m.DeclaresOnly allowed m') (hk : m.hasNominal k = true) :
    m'.hasNominal k = true := by
  obtain ⟨kind, hkind⟩ := hasNominal_iff.mp hk
  refine hasNominal_iff.mpr ⟨kind, ?_⟩
  rcases h kind k with hsame | ⟨ps, hps, -⟩
  · rwa [hsame]
  · rw [hps]
    rfl

/-- The two declare the same. -/
def SameDeclared (m m' : Assembly) : Prop :=
  ∀ kind k, m'.declared? kind k = m.declared? kind k

theorem SameDeclared.of_eq (hc : m'.concepts = m.concepts) (he : m'.entities = m.entities) :
    m.SameDeclared m' := by
  intro kind k
  cases kind <;> simp only [declared?, hc, he]

theorem SameDeclared.trans {m'' : Assembly} (h : m.SameDeclared m') (h' : m'.SameDeclared m'') :
    m.SameDeclared m'' := fun kind k =>
  (h' kind k).trans (h kind k)

theorem SameDeclared.declaresOnly (h : m.SameDeclared m') : m.DeclaresOnly allowed m' :=
  fun kind k => .inl (h kind k)

theorem declared?_fillAll (m : Assembly) (ts : List Target) (kind : TypeKind) (k : String) :
    (m.fillAll ts).declared? kind k = m.declared? kind k := by
  induction ts generalizing m with
  | nil => rfl
  | cons t ts ih =>
    refine (ih _).trans ?_
    cases kind with
    | entity =>
      rw [declared?, declared?, entities_fill, Option.map_map]
      refine Option.map_congr fun d _ => ?_
      rw [Function.comp_apply]
      split <;> rfl
    | concept =>
      rw [declared?, declared?, concepts_fill, Option.map_map]
      refine Option.map_congr fun d _ => ?_
      rw [Function.comp_apply]
      split <;> rfl

end Assembly

namespace Session

/-- A type is declared under a key of a declaration of the program, as it says. -/
def Own (p : Program) (kind : TypeKind) (k : String) (ps : List String) : Prop :=
  ∃ t d b, p.type t = .ok d ∧ k = Key.type d b ∧ Assembly.DeclaredAs p d kind ps

/-- **What is declared has been seen, and is declared as its declaration says.** -/
structure Faithful (p : Program) (s : Session) : Prop where
  program : s.program = p
  seen : ∀ k, s.assembly.hasNominal k = true → k ∈ (s.queues.get .types).seen
  own : ∀ kind k ps, s.assembly.declared? kind k = some ps → Own p kind k ps

variable {p : Program} {s s' : Session} {e : Event} {es : List Event} {k : String}

theorem Passes.seen (h : Passes s e s') (hk : k ∈ (s.queues.get .types).seen) :
    k ∈ (s'.queues.get .types).seen :=
  sees_type.mp (h.sees (sees_type.mpr hk))

theorem Path.seen (h : Path s es s') (hk : k ∈ (s.queues.get .types).seen) :
    k ∈ (s'.queues.get .types).seen :=
  sees_type.mp (h.sees (sees_type.mpr hk))

/-- Only a change declares anything. -/
theorem Passes.declaresOnly (h : Passes s e s')
    {allowed : TypeKind → String → List String → Prop}
    (hc : ∀ m m', e = .changed m m' → m.DeclaresOnly allowed m') :
    s.assembly.DeclaresOnly allowed s'.assembly := by
  rcases h.assembly with ⟨m, he, hm⟩ | hsame
  · rw [hm]
    exact hc _ _ he
  · rw [hsame]
    exact fun kind k => .inl (by cases kind <;> rfl)

theorem Faithful.declares (hs : Faithful p s)
    (h : s.assembly.DeclaresOnly
      (fun kind k ps => k ∈ (s.queues.get .types).seen ∧ Own p kind k ps) s'.assembly)
    (hprogram : s'.program = s.program)
    (hseen : ∀ k, k ∈ (s.queues.get .types).seen → k ∈ (s'.queues.get .types).seen) :
    Faithful p s' := by
  refine ⟨hprogram.trans hs.program, fun k hk => hseen k ?_, fun kind k ps hps => ?_⟩
  · obtain ⟨kind, hkind⟩ := Assembly.hasNominal_iff.mp hk
    rcases h kind k with hsame | ⟨ps, -, hmem, -⟩
    · exact hs.seen k (Assembly.hasNominal_iff.mpr ⟨kind, hsame ▸ hkind⟩)
    · exact hmem
  · rcases h kind k with hsame | ⟨ps', hps', -, hown⟩
    · exact hs.own kind k ps (hsame ▸ hps)
    · obtain rfl := Option.some.inj (hps.symm.trans hps')
      exact hown

/-- A type asked for has been seen. -/
theorem Passes.seen_type (h : Passes s e s') (hs : Faithful p s) {t : TypeId} {b : Binds}
    (he : e.registration? = some (.work (.type t b)))
    (hk : (Work.type t b).key p = .ok k) : k ∈ (s'.queues.get .types).seen := by
  cases h with
  | @requested s' w key h =>
    obtain rfl := Registration.work.inj (Option.some.inj he)
    obtain ⟨hkey, rfl⟩ := request_eq_ok h
    rw [hs.program, hk] at hkey
    obtain rfl := Except.ok.inj hkey
    have hnow : k ∈ ((s.queues.push ⟨k, .type t b, none⟩).get .types).seen :=
      Queues.mem_seen_push.mpr (.inl ⟨rfl, rfl⟩)
    split
    case isTrue hheld => exact hs.seen k hheld
    case isFalse => exact hnow
  | interned | noted | changed | built => cases he

/-- **A path that declares types as their declarations say keeps a session faithful**, and has seen
in the end all types it asked for. -/
theorem Path.faithful (h : Path s es s') (hs : Faithful p s)
    (hc : ∀ m m', .changed m m' ∈ es →
      m.DeclaresOnly (fun kind k ps => k ∈ (s.queues.get .types).seen ∧ Own p kind k ps) m') :
    Faithful p s' ∧ (∀ k, s.assembly.hasNominal k = true → s'.assembly.hasNominal k = true) ∧
      ∀ t b, .work (.type t b) ∈ registered es → ∀ k, (Work.type t b).key p = .ok k →
        k ∈ (s'.queues.get .types).seen := by
  induction h with
  | nil => exact ⟨hs, fun _ => id, fun t b hx => by cases hx⟩
  | @cons s s₁ s' e es hpass hrest ih =>
    have honly := hpass.declaresOnly fun m m' he => hc m m' (he ▸ List.mem_cons_self)
    have hs₁ : Faithful p s₁ := hs.declares honly hpass.program fun _ => hpass.seen
    obtain ⟨hs', hgrow, hseen⟩ := ih hs₁ fun m m' he =>
      (hc m m' (List.mem_cons_of_mem _ he)).mono fun _ _ _ hk => hk.imp_left hpass.seen
    refine ⟨hs', fun k hk => hgrow k (honly.hasNominal hk), fun t b hx k hk => ?_⟩
    obtain ⟨e', he', hx'⟩ := mem_registered.mp hx
    rcases List.mem_cons.mp he' with rfl | he'
    · exact hrest.seen (hpass.seen_type hs hx' hk)
    · exact hseen t b (mem_registered.mpr ⟨e', he', hx'⟩) k hk

end Session

/-- What a front end does at the end of a run. -/
def FrontEnd.last {σ : Type} (fe : FrontEnd σ) : Action σ Unit :=
  fe.collectPatterns.bind fun () => fe.finalChecks

namespace Run

open Session (Faithful Own sees_type)

variable {σ : Type} {fe : FrontEnd σ} {b : Option UInt64} {r₀ r r' : Run σ} {p : Program}
  {c : Config}

/-- What an item does about declared types: a type asks for the supertypes that its declaration
names, with no types for their parameters, and is declared under its key as its declaration says;
nothing else is declared. -/
structure Declares (p : Program) (i : Item) (es : List Session.Event) (m : Assembly) : Prop where
  asks : ∀ t b d, i.work = .type t b → p.type t = .ok d →
    ∀ q ∈ d.provides, .work (.type q ∅) ∈ Session.registered es
  declared : ∀ t b, i.work = .type t b → m.hasNominal i.key = true
  changes : ∀ m₁ m₂, .changed m₁ m₂ ∈ es → m₁.DeclaresOnly (fun kind k ps => k = i.key ∧
    ∃ t b d, i.work = .type t b ∧ p.type t = .ok d ∧ Assembly.DeclaredAs p d kind ps) m₂

/-- Any other item declares nothing. -/
theorem Declares.of_same {i : Item} {es : List Session.Event} {m : Assembly}
    (hwork : ∀ t b, i.work ≠ .type t b)
    (h : ∀ m₁ m₂, .changed m₁ m₂ ∈ es → m₁.SameDeclared m₂) : Declares p i es m :=
  ⟨fun t b _ ht => absurd ht (hwork t b), fun t b ht => absurd ht (hwork t b),
    fun m₁ m₂ hm => (h m₁ m₂ hm).declaresOnly⟩

/-- While a run is under way every item declares what it has to. -/
def Declaring (fe : FrontEnd σ) (b : Option UInt64) (r₀ : Run σ) (p : Program) : Prop :=
  ∀ n r r' i es, advance fe b n r₀ = .running r → Moves fe r (.handed i es) r' →
    Declares p i es r'.session.assembly

/-- The session is faithful, and every type handed over is declared and its supertypes seen. -/
structure Charting (p : Program) (asked : List Asked) (items : List Item) (s : Session) :
    Prop where
  faithful : Faithful p s
  right : ∀ a ∈ asked, ∀ t b, a.item.work = .type t b → a.item.work.key p = .ok a.item.key
  handed : ∀ i ∈ items, ∀ t b, i.work = .type t b → s.assembly.hasNominal i.key = true ∧
    ∃ d, p.type t = .ok d ∧ i.key = Key.type d b ∧
      ∀ q ∈ d.provides, ∀ k, p.Bare q k → k ∈ (s.queues.get .types).seen

theorem charting_seeded {s : Session} (h : Session.seeded p c = .ok s) :
    Charting p (asked (Session.seedLog p c) []) [] s := by
  have hpath := Session.seeded_path h
  have hnone : ∀ k, s.assembly.hasNominal k = false := fun k => by
    rw [Session.seeded_assembly h]
    rfl
  refine ⟨⟨hpath.program, fun k hk => ?_, fun kind k ps hps => ?_⟩, fun a ha t b _ => ?_,
    List.forall_mem_nil _⟩
  · rw [hnone] at hk
    cases hk
  · have := Assembly.hasNominal_iff.mpr ⟨kind, Option.isSome_iff_exists.mpr ⟨ps, hps⟩⟩
    rw [hnone] at this
    cases this
  · rw [asked, List.flatMap_nil, List.append_nil] at ha
    exact (hpath.asked ha).1

/-- **One step** declares the type it hands over, and has seen its supertypes. -/
theorem Moves.charting {as : List Asked} {is : List Item} {d : Deed} (hm : Moves fe r d r')
    (hkept : r.session.queues.Kept as is)
    (hdeclares : ∀ i es, d = .handed i es → Declares p i es r'.session.assembly)
    (h : Charting p as is r.session) :
    Charting p (as ++ d.asks) (is ++ d.item?.toList) r'.session := by
  cases hm with
  | @handed l i queues state session hpop hrun =>
    have hitem := hdeclares i _ rfl
    have hpath := Action.run_path hrun
    obtain ⟨hl, hasked, hi⟩ := hkept.next hpop
    obtain ⟨a, ha, rfl⟩ := List.mem_map.mp hasked
    have hseen : ∀ k, k ∈ (queues.get .types).seen ↔ k ∈ (r.session.queues.get .types).seen :=
      fun k => by rw [Queues.seen_popFirst? hpop]
    have hkey : ∀ t b, a.item.work = .type t b →
        ∃ d, p.type t = .ok d ∧ a.item.key = Key.type d b := fun t b hwork => by
      have := h.right a (List.mem_filter.mp ha).1 t b hwork
      rw [hwork] at this
      obtain ⟨d, hd, hk⟩ := bind_eq_ok.mp this
      exact ⟨d, hd, (Except.ok.inj hk).symm⟩
    have hpopped : Faithful p { r.session with queues } :=
      ⟨h.faithful.program, fun k hk => (hseen k).mpr (h.faithful.seen k hk), h.faithful.own⟩
    obtain ⟨hfaithful, hgrow, hasks⟩ := hpath.faithful hpopped fun m₁ m₂ he =>
      (hitem.changes m₁ m₂ he).mono fun kind k ps ⟨hk, t, b, d, hwork, hd, hown⟩ => by
        obtain ⟨d', hd', hkey⟩ := hkey t b hwork
        obtain rfl := Except.ok.inj (hd.symm.trans hd')
        refine ⟨(hseen k).mpr ?_, t, d, b, hd, hk.trans hkey, hown⟩
        rw [hk]
        rwa [← hl, hwork] at hi
    refine ⟨hfaithful, fun a' ha' t b hwork => ?_, fun j hj t b hwork => ?_⟩
    · rcases List.mem_append.mp ha' with ha' | ha'
      · exact h.right a' ha' t b hwork
      · have := (hpath.asked ha').1
        rwa [show ({ r.session with queues } : Session).program = p from h.faithful.program] at this
    · rcases List.mem_append.mp hj with hj | hj
      · obtain ⟨hdeclared, d, hd, hkey, hall⟩ := h.handed j hj t b hwork
        exact ⟨hgrow _ hdeclared, d, hd, hkey, fun q hq k hk =>
          hpath.seen ((hseen k).mpr (hall q hq k hk))⟩
      · obtain rfl := List.mem_singleton.mp hj
        obtain ⟨d, hd, hkey⟩ := hkey t b hwork
        exact ⟨hitem.declared t b hwork, d, hd, hkey, fun q hq k hk =>
          hasks q ∅ (hitem.asks t b d hwork hd q hq) k hk⟩
  | @resolved ts hpop hts =>
    have hsame : ∀ kind k, (r.session.record ts).2.assembly.declared? kind k
        = r.session.assembly.declared? kind k := fun kind k => by
      rw [Session.assembly_record, Assembly.declared?_fillAll]
    have hseen : ∀ k, k ∈ (r.session.queues.get .types).seen →
        k ∈ ((r.session.record ts).2.queues.get .types).seen := fun k hk =>
      (Moves.resolved hpop hts).seen hk
    have honly : ∀ allowed, r.session.assembly.DeclaresOnly allowed
        (r.session.record ts).2.assembly := fun allowed kind k => .inl (hsame kind k)
    refine ⟨h.faithful.declares (honly _) (r.session.record_same ts).1 hseen,
      fun a ha t b hwork => ?_, fun j hj t b hwork => ?_⟩
    · rcases List.mem_append.mp ha with ha | ha
      · exact h.right a ha t b hwork
      · obtain ⟨t', -, rfl⟩ := List.mem_map.mp ha
        cases hwork
    · rw [show (Deed.resolved _).item?.toList = ([] : List Item) from rfl, List.append_nil] at hj
      obtain ⟨hdeclared, d, hd, hkey, hall⟩ := h.handed j hj t b hwork
      exact ⟨(honly fun _ _ _ => False).hasNominal hdeclared, d, hd, hkey,
        fun q hq k hk => hseen k (hall q hq k hk)⟩

theorem charting {state : σ} {s : Session} {n : Nat} (hs : Session.seeded p c = .ok s)
    (hfe : Declaring fe b { state, session := s } p)
    (h : advance fe b n { state, session := s } = .running r) :
    Charting p (asked (Session.seedLog p c) (history fe b n { state, session := s }))
      (handed (history fe b n { state, session := s })) r.session := by
  refine invariant (P := fun ds r => Charting p (asked (Session.seedLog p c) ds) (handed ds)
    r.session) (charting_seeded hs) (fun hn hr hm => ?_) h
  rw [asked_concat, handed_concat]
  exact hm.charting (kept hs hn) (fun i es hd => hfe _ _ _ i es hn (hd ▸ hm)) hr

/-- **Where a run ends, the assembly charts the program**, and every type seen is declared. -/
theorem ended_charts {state : σ} {s : Session} {n : Nat} (hp : p.PlainlyNamed)
    (hconcepts : p.ProvidesConcepts) (hs : Session.seeded p c = .ok s)
    (hfe : Declaring fe c.maxRounds { state, session := s } p)
    (h : advance fe c.maxRounds n { state, session := s } = .ended (.ok ()) r) :
    r.session.assembly.Charts p ∧ ∀ i ∈ r.session.instances,
      r.session.assembly.hasNominal i.key = true := by
  obtain ⟨hitems, hkept⟩ := ended_kept hs h
  obtain ⟨m, r', hm, hstep, hhist⟩ := advance_ended h
  obtain ⟨-, ts, -, -, hmove, -⟩ := step_eq_ended hstep
  have hcharting := hmove.charting (kept hs hm) (fun i es hd => hfe _ _ _ i es hm (hd ▸ hmove))
    (charting hs hfe hm)
  rw [← asked_concat, ← handed_concat, ← hhist] at hcharting
  have hlisted : r.session.agenda.Listed := hmove.listed (listed hs hm)
  -- nothing waits, so every type seen has been handed over
  have hseen : ∀ k, k ∈ (r.session.queues.get .types).seen →
      r.session.assembly.hasNominal k = true ∧ ∃ t b d, p.type t = .ok d ∧ k = Key.type d b ∧
        ∀ q ∈ d.provides, ∀ k, p.Bare q k → k ∈ (r.session.queues.get .types).seen := by
    intro k hk
    obtain ⟨i, hi, rfl⟩ := List.mem_map.mp ((hkept.mem_seen_iff (hitems .types)).mp hk)
    obtain ⟨hi, hlane⟩ := List.mem_filter.mp hi
    obtain ⟨key, work, filling⟩ := i
    cases work with
    | type t b =>
      obtain ⟨hdeclared, d, hd, hkey, hall⟩ := hcharting.handed _ hi t b rfl
      exact ⟨hdeclared, t, b, d, hd, hkey, hall⟩
    | global | const | function | lambda | static | method => cases of_decide_eq_true hlane
  refine ⟨fun kind k ps hps => ⟨hcharting.faithful.own kind k ps hps, fun s hs => ?_⟩,
    fun i hi => (hseen i.key (hlisted.mem_seen.mpr ⟨i, hi, rfl⟩)).1⟩
  obtain ⟨t, d, b, hd, rfl, -, hall⟩ := hcharting.faithful.own kind k ps hps
  have hk := hcharting.faithful.seen _ (Assembly.hasNominal_iff.mpr ⟨kind, by rw [hps]; rfl⟩)
  obtain ⟨-, t', b', d', hd', hkey, hsupers⟩ := hseen _ hk
  obtain rfl := Key.type_decl hp (Program.mem_types hd) (Program.mem_types hd') hkey
  obtain ⟨q, hq, hbare⟩ := (hall s).mp hs
  obtain ⟨hdeclared, -⟩ := hseen s (hsupers q hq s hbare)
  -- it is declared as its declaration says, so as a concept
  obtain ⟨e, he, hconcept⟩ := hconcepts t q ⟨d, Program.type_eq_ok.mp hd, hq⟩
  obtain rfl := (Program.bare_iff he).mp hbare
  obtain ⟨kind', hkind'⟩ := Assembly.hasNominal_iff.mp hdeclared
  obtain ⟨ps', hps'⟩ := Option.isSome_iff_exists.mp hkind'
  obtain ⟨t'', e', b'', he', hkey', hown, -⟩ := hcharting.faithful.own kind' _ ps' hps'
  obtain rfl := Key.type_decl hp (Program.mem_types he) (Program.mem_types he') hkey'
  rwa [← hconcept, ← hown]

end Run

end Monomorph
