import Monomorph.Proofs.Session.Settled

/-!
# Session/Seeding — what a session starts with

A session starts by asking for the core types that take no parameters and for the entry points
(`Session.seedLog`).  These are what a program starts with (`Program.Starts`), and nothing else is
registered before the first item is processed (`Session.registered_seedLog`).
-/

namespace Monomorph

/-- A core type that is declared, and takes no parameters. -/
def Program.CoreType (p : Program) (core name : String) (d : TypeDecl) : Prop :=
  ∃ id, p.findType? core name = some id ∧ p.type id = .ok d ∧ d.terms.isEmpty = true

/-- What is registered at the start. -/
inductive Program.Starts (p : Program) (c : Config) : Registration → Prop
  | type {name : String} {d : TypeDecl} (hname : name ∈ c.coreTypes)
      (hd : p.CoreType c.coreNamespace name d) : Starts p c (.type (.nominal d ∅))
  | entry {d : InvokeDecl} (hd : d ∈ p.entryPoints c.entryAttribute) :
      Starts p c (.work (.function d.id ∅ []))

namespace Session

/-! ## The events at the start -/

/-- What asking for the core types does. -/
def seedTypesLog (core : String) : List String → Session → List Event
  | [], _ => []
  | name :: rest, s => match s.program.findType? core name with
    | none => seedTypesLog core rest s
    | some t => match s.program.type t with
      | .error _ => []
      | .ok d =>
          if d.terms.isEmpty then
            .interned (.nominal d ∅) (s.tyAsks (.nominal d ∅)) ::
              match (intern (.nominal d ∅)).run s with
              | .ok (_, s') => seedTypesLog core rest s'
              | .error _ => []
          else seedTypesLog core rest s

/-- A session with one more entry point listed. -/
def withEntryPoint (s : Session) (key : String) : Session :=
  { s with assembly.entryPoints := s.assembly.entryPoints ++ [key] }

/-- What asking for the entry points does. -/
def seedEntryPointsLog : List InvokeDecl → Session → List Event
  | [], _ => []
  | d :: rest, s =>
      .requested (.function d.id ∅ []) (s.asks (.function d.id ∅ [])) ::
        match s.request (.function d.id ∅ []) with
        | .ok (key, s') =>
            .changed s'.assembly (s'.withEntryPoint key).assembly ::
              seedEntryPointsLog rest (s'.withEntryPoint key)
        | .error _ => []

/-- What a session starts with. -/
def seedLog (p : Program) (c : Config) : List Event :=
  let s := new p c.coreNamespace
  seedTypesLog c.coreNamespace c.coreTypes s ++
    match (seedTypes c.coreNamespace c.coreTypes).run s with
    | .ok (_, s') => seedEntryPointsLog (p.entryPoints c.entryAttribute) s'
    | .error _ => []

variable {core name : String} {names : List String} {ds : List InvokeDecl} {d : InvokeDecl}
  {s s' : Session}

/-- A core type is asked for if it is declared and takes no parameters; else nothing happens. -/
theorem seedTypes_cons_eq_ok (h : (seedTypes core (name :: names)).run s = .ok ((), s')) :
    ∃ es s₁, s.Path es s₁ ∧ (seedTypes core names).run s₁ = .ok ((), s') ∧
      seedTypesLog core (name :: names) s = es ++ seedTypesLog core names s₁ ∧
      ((es = [] ∧ ∀ d, ¬ s.program.CoreType core name d) ∨
        ∃ d, s.program.CoreType core name d ∧
          es = [.interned (.nominal d ∅) (s.tyAsks (.nominal d ∅))]) := by
  rw [seedTypes] at h
  obtain ⟨_, _, hget, h⟩ := run_bind_eq_ok.mp h
  obtain ⟨rfl, rfl⟩ := Prod.mk.inj (Except.ok.inj hget)
  rw [seedTypesLog]
  cases hfind : s.program.findType? core name with
  | none =>
    simp only [hfind] at h
    refine ⟨[], s, .nil s, h, rfl, .inl ⟨rfl, fun d ⟨id, hid, _⟩ => ?_⟩⟩
    cases hfind.symm.trans hid
  | some t =>
    simp only [hfind] at h
    obtain ⟨d, s₁, htype, h⟩ := run_bind_eq_ok.mp h
    cases hd : s.program.type t with
    | error e =>
      rw [hd] at htype
      cases htype
    | ok d' =>
      rw [hd] at htype
      obtain ⟨rfl, rfl⟩ := Prod.mk.inj (Except.ok.inj htype)
      by_cases hterms : d'.terms.isEmpty = true
      · simp only [hd, hterms, if_true] at h ⊢
        obtain ⟨x, s₁, hint, h⟩ := run_bind_eq_ok.mp h
        rw [hint]
        exact ⟨_, s₁, .cons (.interned hint) (.nil s₁), h, rfl,
          .inr ⟨d', ⟨t, hfind, hd, hterms⟩, rfl⟩⟩
      · simp only [hd, hterms] at h ⊢
        refine ⟨[], s, .nil s, h, rfl, .inl ⟨rfl, fun d ⟨id, hid, hd', hempty⟩ => hterms ?_⟩⟩
        obtain rfl := Option.some.inj (hfind.symm.trans hid)
        obtain rfl := Except.ok.inj (hd.symm.trans hd')
        exact hempty

theorem seedTypes_path (h : (seedTypes core names).run s = .ok ((), s')) :
    s.Path (seedTypesLog core names s) s' := by
  induction names generalizing s with
  | nil =>
    obtain ⟨-, rfl⟩ := Prod.mk.inj (Except.ok.inj h)
    exact .nil s
  | cons name names ih =>
    obtain ⟨es, s₁, hpath, hrest, hlog, -⟩ := seedTypes_cons_eq_ok h
    rw [hlog]
    exact hpath.append (ih hrest)

theorem seedEntryPoints_cons_eq_ok (h : (seedEntryPoints (d :: ds)).run s = .ok ((), s')) :
    ∃ key s₁, s.request (.function d.id ∅ []) = .ok (key, s₁) ∧
      (seedEntryPoints ds).run (s₁.withEntryPoint key) = .ok ((), s') := by
  rw [seedEntryPoints] at h
  obtain ⟨key, s₁, hreq, h⟩ := run_bind_eq_ok.mp h
  obtain ⟨_, s₂, hmod, h⟩ := run_bind_eq_ok.mp h
  obtain ⟨-, rfl⟩ := Prod.mk.inj (Except.ok.inj hmod)
  exact ⟨key, s₁, hreq, h⟩

theorem seedEntryPoints_path (h : (seedEntryPoints ds).run s = .ok ((), s')) :
    s.Path (seedEntryPointsLog ds s) s' := by
  induction ds generalizing s with
  | nil =>
    obtain ⟨-, rfl⟩ := Prod.mk.inj (Except.ok.inj h)
    exact .nil s
  | cons d ds ih =>
    obtain ⟨key, s₁, hreq, hrest⟩ := seedEntryPoints_cons_eq_ok h
    rw [seedEntryPointsLog, hreq]
    exact .cons (.requested hreq) (.cons (.changed s₁ _) (ih hrest))

theorem seeded_eq_ok {p : Program} {c : Config} {s : Session} (h : seeded p c = .ok s) :
    ∃ s₁, (seedTypes c.coreNamespace c.coreTypes).run (new p c.coreNamespace) = .ok ((), s₁) ∧
      (seedEntryPoints (p.entryPoints c.entryAttribute)).run s₁ = .ok ((), s) := by
  rw [seeded] at h
  cases htypes : (seedTypes c.coreNamespace c.coreTypes).run (new p c.coreNamespace) with
  | error e =>
    rw [htypes] at h
    cases h
  | ok r =>
    obtain ⟨⟨⟩, s₁⟩ := r
    rw [htypes] at h
    refine ⟨s₁, rfl, ?_⟩
    cases hentry : (seedEntryPoints (p.entryPoints c.entryAttribute)).run s₁ with
    | error e =>
      simp only [bind, Except.bind, hentry] at h
      cases h
    | ok r =>
      obtain ⟨⟨⟩, s₂⟩ := r
      simp only [bind, Except.bind, hentry] at h
      obtain rfl := Except.ok.inj h
      rfl

/-- **A session starts with the events listed.** -/
theorem seeded_path {p : Program} {c : Config} {s : Session} (h : seeded p c = .ok s) :
    (new p c.coreNamespace).Path (seedLog p c) s := by
  obtain ⟨s₁, htypes, hentry⟩ := seeded_eq_ok h
  rw [seedLog, htypes]
  exact (seedTypes_path htypes).append (seedEntryPoints_path hentry)

/-- Asking for the core types changes the assembly no further. -/
theorem changed_notMem_seedTypesLog {core : String} {names : List String} {s : Session}
    {m m' : Assembly} : .changed m m' ∉ seedTypesLog core names s := by
  induction names generalizing s with
  | nil => exact List.not_mem_nil
  | cons name rest ih =>
    rw [seedTypesLog]
    split
    · exact ih
    · split
      · exact List.not_mem_nil
      · split
        · rw [List.mem_cons, not_or]
          refine ⟨nofun, ?_⟩
          split
          · exact ih
          · exact List.not_mem_nil
        · exact ih

theorem changed_mem_seedEntryPointsLog {ds : List InvokeDecl} {s : Session} {m m' : Assembly}
    (h : .changed m m' ∈ seedEntryPointsLog ds s) :
    m' = { m with entryPoints := m'.entryPoints } := by
  induction ds generalizing s with
  | nil => cases h
  | cons d rest ih =>
    rw [seedEntryPointsLog, List.mem_cons] at h
    rcases h with h | h
    · cases h
    · split at h
      · rcases List.mem_cons.mp h with h | h
        · obtain ⟨rfl, rfl⟩ := Event.changed.inj h
          rfl
        · exact ih h
      · cases h

/-- **The start changes the assembly only by what it stores and by its entry points.** -/
theorem changed_mem_seedLog {p : Program} {c : Config} {m m' : Assembly}
    (h : .changed m m' ∈ seedLog p c) : m' = { m with entryPoints := m'.entryPoints } := by
  rw [seedLog, List.mem_append] at h
  rcases h with h | h
  · exact absurd h changed_notMem_seedTypesLog
  · split at h
    · exact changed_mem_seedEntryPointsLog h
    · cases h

/-- A session starts with nothing specialized. -/
theorem seeded_assembly {p : Program} {c : Config} {s : Session} (h : seeded p c = .ok s) :
    s.assembly = { ( ∅ : Assembly) with
      types := s.assembly.types, entryPoints := s.assembly.entryPoints } := by
  refine (seeded_path h).invariant (P := fun s => s.assembly = { ( ∅ : Assembly) with
    types := s.assembly.types, entryPoints := s.assembly.entryPoints }) ?_ rfl
  intro s s' e he hpass hs
  rcases hpass.assembly with ⟨m, rfl, rfl⟩ | hsame
  · rw [changed_mem_seedLog he, hs]
  · rw [hsame, hs]

/-! ## What is registered at the start -/

variable {x : Registration}

theorem registered_seedTypesLog (h : (seedTypes core names).run s = .ok ((), s')) :
    x ∈ registered (seedTypesLog core names s) ↔
      ∃ name ∈ names, ∃ d, s.program.CoreType core name d ∧ x = .type (.nominal d ∅) := by
  induction names generalizing s with
  | nil => simp [seedTypesLog, registered]
  | cons name names ih =>
    obtain ⟨es, s₁, hpath, hrest, hlog, hes⟩ := seedTypes_cons_eq_ok h
    rw [hlog, registered_append, List.mem_append, ih hrest, hpath.program,
      List.exists_mem_cons_iff]
    refine or_congr_left ?_
    obtain ⟨rfl, hnone⟩ | ⟨d, hd, rfl⟩ := hes
    · simp [registered, hnone]
    · have hsame : ∀ d', s.program.CoreType core name d' → d' = d := by
        obtain ⟨id, hid, hd, -⟩ := hd
        rintro d' ⟨id', hid', hd', -⟩
        obtain rfl := Option.some.inj (hid.symm.trans hid')
        exact Except.ok.inj (hd'.symm.trans hd)
      constructor
      · intro hx
        exact ⟨d, hd, List.mem_singleton.mp hx⟩
      · rintro ⟨d', hd', rfl⟩
        rw [hsame d' hd']
        exact List.mem_singleton_self _

theorem registered_seedEntryPointsLog (h : (seedEntryPoints ds).run s = .ok ((), s')) :
    x ∈ registered (seedEntryPointsLog ds s) ↔
      ∃ d ∈ ds, x = .work (.function d.id ∅ []) := by
  induction ds generalizing s with
  | nil => simp [seedEntryPointsLog, registered]
  | cons d ds ih =>
    obtain ⟨key, s₁, hreq, hrest⟩ := seedEntryPoints_cons_eq_ok h
    rw [seedEntryPointsLog, hreq, List.exists_mem_cons_iff, ← ih hrest]
    exact List.mem_cons

/-- **What is registered at the start is what the program starts with.** -/
theorem registered_seedLog {p : Program} {c : Config} (h : seeded p c = .ok s) :
    x ∈ registered (seedLog p c) ↔ p.Starts c x := by
  obtain ⟨s₁, htypes, hentry⟩ := seeded_eq_ok h
  simp only [seedLog, htypes, registered_append, List.mem_append,
    registered_seedTypesLog htypes, registered_seedEntryPointsLog hentry]
  constructor
  · rintro (⟨name, hname, d, hd, rfl⟩ | ⟨d, hd, rfl⟩)
    · exact .type hname hd
    · exact .entry hd
  · rintro (⟨hname, hd⟩ | ⟨hd⟩)
    · exact .inl ⟨_, hname, _, hd, rfl⟩
    · exact .inr ⟨_, hd, rfl⟩

end Session

end Monomorph
