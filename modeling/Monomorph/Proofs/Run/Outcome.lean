import Monomorph.Generate
import Monomorph.Proofs.FrontEnd.Actions
import Monomorph.Proofs.Run.Served

/-!
# Run/Outcome — an assembly, or everything that was complained about

A specialization calls the front end once for every item, and twice more at the end.  The calls made
are listed with what each came to and the state it left (`calls`).  A step makes one call at most,
and goes on only if it went well (`Run.step_of_call?`), so **a call that fails is the last**; what is
reported then is what the front end had complained about, and the failure after it.  The calls at the
end are made where nothing had been complained about, and an assembly comes out where there is no
complaint after them either (`generate_allOrNothing`).
-/

namespace Monomorph

/-! ## Calls of the front end -/

/-- What a front end is called for. -/
inductive Purpose
  | item (i : Item)
  /-- Collect the patterns of the program. -/
  | patterns
  /-- Check the whole program. -/
  | checks

/-- What is said of a failure: that of an item names the item, unless it names one already. -/
def Purpose.complaint (p : Purpose) (f : Failure) : Diagnostic where
  message := match p, f with
    | .item _, .hard k m => (Failure.hard k m).text
    | .item i, f => (Failure.hard i.key f.text).text
    | .patterns, f | .checks, f => f.text

/-- A call made, what it came to, and the state of the front end then. -/
structure Called (σ : Type) where
  purpose : Purpose
  result : Except Stop Unit
  state : σ

namespace Run

variable {σ : Type}

/-- The call made in the next step, if an item waits. -/
def call? (fe : FrontEnd σ) (r : Run σ) : Option (Called σ) :=
  (r.session.queues.popFirst? r.turn.lanes).map fun (_, i, queues) =>
    let ran := (fe.process i).run r.state { r.session with queues }
    ⟨.item i, ran.1, ran.2.1⟩

/-- The calls made in so many steps, or in as many as there are. -/
def calls (fe : FrontEnd σ) (maxRounds : Option UInt64) : Nat → Run σ → List (Called σ)
  | 0, _ => []
  | n + 1, r => (r.call? fe).toList ++ match step fe maxRounds r with
    | .running r => calls fe maxRounds n r
    | .ended .. => []

/-- The calls made to conclude a run. -/
def lastCalls (fe : FrontEnd σ) (r : Run σ) : List (Called σ) :=
  if (fe.diagnostics r.state).isEmpty then
    match fe.collectPatterns.run r.state r.session with
    | (.error why, state, _) => [⟨.patterns, .error why, state⟩]
    | (.ok (), state, session) =>
        let ran := fe.finalChecks.run state session
        [⟨.patterns, .ok (), state⟩, ⟨.checks, ran.1, ran.2.1⟩]
  else []

end Run

/-- **The calls a specialization makes**, the first first. -/
def calls {σ : Type} (fe : FrontEnd σ) (c : Config) (steps : Nat) (state : σ) (p : Program) :
    List (Called σ) :=
  match Session.seeded p c with
  | .error _ => []
  | .ok session =>
      Run.calls fe c.maxRounds steps { state, session } ++
        match Run.advance fe c.maxRounds steps { state, session } with
        | .ended (.ok ()) r => r.lastCalls fe
        | .running _ | .ended (.error _) _ => []

namespace Run

variable {σ : Type} {fe : FrontEnd σ} {b : Option UInt64} {r r' : Run σ} {a : Called σ}

/-! ## A call that fails is the last -/

/-- **One step** makes one call at most, for an item, and ends as the call does if it fails. -/
theorem step_of_call? (h : r.call? fe = some a) : ∃ i, a.purpose = .item i ∧
    ∀ why, a.result = .error why →
      ∃ r', step fe b r = .ended (.error (why.ofItem i.key)) r' ∧ r'.state = a.state := by
  rw [call?, Option.map_eq_some_iff] at h
  obtain ⟨⟨l, i, queues⟩, hpop, rfl⟩ := h
  refine ⟨i, rfl, fun why hwhy => ?_⟩
  rw [step, hpop]
  simp only [process]
  rcases hrun : (fe.process i).run r.state { r.session with queues } with ⟨result, state, session⟩
  simp only [hrun] at hwhy
  obtain rfl := hwhy
  exact ⟨_, rfl, rfl⟩

/-- The calls of a run are for items. -/
theorem purposes_calls (fe : FrontEnd σ) (b : Option UInt64) (n : Nat) (r : Run σ) :
    ∃ items : List Item, (calls fe b n r).map Called.purpose = items.map .item := by
  induction n generalizing r with
  | zero => exact ⟨[], rfl⟩
  | succ n ih =>
    obtain ⟨later, hlater⟩ : ∃ items : List Item, (match step fe b r with
        | .running r => calls fe b n r
        | .ended .. => []).map Called.purpose = items.map .item := by
      split
      · exact ih _
      · exact ⟨[], rfl⟩
    rw [calls, List.map_append, hlater]
    cases hcall : r.call? fe with
    | none => exact ⟨later, rfl⟩
    | some a =>
      obtain ⟨i, hi, -⟩ := step_of_call? (b := b) hcall
      exact ⟨i :: later, by simp [hi]⟩

/-- **A run ends with the call that fails**, in the state that call left. -/
theorem calls_of_error {n : Nat} {before after : List (Called σ)} {why : Stop}
    (h : calls fe b n r = before ++ a :: after) (ha : a.result = .error why) :
    after = [] ∧ ∃ i r', a.purpose = .item i ∧
      advance fe b n r = .ended (.error (why.ofItem i.key)) r' ∧ r'.state = a.state := by
  induction n generalizing r before with
  | zero => simp [calls] at h
  | succ n ih =>
    rw [calls] at h
    -- the step that fails makes the last call; any other leaves the failing one to the rest
    have rest : ∀ {before}, (match step fe b r with
        | .running r => calls fe b n r
        | .ended .. => []) = before ++ a :: after → after = [] ∧ ∃ i r', a.purpose = .item i ∧
          advance fe b (n + 1) r = .ended (.error (why.ofItem i.key)) r' ∧ r'.state = a.state := by
      intro before hrest
      rw [advance]
      cases hstep : step fe b r with
      | running r₁ =>
        rw [hstep] at hrest
        exact ih hrest
      | ended => simp [hstep] at hrest
    cases hcall : r.call? fe with
    | none =>
      rw [hcall] at h
      exact rest h
    | some x =>
      rw [hcall] at h
      cases before with
      | cons y before => exact rest (List.cons.inj h).2
      | nil =>
        obtain ⟨rfl, hafter⟩ := List.cons.inj h
        obtain ⟨i, hi, hfails⟩ := step_of_call? (b := b) hcall
        obtain ⟨r', hstep, hstate⟩ := hfails why ha
        rw [hstep] at hafter
        refine ⟨hafter.symm, i, r', hi, ?_, hstate⟩
        rw [advance, hstep]

/-! ## The calls at the end -/

/-- **A run is concluded in one of four ways**: not at all, because of complaints; as far as the
patterns; as far as the checks; or to the end. -/
theorem conclude_cases (fe : FrontEnd σ) (r : Run σ) :
    (fe.diagnostics r.state ≠ [] ∧ r.conclude fe = (.ok (), r) ∧ r.lastCalls fe = []) ∨
      ∃ a r', r.conclude fe = (a.result, r') ∧ r'.state = a.state ∧ fe.diagnostics r.state = [] ∧
        (a.purpose = .patterns ∧ a.result ≠ .ok () ∧ r.lastCalls fe = [a] ∨
          a.purpose = .checks ∧ ∃ first, first.purpose = .patterns ∧ first.result = .ok () ∧
            r.lastCalls fe = [first, a]) := by
  rw [conclude, lastCalls]
  by_cases hquiet : fe.diagnostics r.state = []
  · right
    simp only [hquiet, List.isEmpty_nil, if_true, Action.run_bind]
    rcases fe.collectPatterns.run r.state r.session with ⟨why | ⟨⟩, state, session⟩
    · exact ⟨⟨.patterns, .error why, state⟩, { r with state, session }, rfl, rfl, trivial,
        .inl ⟨rfl, nofun, rfl⟩⟩
    · exact ⟨⟨.checks, _, _⟩, { r with
          state := (fe.finalChecks.run state session).2.1
          session := (fe.finalChecks.run state session).2.2 }, rfl, rfl, trivial,
        .inr ⟨rfl, ⟨.patterns, .ok (), state⟩, rfl, rfl, rfl⟩⟩
  · left
    rw [if_neg (by simpa using hquiet), if_neg (by simpa using hquiet)]
    exact ⟨hquiet, rfl, rfl⟩

/-- In a run that ends well every call went well. -/
theorem result_of_ended {n : Nat} (h : advance fe b n r = .ended (.ok ()) r')
    (ha : a ∈ calls fe b n r) : a.result = .ok () := by
  cases hresult : a.result with
  | ok u => rfl
  | error why =>
    obtain ⟨before, after, hcalls⟩ := List.append_of_mem ha
    obtain ⟨-, i, r'', -, hended, -⟩ := calls_of_error hcalls hresult
    rw [h] at hended
    cases hended

theorem eq_ok_of_outcome {c : Config} {result : Except Stop Unit} {m : Assembly}
    (h : r.outcome fe c result = .closed m) : result = .ok () ∧ fe.diagnostics r.state = [] := by
  dsimp only [outcome] at h
  split at h
  case h_1 => cases h
  case h_2 => cases h
  case h_3 =>
    split at h
    case isTrue hquiet => exact ⟨rfl, List.isEmpty_iff.mp hquiet⟩
    case isFalse => cases h

end Run

/-! ## What comes out -/

variable {σ : Type} {fe : FrontEnd σ} {c : Config} {steps : Nat} {state : σ} {p : Program}
  {s : Session} {r : Run σ}

theorem Purpose.complaint_item (i : Item) (f : Failure) :
    (Purpose.item i).complaint f = { message := (f.ofItem i.key).text } := by
  cases f <;> rfl

/-- A run that ends with a failure is reported with it. -/
theorem generate_of_failure {f : Failure} (hs : Session.seeded p c = .ok s)
    (h : Run.advance fe c.maxRounds steps { state, session := s } = .ended (.error (.failure f)) r) :
    generate fe c steps state p
      = (.rejected (fe.diagnostics r.state ++ [{ message := f.text }]), r.state) := by
  simp only [generate, hs, h]
  rfl

/-- A run that ends well is concluded. -/
theorem generate_of_ended (hs : Session.seeded p c = .ok s)
    (h : Run.advance fe c.maxRounds steps { state, session := s } = .ended (.ok ()) r) :
    generate fe c steps state p
        = ((r.conclude fe).2.outcome fe c (r.conclude fe).1, (r.conclude fe).2.state) ∧
      calls fe c steps state p
        = Run.calls fe c.maxRounds steps { state, session := s } ++ r.lastCalls fe := by
  simp only [generate, calls, hs, h, and_self]

/-- **A call for an item that fails** is the last of all calls, and its failure is put down to the
item. -/
theorem generate_of_calls {before after : List (Called σ)} {a : Called σ} {f : Failure}
    (hs : Session.seeded p c = .ok s)
    (h : Run.calls fe c.maxRounds steps { state, session := s } = before ++ a :: after)
    (ha : a.result = .error (.failure f)) :
    calls fe c steps state p = before ++ [a] ∧ after = [] ∧ generate fe c steps state p
      = (.rejected (fe.diagnostics a.state ++ [a.purpose.complaint f]), a.state) := by
  obtain ⟨rfl, i, r, hi, hended, hstate⟩ := Run.calls_of_error h ha
  refine ⟨?_, rfl, ?_⟩
  · simp only [calls, hs, h, hended, List.append_nil]
  · rw [generate_of_failure hs hended, hstate, hi, Purpose.complaint_item]

/-- **A call at the end that fails** is the last, and its failure is reported as it is. -/
theorem generate_of_lastCalls {before after : List (Called σ)} {a : Called σ} {f : Failure}
    (hs : Session.seeded p c = .ok s)
    (hended : Run.advance fe c.maxRounds steps { state, session := s } = .ended (.ok ()) r)
    (h : r.lastCalls fe = before ++ a :: after) (ha : a.result = .error (.failure f)) :
    after = [] ∧ generate fe c steps state p
      = (.rejected (fe.diagnostics a.state ++ [a.purpose.complaint f]), a.state) := by
  obtain ⟨hgenerate, -⟩ := generate_of_ended hs hended
  -- the call that fails is the one that the run is concluded with
  have concluded : ∀ x r', r.conclude fe = (x.result, r') → r'.state = x.state → x = a →
      a.purpose.complaint f = { message := f.text } → generate fe c steps state p
        = (.rejected (fe.diagnostics a.state ++ [a.purpose.complaint f]), a.state) := by
    rintro x r' hconclude hstate rfl hcomplaint
    rw [hgenerate, hconclude, ha, hcomplaint, ← hstate]
    rfl
  have single : ∀ {before} {x : Called σ}, [x] = before ++ a :: after → x = a ∧ after = [] := by
    rintro (_ | ⟨y, before⟩) x hx <;> simp_all
  rcases r.conclude_cases fe with ⟨-, -, hlast⟩ | ⟨x, r', hconclude, hstate, -, hcases⟩
  · simp [hlast] at h
  rcases hcases with ⟨hx, -, hlast⟩ | ⟨hx, first, -, hfirst, hlast⟩
  · obtain ⟨hxa, hafter⟩ := single (hlast.symm.trans h)
    refine ⟨hafter, concluded x r' hconclude hstate hxa ?_⟩
    rw [← hxa, hx]
    rfl
  · rw [hlast] at h
    cases before with
    | nil =>
      rw [(List.cons.inj h).1, ha] at hfirst
      cases hfirst
    | cons y before =>
      obtain ⟨hxa, hafter⟩ := single (List.cons.inj h).2
      refine ⟨hafter, concluded x r' hconclude hstate hxa ?_⟩
      rw [← hxa, hx]
      rfl

/-- A call is one for an item, or one at the end of a run that has ended well. -/
theorem calls_eq_append {before after : List (Called σ)} {a : Called σ}
    (h : calls fe c steps state p = before ++ a :: after) : ∃ s, Session.seeded p c = .ok s ∧
      ((∃ mid, Run.calls fe c.maxRounds steps { state, session := s } = before ++ a :: mid) ∨
        ∃ r mid, Run.advance fe c.maxRounds steps { state, session := s } = .ended (.ok ()) r ∧
          r.lastCalls fe = mid ++ a :: after) := by
  cases hs : Session.seeded p c with
  | error e => simp [calls, hs] at h
  | ok s =>
    refine ⟨s, rfl, ?_⟩
    simp only [calls, hs] at h
    have atEnd : ∀ mid, (match Run.advance fe c.maxRounds steps { state, session := s } with
        | .ended (.ok ()) r => r.lastCalls fe
        | .running _ | .ended (.error _) _ => []) = mid ++ a :: after →
          ∃ r mid, Run.advance fe c.maxRounds steps { state, session := s } = .ended (.ok ()) r ∧
            r.lastCalls fe = mid ++ a :: after := by
      intro mid hlast
      split at hlast
      case h_1 r hrun => exact ⟨r, mid, hrun, hlast⟩
      all_goals simp at hlast
    rcases List.append_eq_append_iff.mp h with ⟨mid, -, hlast⟩ | ⟨mid, hitems, hlast⟩
    · exact .inr (atEnd mid hlast)
    · cases mid with
      | nil => exact .inr (atEnd [] hlast.symm)
      | cons x mid =>
        obtain ⟨rfl, -⟩ := List.cons.inj hlast
        exact .inl ⟨mid, hitems⟩

/-- An assembly comes out of a run that has ended well. -/
theorem ended_of_closed {m : Assembly} {final : σ}
    (h : generate fe c steps state p = (.closed m, final)) : ∃ s r, Session.seeded p c = .ok s ∧
      Run.advance fe c.maxRounds steps { state, session := s } = .ended (.ok ()) r := by
  cases hs : Session.seeded p c with
  | error e => simp [generate, hs] at h
  | ok s =>
    refine ⟨s, ?_⟩
    cases hrun : Run.advance fe c.maxRounds steps { state, session := s } with
    | running r => simp [generate, hs, hrun] at h
    | ended result r =>
      cases result with
      | error why => cases why <;> simp [generate, hs, hrun, Run.outcome] at h
      | ok u => exact ⟨r, rfl, rfl⟩

/-- **Where an assembly comes out**, both calls at the end were made and went well, and there is no
complaint after them. -/
theorem concluded_of_closed {m : Assembly} {final : σ} (hs : Session.seeded p c = .ok s)
    (hended : Run.advance fe c.maxRounds steps { state, session := s } = .ended (.ok ()) r)
    (h : generate fe c steps state p = (.closed m, final)) :
    fe.diagnostics final = [] ∧ ∃ first last, r.lastCalls fe = [first, last] ∧
      first.purpose = .patterns ∧ last.purpose = .checks ∧
        first.result = .ok () ∧ last.result = .ok () := by
  have houtcome := (generate_of_ended hs hended).1.symm.trans h
  obtain ⟨hresult, hquiet⟩ := Run.eq_ok_of_outcome (congrArg (·.1) houtcome)
  have hfinal : (r.conclude fe).2.state = final := congrArg (·.2) houtcome
  refine ⟨hfinal ▸ hquiet, ?_⟩
  rcases r.conclude_cases fe with ⟨hcomplaints, hconclude, -⟩ | ⟨x, r', hconclude, -, -, hcases⟩
  · rw [hconclude] at hquiet
    exact absurd hquiet hcomplaints
  · rw [hconclude] at hresult
    rcases hcases with ⟨-, hne, -⟩ | ⟨hx, first, hpurpose, hfirst, hlast⟩
    · exact absurd hresult hne
    · exact ⟨first, x, hlast, hpurpose, hx, hfirst, hresult⟩

/-- **All or nothing.**  A call that fails is the last, and what comes out is everything complained
about by then and, after it, the failure.  So it is with any other failure of a run.  Where a run
ends well, but not without complaint, the calls at the end are not made, and what was complained
about comes out.  An assembly comes out only of a run that has ended well, every call of which went
well, those at the end among them, and without complaint after all. -/
theorem generate_allOrNothing (fe : FrontEnd σ) (c : Config) (steps : Nat) (state : σ)
    (p : Program) :
    (∀ before a after f, calls fe c steps state p = before ++ a :: after →
      a.result = .error (.failure f) → after = [] ∧ generate fe c steps state p
        = (.rejected (fe.diagnostics a.state ++ [a.purpose.complaint f]), a.state)) ∧
    (∀ s r f, Session.seeded p c = .ok s →
      Run.advance fe c.maxRounds steps { state, session := s } = .ended (.error (.failure f)) r →
        generate fe c steps state p
          = (.rejected (fe.diagnostics r.state ++ [{ message := f.text }]), r.state)) ∧
    (∀ s r, Session.seeded p c = .ok s →
      Run.advance fe c.maxRounds steps { state, session := s } = .ended (.ok ()) r →
        fe.diagnostics r.state ≠ [] →
          generate fe c steps state p = (.rejected (fe.diagnostics r.state), r.state) ∧
            ∃ items : List Item, (calls fe c steps state p).map Called.purpose = items.map .item) ∧
    ∀ m final, generate fe c steps state p = (.closed m, final) →
      (∃ s r, Session.seeded p c = .ok s ∧
        Run.advance fe c.maxRounds steps { state, session := s } = .ended (.ok ()) r) ∧
      (∀ a ∈ calls fe c steps state p, a.result = .ok ()) ∧
      (∃ items : List Item, (calls fe c steps state p).map Called.purpose
        = items.map .item ++ [.patterns, .checks]) ∧
      fe.diagnostics final = [] := by
  refine ⟨fun before a after f hcalls ha => ?_, fun s r f hs h => generate_of_failure hs h,
    fun s r hs h hcomplaints => ?_, fun m final hclosed => ?_⟩
  · obtain ⟨s, hs, ⟨mid, hitems⟩ | ⟨r, mid, hended, hlast⟩⟩ := calls_eq_append hcalls
    · obtain ⟨hall, -, hgenerate⟩ := generate_of_calls hs hitems ha
      rw [hcalls] at hall
      exact ⟨(List.cons.inj (List.append_cancel_left hall)).2, hgenerate⟩
    · exact generate_of_lastCalls hs hended hlast ha
  · obtain ⟨hgenerate, hcalls⟩ := generate_of_ended hs h
    rcases r.conclude_cases fe with ⟨-, hconclude, hlast⟩ | ⟨_, _, -, -, hquiet, -⟩
    · rw [hconclude] at hgenerate
      rw [hlast, List.append_nil] at hcalls
      refine ⟨hgenerate.trans ?_, hcalls ▸ Run.purposes_calls ..⟩
      simp [Run.outcome, hcomplaints]
    · exact absurd hquiet hcomplaints
  · obtain ⟨s, r, hs, hended⟩ := ended_of_closed hclosed
    obtain ⟨hquiet, first, last, hlast, hpatterns, hchecks, hfirst, hok⟩ :=
      concluded_of_closed hs hended hclosed
    obtain ⟨items, hitems⟩ := Run.purposes_calls fe c.maxRounds steps { state, session := s }
    have hcalls := (generate_of_ended hs hended).2
    rw [hlast] at hcalls
    refine ⟨⟨s, r, hs, hended⟩, fun a ha => ?_, ⟨items, ?_⟩, hquiet⟩
    · rw [hcalls, List.mem_append, List.mem_cons, List.mem_singleton] at ha
      rcases ha with ha | rfl | rfl
      · exact Run.result_of_ended hended ha
      · exact hfirst
      · exact hok
    · rw [hcalls, List.map_append, hitems, List.map_cons, hpatterns, List.map_singleton, hchecks]

namespace Gallery

/-- A front end that does nothing, if it can process an item at all. -/
def idle (refuses : String → Bool) (complaints : List Diagnostic) : FrontEnd Unit where
  process i := if refuses i.key then .fail (.config "refused") else .done ()
  hierarchy _ := hierarchy
  diagnostics _ := complaints

/-- Refusing the function stops the run and names it; complaints alone are all that is reported of a
run; and without either there is an assembly. -/
theorem gallery_refused :
    (∃ before a, calls (idle (· = "Main::main") [{ message := "odd" }]) config 4 () program
        = before ++ [a] ∧ a.result = .error (.failure (.config "refused")) ∧
      generate (idle (· = "Main::main") [{ message := "odd" }]) config 4 () program
        = (.rejected [{ message := "odd" }, { message :=
          "Hard failure while processing `Main::main`: Config error: refused" }], ())) ∧
    generate (idle (fun _ => false) [{ message := "odd" }]) config 4 () program
      = (.rejected [{ message := "odd" }], ()) ∧
    ∃ m, generate (idle (fun _ => false) []) config 4 () program = (.closed m, ()) ∧
      ∃ items : List Item, (calls (idle (fun _ => false) []) config 4 () program).map Called.purpose
        = items.map .item ++ [.patterns, .checks] := by
  obtain ⟨hstops, -, -, -⟩ := generate_allOrNothing
    (idle (· = "Main::main") [{ message := "odd" }]) config 4 () program
  obtain ⟨-, -, hcomplains, -⟩ :=
    generate_allOrNothing (idle (fun _ => false) [{ message := "odd" }]) config 4 () program
  obtain ⟨-, -, -, hcloses⟩ := generate_allOrNothing (idle (fun _ => false) []) config 4 () program
  refine ⟨?_, ?_, ?_⟩
  · have hlast : (calls (idle (· = "Main::main") [{ message := "odd" }]) config 4 ()
        program).getLast?.any (fun a =>
          decide (a.result = .error (.failure (.config "refused")) ∧
            a.purpose.complaint (.config "refused") = { message :=
              "Hard failure while processing `Main::main`: Config error: refused" })) = true := by
      decide +kernel
    obtain ⟨a, ha, hfails⟩ := (Option.any_eq_true _ _).mp hlast
    obtain ⟨hresult, hcomplaint⟩ := of_decide_eq_true hfails
    obtain ⟨before, hcalls⟩ := List.getLast?_eq_some_iff.mp ha
    obtain ⟨-, hgenerate⟩ := hstops before a [] _ hcalls hresult
    rw [hcomplaint] at hgenerate
    exact ⟨before, a, hcalls, hresult, hgenerate⟩
  · have hend : (Run.ended? (idle (fun _ => false) [{ message := "odd" }]) program config ()
        4).isSome = true := by decide +kernel
    obtain ⟨e, he⟩ := Option.isSome_iff_exists.mp hend
    obtain ⟨s, hs, hrun, -⟩ := Run.ended?_eq_some he
    exact (hcomplains s e.2 hs hrun nofun).1
  · have hclosed : (match (generate (idle (fun _ => false) []) config 4 () program).1 with
        | .closed _ => true
        | _ => false) = true := by decide +kernel
    cases hgenerate : generate (idle (fun _ => false) []) config 4 () program with
    | mk outcome final =>
      rw [hgenerate] at hclosed
      cases outcome with
      | closed m => exact ⟨m, rfl, (hcloses m final hgenerate).2.2.1⟩
      | _ => cases hclosed

end Gallery

end Monomorph
