import Monomorph.Proofs.Assembly.Slots
import Monomorph.Proofs.Session.Seeding

/-!
# Run/History — what a run does, one deed for each step

A step hands an item to the front end or resolves the virtual calls.  The history of a run lists
these deeds, the first first.  What the deeds keep holds of every run under way and of every run
that has ended well (`Run.invariant`), and a run that has ended well ended with nothing waiting, in a
round that found no new target (`Run.advance_ended`).
-/

namespace Monomorph

namespace Session

/-! ## Rounds of dispatch -/

/-- What recording targets asks for. -/
def recordAsks (s : Session) (ts : List Target) : List Asked :=
  ts.map fun t => ⟨t.item, s.assembly.hasInvoke t.key⟩

/-- Filling the slot aside, recording a target is asking for it. -/
theorem agenda_recordTarget (s : Session) (t : Target) :
    (s.recordTarget t).2.agenda = s.agenda.take ⟨t.item, s.assembly.hasInvoke t.key⟩ := by
  rw [recordTarget, Agenda.take]
  simp only [Assembly.hasInvoke_fill]
  cases s.assembly.hasInvoke t.key with
  | true => rfl
  | false =>
    by_cases hseen : s.queues.methods.contains t.key = true
    · have hpush : s.queues.push t.item = s.queues :=
        Queues.push_of_mem (WorkQueue.contains_iff.mp hseen)
      simp only [hseen, Bool.or_true, if_true]
      exact congrArg (Agenda.mk · s.instances) hpush.symm
    · simp [hseen, agenda]
      rfl

@[simp] theorem hasInvoke_recordTarget (s : Session) (t : Target) (k : String) :
    (s.recordTarget t).2.assembly.hasInvoke k = s.assembly.hasInvoke k := by
  rw [recordTarget]
  split <;> exact Assembly.hasInvoke_fill ..

theorem agenda_record (s : Session) (ts : List Target) :
    (s.record ts).2.agenda = s.agenda.takeAll (s.recordAsks ts) := by
  induction ts generalizing s with
  | nil => rfl
  | cons t rest ih =>
    have hsame : (s.recordTarget t).2.recordAsks rest = s.recordAsks rest := by
      simp only [recordAsks, hasInvoke_recordTarget]
    rw [record, ih, hsame, agenda_recordTarget]
    rfl

theorem assembly_record (s : Session) (ts : List Target) :
    (s.record ts).2.assembly = s.assembly.fillAll ts := by
  induction ts generalizing s with
  | nil => rfl
  | cons t rest ih =>
    rw [record, ih, recordTarget]
    split <;> rfl

theorem record_same (s : Session) (ts : List Target) :
    (s.record ts).2.program = s.program ∧ (s.record ts).2.calls = s.calls := by
  induction ts generalizing s with
  | nil => exact ⟨rfl, rfl⟩
  | cons t rest ih =>
    obtain ⟨hprogram, hcalls⟩ := ih (s.recordTarget t).2
    rw [record]
    refine ⟨hprogram.trans ?_, hcalls.trans ?_⟩ <;> rw [recordTarget] <;> split <;> rfl

/-- **Where no target is new** all are held or were asked for before, and nothing more waits. -/
theorem of_fresh {s : Session} {ts : List Target} (h : (s.record ts).1 = 0) :
    (s.record ts).2.agenda = s.agenda ∧
      ∀ t ∈ ts, s.assembly.hasInvoke t.key = true ∨ t.key ∈ (s.queues.get .methods).seen := by
  induction ts generalizing s with
  | nil => exact ⟨rfl, List.forall_mem_nil _⟩
  | cons t rest ih =>
    rw [record] at h ⊢
    obtain ⟨hfirst, hrest⟩ :
        (s.recordTarget t).1 = false ∧ ((s.recordTarget t).2.record rest).1 = 0 := by
      cases hf : (s.recordTarget t).1 <;> simp_all
    have hknown : (s.assembly.hasInvoke t.key || s.queues.methods.contains t.key) = true := by
      rw [recordTarget] at hfirst
      split at hfirst
      case isTrue hknown => rwa [Assembly.hasInvoke_fill] at hknown
      case isFalse => cases hfirst
    have hsame : (s.recordTarget t).2.agenda = s.agenda := by
      rw [recordTarget, if_pos (by rwa [Assembly.hasInvoke_fill])]
      rfl
    obtain ⟨hagenda, hall⟩ := ih hrest
    refine ⟨hagenda.trans hsame, List.forall_mem_cons.mpr ⟨?_, fun t' ht' => ?_⟩⟩
    · exact (Bool.or_eq_true_iff.mp hknown).imp_right WorkQueue.contains_iff.mp
    · have := hall t' ht'
      rwa [hasInvoke_recordTarget,
        show (s.recordTarget t).2.queues = s.queues from congrArg Agenda.queues hsame] at this

end Session

/-- What a run does in one step. -/
inductive Deed
  /-- Hand an item to the front end, which does what is listed. -/
  | handed (i : Item) (events : List Session.Event)
  /-- Resolve the virtual calls, and ask for the methods found. -/
  | resolved (asked : List Asked)

namespace Deed

def asks : Deed → List Asked
  | .handed _ es => es.flatMap Session.Event.asks
  | .resolved as => as

def events : Deed → List Session.Event
  | .handed _ es => es
  | .resolved _ => []

def item? : Deed → Option Item
  | .handed i _ => some i
  | .resolved _ => none

end Deed

namespace Run

variable {σ : Type}

/-- What the next step of a run does. -/
def deed (fe : FrontEnd σ) (r : Run σ) : Deed :=
  match r.session.queues.popFirst? r.turn.lanes with
  | some (_, i, queues) => .handed i ((fe.process i).log r.state { r.session with queues })
  | none =>
      .resolved <|
        match (fe.hierarchy r.state).targets r.session.program r.session.instances
          r.session.calls with
        | .ok ts => r.session.recordAsks ts
        | .error _ => []

/-- What a run does in so many steps, or in as many as there are. -/
def history (fe : FrontEnd σ) (maxRounds : Option UInt64) : Nat → Run σ → List Deed
  | 0, _ => []
  | n + 1, r => r.deed fe :: match step fe maxRounds r with
    | .running r => history fe maxRounds n r
    | .ended .. => []

/-- A step that goes well, and what it does. -/
inductive Moves (fe : FrontEnd σ) (r : Run σ) : Deed → Run σ → Prop
  | handed {l : Lane} {i : Item} {queues : Queues} {state : σ} {session : Session}
      (hpop : r.session.queues.popFirst? r.turn.lanes = some (l, i, queues))
      (hrun : (fe.process i).run r.state { r.session with queues } = (.ok (), state, session)) :
      Moves fe r (.handed i ((fe.process i).log r.state { r.session with queues }))
        { r with state, session, turn := .after l }
  | resolved {ts : List Target} (hpop : r.session.queues.popFirst? r.turn.lanes = none)
      (hts : (fe.hierarchy r.state).targets r.session.program r.session.instances
        r.session.calls = .ok ts) :
      Moves fe r (.resolved (r.session.recordAsks ts))
        { r with session := (r.session.record ts).2, turn := .types, rounds := r.rounds + 1 }

variable {fe : FrontEnd σ} {b : Option UInt64} {r r' : Run σ}

/-- A run goes on after a round of dispatch only where a target was new. -/
theorem dispatch_eq_running (h : dispatch fe b r = .running r') : ∃ ts,
    (fe.hierarchy r.state).targets r.session.program r.session.instances r.session.calls = .ok ts ∧
      (r.session.record ts).1 ≠ 0 ∧
      r' = { r with session := (r.session.record ts).2, turn := .types, rounds := r.rounds + 1 } := by
  simp only [dispatch] at h
  cases hts : (fe.hierarchy r.state).targets r.session.program r.session.instances
      r.session.calls with
  | error f => simp [hts] at h
  | ok ts =>
    simp only [hts] at h
    split at h
    case isTrue => cases h
    case isFalse hfresh =>
      split at h
      · cases h
      · exact ⟨ts, rfl, hfresh, (Progress.running.inj h).symm⟩

theorem step_eq_running (h : step fe b r = .running r') : Moves fe r (r.deed fe) r' := by
  rw [step] at h
  rw [deed]
  rcases hpop : r.session.queues.popFirst? r.turn.lanes with _ | ⟨l, i, queues⟩
  · rw [hpop] at h
    obtain ⟨ts, hts, -, rfl⟩ := dispatch_eq_running h
    simp only [hts]
    exact .resolved hpop hts
  · rw [hpop] at h
    simp only [process] at h ⊢
    rcases hrun : (fe.process i).run r.state { r.session with queues } with ⟨x, state, session⟩
    rw [hrun] at h
    cases x with
    | error why => cases h
    | ok u =>
      obtain rfl := Progress.running.inj h
      exact .handed hpop hrun

/-- A run ends well only where nothing waits and no target is new. -/
theorem step_eq_ended (h : step fe b r = .ended (.ok ()) r') :
    r.session.queues.popFirst? r.turn.lanes = none ∧ ∃ ts,
      (fe.hierarchy r.state).targets r.session.program r.session.instances r.session.calls
        = .ok ts ∧ (r.session.record ts).1 = 0 ∧ Moves fe r (r.deed fe) r' ∧
          r'.session = (r.session.record ts).2 := by
  rw [step] at h
  rw [deed]
  rcases hpop : r.session.queues.popFirst? r.turn.lanes with _ | ⟨l, i, queues⟩
  · rw [hpop] at h
    simp only [dispatch] at h ⊢
    cases hts : (fe.hierarchy r.state).targets r.session.program r.session.instances
        r.session.calls with
    | error f => simp [hts] at h
    | ok ts =>
      simp only [hts] at h ⊢
      split at h
      case isTrue hfresh =>
        obtain ⟨-, rfl⟩ := Progress.ended.inj h
        exact ⟨trivial, ts, rfl, hfresh, .resolved hpop hts, rfl⟩
      case isFalse => split at h <;> cases h
  · rw [hpop] at h
    simp only [process] at h
    rcases hrun : (fe.process i).run r.state { r.session with queues } with ⟨x, state, session⟩
    rw [hrun] at h
    cases x <;> cases h

theorem Moves.deed_eq {d : Deed} (h : Moves fe r d r') : r.deed fe = d := by
  cases h with
  | handed hpop => rw [deed, hpop]
  | resolved hpop hts => rw [deed, hpop, hts]

/-! ## Many steps -/

variable {r₀ : Run σ}

theorem advance_succ (n : Nat) (r : Run σ) :
    advance fe b (n + 1) r = match advance fe b n r with
      | .running r => step fe b r
      | .ended result r => .ended result r := by
  induction n generalizing r with
  | zero =>
    simp only [advance]
    cases step fe b r <;> rfl
  | succ n ih =>
    rw [advance]
    conv => rhs; rw [advance]
    cases step fe b r with
    | running r' => exact ih r'
    | ended result r' => rfl

/-- A run is under way after one more step if it was under way and the step goes well. -/
theorem advance_succ_eq_running {n : Nat} : advance fe b (n + 1) r₀ = .running r ↔
    ∃ r', advance fe b n r₀ = .running r' ∧ step fe b r' = .running r := by
  rw [advance_succ]
  cases advance fe b n r₀ <;> simp

theorem history_succ (n : Nat) (r : Run σ) :
    history fe b (n + 1) r = history fe b n r ++ match advance fe b n r with
      | .running r => [r.deed fe]
      | .ended .. => [] := by
  induction n generalizing r with
  | zero =>
    simp only [history, advance]
    cases step fe b r <;> rfl
  | succ n ih =>
    rw [history]
    conv => rhs; rw [history, advance]
    cases step fe b r with
    | running r' =>
      simp only [ih r']
      rfl
    | ended result r' => rfl

/-- What a run does on its way is in its history. -/
theorem deed_mem_history {m n : Nat} {result : Except Stop Unit}
    (hm : advance fe b m r₀ = .running r) (h : advance fe b n r₀ = .ended result r') :
    r.deed fe ∈ history fe b n r₀ := by
  induction n generalizing m r₀ with
  | zero => cases h
  | succ n ih =>
    rw [history]
    cases m with
    | zero =>
      obtain rfl := Progress.running.inj hm
      exact List.mem_cons_self
    | succ m =>
      rw [advance] at hm h
      cases hstep : step fe b r₀ with
      | ended => simp [hstep] at hm
      | running r₁ =>
        rw [hstep] at hm h
        exact List.mem_cons_of_mem _ (ih hm h)

/-- **What every move keeps holds of every run under way.** -/
theorem invariant {P : List Deed → Run σ → Prop} (hstart : P [] r₀)
    (hmove : ∀ {n : Nat} {r r' : Run σ} {d : Deed}, advance fe b n r₀ = .running r →
      P (history fe b n r₀) r → Moves fe r d r' → P (history fe b n r₀ ++ [d]) r')
    {n : Nat} (h : advance fe b n r₀ = .running r) : P (history fe b n r₀) r := by
  induction n generalizing r with
  | zero =>
    obtain rfl := Progress.running.inj h
    exact hstart
  | succ n ih =>
    obtain ⟨r', hn, hstep⟩ := advance_succ_eq_running.mp h
    rw [history_succ, hn]
    exact hmove hn (ih hn) (step_eq_running hstep)

theorem Moves.program {d : Deed} (h : Moves fe r d r') :
    r'.session.program = r.session.program := by
  cases h with
  | handed hpop hrun => exact (Action.run_path hrun).program
  | @resolved ts hpop hts => exact (r.session.record_same ts).1

/-- A key once taken on is taken on for good. -/
theorem Moves.seen {d : Deed} {l : Lane} {k : String} (h : Moves fe r d r')
    (hk : k ∈ (r.session.queues.get l).seen) : k ∈ (r'.session.queues.get l).seen := by
  cases h with
  | @handed l' i queues state session hpop hrun =>
    rw [← Queues.seen_popFirst? hpop] at hk
    have := Agenda.seen_takeAll (g := Session.agenda { r.session with queues }) hk
      (((fe.process i).log r.state { r.session with queues }).flatMap Session.Event.asks)
    rwa [← (Action.run_path hrun).agenda] at this
  | @resolved ts hpop hts =>
    have := Agenda.seen_takeAll (g := r.session.agenda) hk (r.session.recordAsks ts)
    rwa [← Session.agenda_record] at this

/-- A run is about one program. -/
theorem program_advance {n : Nat} (h : advance fe b n r₀ = .running r) :
    r.session.program = r₀.session.program :=
  invariant (P := fun _ r => r.session.program = r₀.session.program) rfl
    (fun _ hr hm => hm.program.trans hr) h

/-- **A run that has ended was under way until its last step.** -/
theorem advance_ended {n : Nat} {result : Except Stop Unit}
    (h : advance fe b n r₀ = .ended result r) :
    ∃ m r', advance fe b m r₀ = .running r' ∧ step fe b r' = .ended result r ∧
      history fe b n r₀ = history fe b m r₀ ++ [r'.deed fe] := by
  induction n with
  | zero => cases h
  | succ n ih =>
    rw [advance_succ] at h
    rw [history_succ]
    cases hn : advance fe b n r₀ with
    | running r' =>
      rw [hn] at h
      exact ⟨n, r', hn, h, rfl⟩
    | ended result' r' =>
      rw [hn] at h
      obtain ⟨rfl, rfl⟩ := Progress.ended.inj h
      obtain ⟨m, r'', hm, hstep, hhist⟩ := ih hn
      exact ⟨m, r'', hm, hstep, by rw [hhist, List.append_nil]⟩

end Run

end Monomorph
