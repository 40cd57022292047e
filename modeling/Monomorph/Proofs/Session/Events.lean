import Monomorph.Generate
import Monomorph.Proofs.Session.Asking

/-!
# Session/Events — what an action does to a session, in order

An action is a tree; of a run through it only a list of events is left (`Action.log`).  The session
passes from one event to the next (`Session.Passes`), so whatever one event keeps a whole action
keeps, and so do the steps a session starts with.
-/

namespace Monomorph

/-- What is done to a session at once. -/
inductive Session.Event
  | requested (w : Work) (asked : List Asked)
  | interned (t : Ty) (asked : List Asked)
  | noted (c : VirtualCall)
  | changed (before after : Assembly)
  | built (step : Builder.Step)

namespace Session.Event

/-- The work an event asks for. -/
def asks : Event → List Asked
  | .requested _ as | .interned _ as => as
  | .noted _ | .changed .. | .built _ => []

/-- The virtual call an event writes down. -/
def call? : Event → Option VirtualCall
  | .noted c => some c
  | .requested .. | .interned .. | .changed .. | .built _ => none

end Session.Event

/-- What a run of an action does, up to where it stops. -/
def Action.log {σ α : Type} : Action σ α → σ → Session → List Session.Event
  | .done _, _, _ | .stop _, _, _ => []
  | .request w next, st, s => .requested w (s.asks w) :: match s.request w with
    | .ok (k, s') => (next k).log st s'
    | .error _ => []
  | .intern t next, st, s => .interned t (s.tyAsks t) :: match (Session.intern t).run s with
    | .ok (i, s') => (next i).log st s'
    | .error _ => []
  | .noteCall c next, st, s => .noted c :: (next (s.noteCall c).1).log st (s.noteCall c).2
  | .look next, st, s => (next st s).log st s
  | .change g h next, st, s =>
      .changed s.assembly (h s.assembly) :: next.log (g st) { s with assembly := h s.assembly }
  | .build b next, st, s => .built b :: match s.builder.run b with
    | (.ok r, builder) => (next r).log st { s with builder }
    | (.error _, _) => []

namespace Session

/-! ## From one event to the next -/

/-- What an event does to a session. -/
inductive Passes : Session → Event → Session → Prop
  | requested {s s' : Session} {w : Work} {k : String} (h : s.request w = .ok (k, s')) :
      Passes s (.requested w (s.asks w)) s'
  | interned {s s' : Session} {t : Ty} {x : Interned} (h : (intern t).run s = .ok (x, s')) :
      Passes s (.interned t (s.tyAsks t)) s'
  | noted (s : Session) (c : VirtualCall) : Passes s (.noted c) (s.noteCall c).2
  | changed (s : Session) (m : Assembly) : Passes s (.changed s.assembly m) { s with assembly := m }
  | built (s : Session) (step : Builder.Step) (b : Builder) :
      Passes s (.built step) { s with builder := b }

/-- What a list of events does to a session. -/
inductive Path : Session → List Event → Session → Prop
  | nil (s : Session) : Path s [] s
  | cons {s s' s'' : Session} {e : Event} {es : List Event} (h : Passes s e s')
      (rest : Path s' es s'') : Path s (e :: es) s''

namespace Path

variable {s s' s'' : Session} {es es' : List Event}

theorem append (h : Path s es s') (h' : Path s' es' s'') : Path s (es ++ es') s'' := by
  induction h with
  | nil => exact h'
  | cons hpass _ ih => exact .cons hpass (ih h')

/-- **What every event keeps a list of events keeps.** -/
theorem invariant {P : Session → Prop}
    (hstep : ∀ {s s' : Session} {e : Event}, e ∈ es → Passes s e s' → P s → P s')
    (h : Path s es s') (hs : P s) : P s' := by
  induction h with
  | nil => exact hs
  | cons hpass _ ih =>
    exact ih (fun he => hstep (List.mem_cons_of_mem _ he)) (hstep List.mem_cons_self hpass hs)

end Path

/-- The virtual calls with one more written down. -/
def withCall (calls : List VirtualCall) (c : VirtualCall) : List VirtualCall :=
  if calls.any fun d => d.slot = c.slot && d.receiver.key = c.receiver.key then calls
  else calls ++ [c]

theorem calls_noteCall (s : Session) (c : VirtualCall) :
    (s.noteCall c).2.calls = withCall s.calls c := by
  rw [noteCall, withCall]
  split <;> rfl

theorem mem_withCall {calls : List VirtualCall} {c d : VirtualCall} (h : d ∈ withCall calls c) :
    d ∈ calls ∨ d = c := by
  rw [withCall] at h
  split at h
  · exact .inl h
  · exact (List.mem_append.mp h).imp_right List.mem_singleton.mp

/-- A call is written down unless one through its slot at its receiver was. -/
theorem exists_mem_withCall (calls : List VirtualCall) (c : VirtualCall) :
    ∃ d ∈ withCall calls c, d.slot = c.slot ∧ d.receiver.key = c.receiver.key := by
  rw [withCall]
  split
  case isTrue h =>
    obtain ⟨d, hd, hsame⟩ := List.any_eq_true.mp h
    exact ⟨d, hd, by simpa using hsame⟩
  case isFalse => exact ⟨c, List.mem_append_right _ (List.mem_singleton_self c), rfl, rfl⟩

namespace Passes

variable {s s' : Session} {e : Event}

theorem program (h : Passes s e s') : s'.program = s.program := by
  cases h with
  | requested h => exact (logs_request _ s s' _ h).program
  | interned h => exact (logs_intern _ s s' _ h).program
  | noted c =>
    rw [noteCall]
    split <;> rfl
  | changed | built => rfl

theorem agenda (h : Passes s e s') : s'.agenda = s.agenda.takeAll e.asks := by
  cases h with
  | requested h => exact (logs_request _ s s' _ h).agenda
  | interned h => exact (logs_intern _ s s' _ h).agenda
  | noted c =>
    rw [noteCall]
    split <;> rfl
  | changed | built => rfl

/-- Work asked for stands under its own key, and fills no slot. -/
theorem asked (h : Passes s e s') {a : Asked} (ha : a ∈ e.asks) : s.Right a := by
  cases h with
  | requested h => exact (logs_request _ s s' _ h).right a ha
  | interned h => exact (logs_intern _ s s' _ h).right a ha
  | noted | changed | built => cases ha

/-- Only a change changes more of the assembly than the types stored. -/
theorem assembly (h : Passes s e s') : (∃ m, e = .changed s.assembly m ∧ s'.assembly = m) ∨
    s'.assembly = { s.assembly with types := s'.assembly.types } := by
  cases h with
  | requested h => exact .inr (logs_request _ s s' _ h).assembly
  | interned h => exact .inr (logs_intern _ s s' _ h).assembly
  | noted c =>
    rw [noteCall]
    split <;> exact .inr rfl
  | changed m => exact .inl ⟨m, rfl, rfl⟩
  | built => exact .inr rfl

theorem calls (h : Passes s e s') : s'.calls = e.call?.toList.foldl withCall s.calls := by
  cases h with
  | requested h => exact (logs_request _ s s' _ h).calls
  | interned h => exact (logs_intern _ s s' _ h).calls
  | noted c => exact s.calls_noteCall c
  | changed | built => rfl

end Passes

namespace Path

variable {s s' : Session} {es : List Event}

theorem program (h : Path s es s') : s'.program = s.program :=
  h.invariant (P := fun s' => s'.program = s.program) (fun _ hp hs => hp.program.trans hs) rfl

theorem agenda (h : Path s es s') : s'.agenda = s.agenda.takeAll (es.flatMap Event.asks) := by
  induction h with
  | nil => rfl
  | cons hpass _ ih => rw [ih, hpass.agenda, List.flatMap_cons, Agenda.takeAll_append]

theorem asked (h : Path s es s') {a : Asked} (ha : a ∈ es.flatMap Event.asks) :
    a.item.work.key s.program = .ok a.item.key ∧ a.item.filling = none := by
  induction h with
  | nil => cases ha
  | cons hpass _ ih =>
    rw [List.flatMap_cons, List.mem_append] at ha
    rcases ha with ha | ha
    · exact ⟨(hpass.asked ha).key, (hpass.asked ha).filling⟩
    · rw [← hpass.program]
      exact ih ha

theorem calls (h : Path s es s') :
    s'.calls = (es.filterMap Event.call?).foldl withCall s.calls := by
  induction h with
  | nil => rfl
  | @cons s s' s'' e es hpass _ ih =>
    rw [ih, hpass.calls, List.filterMap_cons]
    cases e.call? <;> rfl

theorem withCall_grows (calls : List VirtualCall) (c : VirtualCall) :
    calls <+: withCall calls c := by
  rw [withCall]
  split
  · exact List.prefix_rfl
  · exact List.prefix_append ..

/-- A call is written down only when it is noted. -/
theorem mem_calls (h : Path s es s') {c : VirtualCall} (hc : c ∈ s'.calls) :
    c ∈ s.calls ∨ .noted c ∈ es := by
  induction h with
  | nil => exact .inl hc
  | @cons s s₁ s' e es hpass _ ih =>
    rcases ih hc with hc | hc
    · rw [hpass.calls] at hc
      cases e with
      | noted d =>
        rcases mem_withCall hc with hc | rfl
        · exact .inl hc
        · exact .inr List.mem_cons_self
      | requested | interned | changed | built => exact .inl hc
    · exact .inr (List.mem_cons_of_mem _ hc)

/-- Virtual calls written down stay. -/
theorem calls_grow (h : Path s es s') : s.calls <+: s'.calls := by
  induction h with
  | nil => exact List.prefix_rfl
  | @cons s s' s'' e es hpass _ ih =>
    refine List.IsPrefix.trans ?_ ih
    rw [hpass.calls]
    cases e.call? with
    | none => exact List.prefix_rfl
    | some c => exact withCall_grows _ c

/-- Of a call noted, one through its slot at its receiver is written down. -/
theorem exists_mem_calls (h : Path s es s') {c : VirtualCall} (hc : .noted c ∈ es) :
    ∃ d ∈ s'.calls, d.slot = c.slot ∧ d.receiver.key = c.receiver.key := by
  induction h with
  | nil => cases hc
  | @cons s s₁ s' e es hpass hrest ih =>
    rcases List.mem_cons.mp hc with rfl | hc
    · obtain ⟨d, hd, hsame⟩ := exists_mem_withCall s.calls c
      rw [show withCall s.calls c = s₁.calls from hpass.calls.symm] at hd
      exact ⟨d, hrest.calls_grow.subset hd, hsame⟩
    · exact ih hc

/-- Types on record stay. -/
theorem instances_grow (h : Path s es s') : s.instances <+: s'.instances := by
  have := s.agenda.instances_takeAll (es.flatMap Event.asks)
  rwa [← h.agenda] at this

end Path

end Session

/-- **An action that comes to a result passes through its events.** -/
theorem Action.run_path {σ α : Type} {a : Action σ α} {st st' : σ} {s s' : Session} {x : α}
    (h : a.run st s = (.ok x, st', s')) : s.Path (a.log st s) s' := by
  induction a generalizing st s with
  | done y =>
    obtain ⟨-, -, rfl⟩ : y = x ∧ st = st' ∧ s = s' := by simpa [run] using h
    exact .nil s
  | stop why => simp [run] at h
  | request w next ih =>
    rw [run] at h
    rw [log]
    cases hreq : s.request w with
    | error e => simp [hreq] at h
    | ok r =>
      obtain ⟨k, s₁⟩ := r
      rw [hreq] at h
      exact .cons (.requested hreq) (ih k h)
  | intern t next ih =>
    rw [run] at h
    rw [log]
    cases hint : (Session.intern t).run s with
    | error e => simp [hint] at h
    | ok r =>
      obtain ⟨i, s₁⟩ := r
      rw [hint] at h
      exact .cons (.interned hint) (ih i h)
  | noteCall c next ih => exact .cons (.noted s c) (ih _ h)
  | look next ih => exact ih st s h
  | change g f next ih => exact .cons (.changed s _) (ih h)
  | build b next ih =>
    rw [run] at h
    rw [log]
    rcases hb : s.builder.run b with ⟨r, builder⟩
    cases r with
    | error e => simp [hb] at h
    | ok r =>
      rw [hb] at h
      exact .cons (.built s b builder) (ih r h)

end Monomorph
