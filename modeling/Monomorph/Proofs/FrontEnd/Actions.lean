import Monomorph.Proofs.Session.Settled

/-!
# FrontEnd/Actions — one action after another

Actions are put together with `bind`: an action that comes to a result has run one part after the
other (`Action.bind_run_eq_ok`), and its events are those of the parts in turn (`Action.log_bind`).
What holds of every change in the tree of an action (`Action.Changes`) holds of every change that a
run of it makes.
-/

namespace Monomorph.Action

variable {σ α β γ : Type} {a : Action σ α} {f : α → Action σ β} {st st' st'' : σ}
  {s s' s'' : Session}

theorem bind_assoc (a : Action σ α) (f : α → Action σ β) (g : β → Action σ γ) :
    (a.bind f).bind g = a.bind fun x => (f x).bind g := by
  induction a with
  | done => rfl
  | stop => rfl
  | request w next ih => exact congrArg (Action.request w) (funext ih)
  | intern t next ih => exact congrArg (Action.intern t) (funext ih)
  | noteCall c next ih => exact congrArg (Action.noteCall c) (funext ih)
  | look next ih => exact congrArg Action.look (funext fun st => funext (ih st))
  | change g h next ih => exact congrArg (Action.change g h) ih
  | build b next ih => exact congrArg (Action.build b) (funext ih)

theorem bind_done (a : Action σ α) : a.bind .done = a := by
  induction a with
  | done => rfl
  | stop => rfl
  | request w next ih => exact congrArg (Action.request w) (funext ih)
  | intern t next ih => exact congrArg (Action.intern t) (funext ih)
  | noteCall c next ih => exact congrArg (Action.noteCall c) (funext ih)
  | look next ih => exact congrArg Action.look (funext fun st => funext (ih st))
  | change g h next ih => exact congrArg (Action.change g h) ih
  | build b next ih => exact congrArg (Action.build b) (funext ih)

instance : LawfulMonad (Action σ) :=
  .mk' _ (fun a => bind_done a) (fun _ _ => rfl) fun a f g => bind_assoc a f g

/-- **An action in two parts runs the second from where the first comes to a result**, and stops
where the first stops. -/
theorem run_bind (a : Action σ α) (f : α → Action σ β) (st : σ) (s : Session) :
    (a.bind f).run st s = match a.run st s with
      | (.ok x, st', s') => (f x).run st' s'
      | (.error why, st', s') => (.error why, st', s') := by
  induction a generalizing st s with
  | done x => rfl
  | stop why => rfl
  | request w next ih =>
    simp only [bind, run]
    cases s.request w with
    | error e => rfl
    | ok r => exact ih _ _ _
  | intern t next ih =>
    simp only [bind, run]
    cases (Session.intern t).run s with
    | error e => rfl
    | ok r => exact ih _ _ _
  | noteCall c next ih => exact ih _ _ _
  | look next ih => exact ih _ _ st s
  | change g h next ih => exact ih _ _
  | build b next ih =>
    simp only [bind, run]
    rcases s.builder.run b with ⟨_ | r, builder⟩
    · rfl
    · exact ih _ _ _

/-- **An action in two parts comes to a result if the first part does, and then the second.** -/
theorem bind_run_eq_ok {y : β} : (a >>= f).run st s = (.ok y, st'', s'') ↔
    ∃ x st' s', a.run st s = (.ok x, st', s') ∧ (f x).run st' s' = (.ok y, st'', s'') := by
  change (a.bind f).run st s = _ ↔ _
  rw [run_bind]
  rcases a.run st s with ⟨why | x, st', s'⟩ <;> simp

/-- **The events of an action in two parts are those of the parts in turn.** -/
theorem log_bind {x : α} (h : a.run st s = (.ok x, st', s')) :
    (a >>= f).log st s = a.log st s ++ (f x).log st' s' := by
  change (a.bind f).log st s = _
  induction a generalizing st s with
  | done y =>
    obtain ⟨rfl, rfl, rfl⟩ : y = x ∧ st = st' ∧ s = s' := by simpa [run] using h
    rfl
  | stop why => simp [run] at h
  | request w next ih =>
    rw [run] at h
    rw [bind, log, log]
    cases hreq : s.request w with
    | error e => simp [hreq] at h
    | ok r =>
      rw [hreq] at h
      exact congrArg _ (ih _ h)
  | intern t next ih =>
    rw [run] at h
    rw [bind, log, log]
    cases hint : (Session.intern t).run s with
    | error e => simp [hint] at h
    | ok r =>
      rw [hint] at h
      exact congrArg _ (ih _ h)
  | noteCall c next ih => exact congrArg _ (ih _ h)
  | look next ih => exact ih st s h
  | change g f next ih => exact congrArg _ (ih h)
  | build b next ih =>
    rw [run] at h
    rw [bind, log, log]
    rcases hb : s.builder.run b with ⟨_ | r, builder⟩
    · simp [hb] at h
    · rw [hb] at h
      exact congrArg _ (ih _ h)

theorem ask_run_eq_ok {w : Work} {k : String} :
    (ask w : Action σ String).run st s = (.ok k, st', s') ↔
      st' = st ∧ s.request w = .ok (k, s') := by
  rw [ask, run]
  cases s.request w with
  | error f => simp
  | ok r => simp [run, Prod.ext_iff, and_left_comm, eq_comm (a := st)]

theorem registered_ask (w : Work) (st : σ) (s : Session) :
    Session.registered ((ask w : Action σ String).log st s) = [.work w] := by
  rw [ask, log]
  cases s.request w <;> rfl

/-- Every change in the tree of an action is one of those allowed. -/
def Changes (P : Assembly → Assembly → Prop) : Action σ α → Prop
  | .done _ | .stop _ => True
  | .request _ next => ∀ k, (next k).Changes P
  | .intern _ next => ∀ i, (next i).Changes P
  | .noteCall _ next => ∀ k, (next k).Changes P
  | .look next => ∀ st s, (next st s).Changes P
  | .change _ h next => (∀ m, P m (h m)) ∧ next.Changes P
  | .build _ next => ∀ r, (next r).Changes P

namespace Changes

variable {P : Assembly → Assembly → Prop}

theorem bind (h : a.Changes P) (hf : ∀ x, (f x).Changes P) : (a >>= f).Changes P := by
  change (a.bind f).Changes P
  induction a with
  | done x => exact hf x
  | stop => trivial
  | request w next ih => exact fun k => ih k (h k)
  | intern t next ih => exact fun i => ih i (h i)
  | noteCall c next ih => exact fun k => ih k (h k)
  | look next ih => exact fun st s => ih st s (h st s)
  | change g g' next ih => exact ⟨h.1, ih h.2⟩
  | build b next ih => exact fun r => ih r (h r)

theorem mapM {f : α → Action σ β} (h : ∀ x, (f x).Changes P) (l : List α) :
    (l.mapM f).Changes P := by
  induction l with
  | nil => trivial
  | cons x l ih =>
    rw [List.mapM_cons]
    exact (h x).bind fun _ => ih.bind fun _ => trivial

theorem ask (w : Work) : (Action.ask w : Action σ String).Changes P := fun _ => trivial

theorem internKey (t : Ty) : (Action.internKey t : Action σ String).Changes P := fun _ => trivial

theorem step (b : Builder.Step) : (Action.step b : Action σ Builder.Answer).Changes P :=
  fun _ => trivial

theorem freshTemp : (Action.freshTemp : Action σ Temp).Changes P := fun _ _ _ => trivial

theorem emit (p : Position) (i : Instr Operand) : (Action.emit p i : Action σ Unit).Changes P :=
  fun _ => trivial

theorem done (x : α) : (pure x : Action σ α).Changes P := trivial

theorem ofExcept (x : Except Fault α) : (Action.ofExcept x : Action σ α).Changes P := by
  cases x <;> trivial

theorem orStop (x : Except Stop α) : (Action.orStop x : Action σ α).Changes P := by
  cases x <;> trivial

/-- **The changes made are among those in the tree.** -/
theorem of_mem_log (h : a.Changes P) {m m' : Assembly} (hm : .changed m m' ∈ a.log st s) :
    P m m' := by
  induction a generalizing st s with
  | done | stop => cases hm
  | request w next ih =>
    rw [log] at hm
    rcases List.mem_cons.mp hm with heq | hm
    · cases heq
    · split at hm
      · exact ih _ (h _) hm
      · cases hm
  | intern t next ih =>
    rw [log] at hm
    rcases List.mem_cons.mp hm with heq | hm
    · cases heq
    · split at hm
      · exact ih _ (h _) hm
      · cases hm
  | noteCall c next ih =>
    rcases List.mem_cons.mp hm with heq | hm
    · cases heq
    · exact ih _ (h _) hm
  | look next ih => exact ih _ _ (h _ _) hm
  | change g f next ih =>
    rcases List.mem_cons.mp hm with heq | hm
    · obtain ⟨rfl, rfl⟩ := Session.Event.changed.inj heq
      exact h.1 _
    · exact ih h.2 hm
  | build b next ih =>
    rw [log] at hm
    rcases List.mem_cons.mp hm with heq | hm
    · cases heq
    · split at hm
      · exact ih _ (h _) hm
      · cases hm

end Changes

end Monomorph.Action
