import Mathlib.Algebra.Order.BigOperators.Group.List
import Mathlib.Algebra.Order.Ring.Nat
import Mathlib.Data.Finset.Card
import Monomorph.Proofs.Run.Served

/-!
# Run/Bounded — a run over finitely many keys ends, and a bound only cuts it short

A lane takes a key on once and hands it over once, and a round after which a run goes on takes on a
method (`rounds_le_of_step`).  So all that a run has to spend are the keys it takes on: where
these are finitely many it ends (`ended_of_keysWithin`).  A bound on the rounds is looked at only after
a round that found a new target: a run that ends well without it takes the same steps under it, up
to the round in which the bound is reached (`advance_some`).
-/

namespace Monomorph

namespace Session

/-- Recording a target takes a method on where it says that the target was new. -/
theorem length_seen_recordTarget (s : Session) (t : Target) :
    ((s.recordTarget t).2.queues.get .methods).seen.length
      = (s.queues.get .methods).seen.length + if (s.recordTarget t).1 then 1 else 0 := by
  rw [recordTarget]
  split
  case isTrue => rfl
  case isFalse hnew =>
    have hnotMem : t.key ∉ (s.queues.get .methods).seen := fun hk =>
      hnew (Bool.or_eq_true_iff.mpr (.inr (WorkQueue.contains_iff.mpr hk)))
    exact congrArg List.length (WorkQueue.seen_push_of_notMem hnotMem t.item)

/-- As many methods are taken on as targets are new. -/
theorem length_seen_record (s : Session) (ts : List Target) :
    ((s.record ts).2.queues.get .methods).seen.length
      = (s.queues.get .methods).seen.length + (s.record ts).1 := by
  induction ts generalizing s with
  | nil => rfl
  | cons t rest ih =>
    simp only [record, ih, length_seen_recordTarget]
    split <;> omega

end Session

namespace Run

variable {σ : Type} {fe : FrontEnd σ} {b : Option UInt64} {r₀ r r' : Run σ} {n : Nat}

/-! ## What there is to count -/

/-- Number of rounds of dispatch in a list of deeds. -/
def roundsIn (ds : List Deed) : Nat :=
  ds.countP fun d => d.item?.isNone

theorem roundsIn_concat (ds : List Deed) (d : Deed) :
    roundsIn (ds ++ [d]) = roundsIn ds + roundsIn [d] :=
  List.countP_append

/-- A deed is a round or hands an item over. -/
theorem length_eq_add_roundsIn (ds : List Deed) :
    ds.length = (handed ds).length + roundsIn ds := by
  rw [List.length_eq_countP_add_countP fun d : Deed => d.item?.isSome, handed,
    List.length_filterMap_eq_countP, roundsIn]
  simp only [Bool.not_eq_true, Option.isSome_eq_false_iff, Bool.decide_eq_true]

theorem length_eq_sum_keysIn (is : List Item) :
    is.length = (Lane.all.map fun l => (keysIn l is).length).sum := by
  induction is with
  | nil => rfl
  | cons i is ih =>
    have hcons : ∀ l, keysIn l (i :: is) = keysIn l [i] ++ keysIn l is :=
      fun l => keysIn_append l [i] is
    simp only [hcons, keysIn_singleton, List.length_append, List.length_cons, ih, Lane.all]
    cases i.work.lane <;> simp <;> omega

theorem length_le_of_keysIn {is : List Item} {k : Nat} (h : ∀ l, (keysIn l is).length ≤ k) :
    is.length ≤ Lane.all.length * k := by
  rw [length_eq_sum_keysIn, ← List.length_map (f := fun l => (keysIn l is).length)]
  refine List.sum_le_card_nsmul _ k fun x hx => ?_
  obtain ⟨l, -, rfl⟩ := List.mem_map.mp hx
  exact h l

theorem length_history (h : advance fe b n r₀ = .running r) : (history fe b n r₀).length = n := by
  induction n generalizing r with
  | zero => rfl
  | succ n ih =>
    obtain ⟨r', hn, -⟩ := advance_succ_eq_running.mp h
    rw [history_succ, hn, List.length_append, ih hn, List.length_singleton]

/-- A run that has ended stays as it is. -/
theorem advance_of_le {m : Nat} {result : Except Stop Unit} (hle : n ≤ m)
    (h : advance fe b n r₀ = .ended result r) : advance fe b m r₀ = .ended result r := by
  induction m, hle using Nat.le_induction with
  | base => exact h
  | succ m _ ih => rw [advance_succ, ih]

/-! ## What a step spends -/

theorem Moves.rounds {d : Deed} (h : Moves fe r d r') : r'.rounds = r.rounds + roundsIn [d] := by
  cases h <;> rfl

theorem Moves.rounds_le {d : Deed} (h : Moves fe r d r') : r'.rounds ≤ r.rounds + 1 :=
  h.rounds.trans_le (Nat.add_le_add_left List.countP_le_length _)

/-- A run counts its rounds. -/
theorem rounds_advance (h : advance fe b n r₀ = .running r) :
    r.rounds = r₀.rounds + roundsIn (history fe b n r₀) :=
  invariant (P := fun ds r => r.rounds = r₀.rounds + roundsIn ds) rfl
    (fun _ hr hm => by rw [hm.rounds, hr, roundsIn_concat, Nat.add_assoc]) h

/-- **A round after which a run goes on takes on a method.** -/
theorem rounds_le_of_step (h : step fe b r = .running r')
    (hr : r.rounds ≤ (r.session.queues.get .methods).seen.length) :
    r'.rounds ≤ (r'.session.queues.get .methods).seen.length := by
  rcases hpop : r.session.queues.popFirst? r.turn.lanes with _ | ⟨l, i, queues⟩
  · rw [step, hpop] at h
    obtain ⟨ts, -, hfresh, rfl⟩ := dispatch_eq_running h
    have := r.session.length_seen_record ts
    show r.rounds + 1 ≤ ((r.session.record ts).2.queues.get .methods).seen.length
    omega
  · have hmove := step_eq_running h
    have hsame : r'.rounds = r.rounds := by
      rw [hmove.rounds, deed, hpop]
      rfl
    rw [hsame]
    exact hr.trans (List.subperm_of_subset (r.session.queues.get .methods).nodup
      fun k hk => hmove.seen hk).length_le

/-- There are never more rounds behind a run than methods taken on. -/
theorem rounds_le_length_seen (h₀ : r₀.rounds = 0) (h : advance fe b n r₀ = .running r) :
    r.rounds ≤ (r.session.queues.get .methods).seen.length := by
  induction n generalizing r with
  | zero =>
    obtain rfl := Progress.running.inj h
    exact h₀.trans_le (Nat.zero_le _)
  | succ n ih =>
    obtain ⟨r', hn, hstep⟩ := advance_succ_eq_running.mp h
    exact rounds_le_of_step hstep (ih hn)

theorem seen_advance {m : Nat} {l : Lane} {k : String} (hle : n ≤ m)
    (hn : advance fe b n r₀ = .running r) (hm : advance fe b m r₀ = .running r')
    (hk : k ∈ (r.session.queues.get l).seen) : k ∈ (r'.session.queues.get l).seen := by
  induction m, hle using Nat.le_induction generalizing r' with
  | base =>
    obtain rfl := Progress.running.inj (hn.symm.trans hm)
    exact hk
  | succ m _ ih =>
    obtain ⟨r₁, hr₁, hstep⟩ := advance_succ_eq_running.mp hm
    exact (step_eq_running hstep).seen (ih hr₁)

/-- What is handed over next was taken on before. -/
theorem length_keysIn_le {as : List Asked} {is : List Item} (h : r.session.queues.Kept as is)
    (fe : FrontEnd σ) (l : Lane) :
    (keysIn l (is ++ (r.deed fe).item?.toList)).length ≤ (r.session.queues.get l).seen.length := by
  rw [deed]
  rcases hpop : r.session.queues.popFirst? r.turn.lanes with _ | ⟨l', i, queues⟩
  · simpa [Deed.item?] using (h.served l).length_le
  · rw [← Queues.seen_popFirst? hpop]
    exact ((h.pop hpop).served l).length_le

/-! ## Finitely many keys -/

/-- All the keys that a run takes on in any lane are of one finite set. -/
def KeysWithin (fe : FrontEnd σ) (b : Option UInt64) (K : Finset String) (r₀ : Run σ) : Prop :=
  ∀ n r, advance fe b n r₀ = .running r → ∀ l, ∀ k ∈ (r.session.queues.get l).seen, k ∈ K

theorem KeysWithin.length_seen_le {K : Finset String} (hK : KeysWithin fe b K r₀)
    (h : advance fe b n r₀ = .running r) (l : Lane) :
    (r.session.queues.get l).seen.length ≤ K.card := by
  rw [← List.toFinset_card_of_nodup (r.session.queues.get l).nodup]
  exact Finset.card_le_card fun k hk => hK n r h l k (List.mem_toFinset.mp hk)

/-- The keys of a run that ends well are those its queues show at the end. -/
theorem keysWithin_of_ended {K : Finset String} (h : advance fe b n r₀ = .ended (.ok ()) r)
    (hK : ∀ l, ∀ k ∈ (r.session.queues.get l).seen, k ∈ K) : KeysWithin fe b K r₀ := by
  intro m r₁ hm l k hk
  obtain ⟨n', r', hn', hstep, -⟩ := advance_ended h
  obtain ⟨-, -, -, -, hmove, -⟩ := step_eq_ended hstep
  have hle : m ≤ n' := by
    by_contra hlt
    have hend : advance fe b (n' + 1) r₀ = .ended (.ok ()) r := by
      rw [advance_succ, hn']
      exact hstep
    rw [advance_of_le (Nat.lt_of_not_le hlt) hend] at hm
    cases hm
  exact hK l k (hmove.seen (seen_advance hle hm hn' hk))

/-- **A run over finitely many keys ends**: it takes a step for each key in each of the seven lanes, a
step for each round that finds a method, and one more. -/
theorem ended_of_keysWithin {K : Finset String} {p : Program} {c : Config} {state : σ} {s : Session}
    (hs : Session.seeded p c = .ok s) (hK : KeysWithin fe b K { state, session := s }) :
    ∃ result r, advance fe b (8 * K.card + 1) { state, session := s } = .ended result r := by
  cases hn : advance fe b (8 * K.card + 1) { state, session := s } with
  | ended result r => exact ⟨result, r, rfl⟩
  | running r =>
    have hsteps := length_history hn
    rw [length_eq_add_roundsIn] at hsteps
    have hhanded := length_le_of_keysIn fun l =>
      ((kept hs hn).served l).length_le.trans (hK.length_seen_le hn l)
    have hrounds := (rounds_le_length_seen rfl hn).trans (hK.length_seen_le hn .methods)
    rw [rounds_advance hn] at hrounds
    simp only [Lane.all, List.length_cons, List.length_nil] at hhanded
    omega

/-! ## A bound on the rounds -/

/-- A bound stops a run after a round that found a new target, if there have been so many. -/
theorem step_some (m : UInt64) (r : Run σ) :
    step fe (some m) r = match step fe none r with
      | .running r' =>
          if r.rounds < r'.rounds ∧ m.toNat ≤ r'.rounds then
            .ended (.error (.failure (.noConvergence r'.rounds))) r'
          else .running r'
      | .ended result r' => .ended result r' := by
  rw [step, step]
  rcases hpop : r.session.queues.popFirst? r.turn.lanes with _ | ⟨l, i, queues⟩
  · simp only [dispatch]
    cases hts : (fe.hierarchy r.state).targets r.session.program r.session.instances
        r.session.calls with
    | error f => rfl
    | ok ts =>
      by_cases hfresh : (r.session.record ts).1 = 0 <;> simp [hfresh]
  · simp only [process]
    rcases (fe.process i).run r.state { r.session with queues } with ⟨x, state, session⟩
    cases x <;> simp

/-- A run that ends well makes one more round. -/
theorem rounds_lt_of_ended (h : advance fe b n r₀ = .ended (.ok ()) r) :
    r.rounds = r₀.rounds + roundsIn (history fe b n r₀) ∧ r₀.rounds < r.rounds := by
  obtain ⟨m, r', hm, hstep, hhist⟩ := advance_ended h
  obtain ⟨hpop, ts, -, -, hmove, -⟩ := step_eq_ended hstep
  have hround : roundsIn [r'.deed fe] = 1 := by
    rw [deed, hpop]
    rfl
  have hrounds := hmove.rounds
  rw [rounds_advance hm, hround] at hrounds
  rw [hhist, roundsIn_concat, hround]
  omega

/-- **A run that ends well takes the same steps under a bound**, up to the round in which the bound
is reached. -/
theorem advance_some {m : UInt64} (h₀ : r₀.rounds < max m.toNat 1)
    (h : advance fe none n r₀ = .ended (.ok ()) r) :
    if r.rounds ≤ max m.toNat 1 then advance fe (some m) n r₀ = .ended (.ok ()) r
    else ∃ r', advance fe (some m) n r₀
      = .ended (.error (.failure (.noConvergence (max m.toNat 1)))) r' := by
  induction n generalizing r₀ with
  | zero => cases h
  | succ n ih =>
    rw [advance] at h ⊢
    rw [step_some]
    cases hstep : step fe none r₀ with
    | ended result r₁ =>
      rw [hstep] at h
      obtain ⟨rfl, rfl⟩ := Progress.ended.inj h
      obtain ⟨-, -, -, -, hmove, -⟩ := step_eq_ended hstep
      rw [if_pos (hmove.rounds_le.trans h₀)]
    | running r₁ =>
      rw [hstep] at h
      have hnext := (step_eq_running hstep).rounds_le
      by_cases hreached : r₁.rounds < max m.toNat 1
      · have hpass : ¬ (r₀.rounds < r₁.rounds ∧ m.toNat ≤ r₁.rounds) := by omega
        simp only [if_neg hpass]
        exact ih hreached h
      · have htop : r₁.rounds = max m.toNat 1 := by omega
        have hmore := (rounds_lt_of_ended h).2
        rw [if_neg (by omega)]
        have hcut : r₀.rounds < r₁.rounds ∧ m.toNat ≤ r₁.rounds := by omega
        refine ⟨r₁, ?_⟩
        simp only [if_pos hcut]
        rw [htop]

/-- **How long a run takes.**  A run without a bound that takes on keys of one finite set only ends,
hands over no more work in a lane than there are keys, and makes at most one more round of dispatch
than there are keys.  And a run that ends well without a bound comes to the same under every bound
of at least as many rounds, and fails for want of convergence under a smaller one; a bound of zero
is one of one round. -/
theorem bounded {p : Program} {c : Config} {s : Session} (state : σ)
    (hs : Session.seeded p c = .ok s) :
    let start : Run σ := { state, session := s }
    (∀ K : Finset String, KeysWithin fe none K start →
      let steps := 8 * K.card + 1
      let deeds := history fe none steps start
      (∃ result r, advance fe none steps start = .ended result r) ∧
        (∀ l, (keysIn l (handed deeds)).length ≤ K.card) ∧ roundsIn deeds ≤ K.card + 1) ∧
    ∀ n r, advance fe none n start = .ended (.ok ()) r →
      r.rounds = roundsIn (history fe none n start) ∧ ∀ m : UInt64,
        if r.rounds ≤ max m.toNat 1 then advance fe (some m) n start = .ended (.ok ()) r
        else ∃ r', advance fe (some m) n start
          = .ended (.error (.failure (.noConvergence (max m.toNat 1)))) r' := by
  refine ⟨fun K hK => ?_, fun n r h => ⟨?_, fun m => advance_some (by simp) h⟩⟩
  · obtain ⟨result, r, hr⟩ := ended_of_keysWithin hs hK
    obtain ⟨m, r', hm, -, hhist⟩ := advance_ended hr
    refine ⟨⟨result, r, hr⟩, fun l => ?_, ?_⟩
    · rw [hhist, handed_concat]
      exact (length_keysIn_le (kept hs hm) fe l).trans (hK.length_seen_le hm l)
    · have hrounds := (rounds_le_length_seen rfl hm).trans (hK.length_seen_le hm .methods)
      rw [rounds_advance hm, Nat.zero_add] at hrounds
      rw [hhist, roundsIn_concat]
      exact Nat.add_le_add hrounds List.countP_le_length
  · rw [(rounds_lt_of_ended h).1, Nat.zero_add]

end Run

namespace Gallery

/-- The keys of all there is to specialize in the small program. -/
def keys : Finset String :=
  {"Main::Shape", "Main::Circle", "Main::main", "Main::Circle::area"}

/-- The first round finds the method, so the run takes two: a bound of two changes nothing, and one
of one stops it. -/
theorem gallery_bounded : ∃ s r, Session.seeded program config = .ok s ∧
    Run.KeysWithin (frontEnd [area []]) none keys { state := (), session := s } ∧
    Run.roundsIn (Run.history (frontEnd [area []]) none 33 { state := (), session := s }) ≤ 5 ∧
    Run.advance (frontEnd [area []]) none 6 { state := (), session := s } = .ended (.ok ()) r ∧
    Run.advance (frontEnd [area []]) (some 2) 6 { state := (), session := s }
      = .ended (.ok ()) r ∧
    ∃ r', Run.advance (frontEnd [area []]) (some 1) 6 { state := (), session := s }
      = .ended (.error (.failure (.noConvergence 1))) r' := by
  have hend : (Run.ended? (frontEnd [area []]) program config () 6).any (fun e =>
      decide (e.2.rounds = 2 ∧
        ∀ l ∈ Lane.all, ∀ k ∈ (e.2.session.queues.get l).seen, k ∈ keys)) = true := by
    decide +kernel
  obtain ⟨e, he, hend⟩ := (Option.any_eq_true _ _).mp hend
  obtain ⟨htwo, hkeys⟩ := of_decide_eq_true hend
  obtain ⟨s, hs, hrun, -⟩ := Run.ended?_eq_some he
  have hwithin := Run.keysWithin_of_ended hrun fun l => hkeys l l.mem_all
  obtain ⟨hends, hbounds⟩ := Run.bounded () hs
  obtain ⟨-, hbounded⟩ := hbounds 6 e.2 hrun
  rw [htwo] at hbounded
  exact ⟨s, e.2, hs, hwithin, (hends keys hwithin).2.2, hrun, hbounded 2, hbounded 1⟩

end Gallery

end Monomorph
