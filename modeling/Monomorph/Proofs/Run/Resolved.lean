import Monomorph.Proofs.Run.Least

/-!
# Run/Resolved — a virtual call is resolved as the first like it was

Virtual calls are written down once for a slot and a receiver, as the first of them was made
(`mem_withCall_of_find?`).  What a round of dispatch looks for on behalf of a call is therefore what
the first call through its slot at its receiver asks for, and the call finds its method wherever it
asks for the same (`ended_resolved`).  A slot does not name closures: a later call that hands over
others is never resolved (`Gallery.gallery_loses`).
-/

namespace Monomorph

/-- Calls through one slot at one receiver, as the keys tell. -/
def VirtualCall.SamePlace (c d : VirtualCall) : Prop :=
  d.slot = c.slot ∧ d.receiver.key = c.receiver.key

instance (c d : VirtualCall) : Decidable (c.SamePlace d) :=
  inferInstanceAs (Decidable (_ ∧ _))

/-- Calls that ask for the same methods: they differ in the closures they hand over at most, and not
in the key of these. -/
structure VirtualCall.Agrees (c d : VirtualCall) : Prop where
  receiver : c.receiver = d.receiver
  name : c.name = d.name
  binds : c.binds = d.binds
  closures : Key.closures c.closures = Key.closures d.closures

namespace Session

/-! ## The calls on record -/

theorem withCall_eq_concat {calls : List VirtualCall} {c : VirtualCall}
    (h : ¬ ∃ d ∈ calls, c.SamePlace d) : withCall calls c = calls ++ [c] := by
  refine if_neg fun hany => h ?_
  obtain ⟨d, hd, hsame⟩ := List.any_eq_true.mp hany
  exact ⟨d, hd, by simpa [VirtualCall.SamePlace] using hsame⟩

theorem foldl_withCall_grows (calls noted : List VirtualCall) :
    calls <+: noted.foldl withCall calls := by
  induction noted generalizing calls with
  | nil => exact List.prefix_rfl
  | cons c noted ih => exact (Path.withCall_grows calls c).trans (ih _)

/-- **Of the calls at one place the first is on record.** -/
theorem mem_withCall_of_find? {calls noted : List VirtualCall} {c first : VirtualCall}
    (hcalls : ¬ ∃ d ∈ calls, c.SamePlace d)
    (h : noted.find? (fun d => decide (c.SamePlace d)) = some first) :
    first ∈ noted.foldl withCall calls := by
  induction noted generalizing calls with
  | nil => cases h
  | cons d noted ih =>
    rw [List.foldl_cons]
    by_cases hd : c.SamePlace d
    · obtain rfl : d = first := by simpa [hd] using h
      have hnew : ¬ ∃ e ∈ calls, d.SamePlace e := fun ⟨e, he, hs, hr⟩ =>
        hcalls ⟨e, he, hs.trans hd.1, hr.trans hd.2⟩
      rw [withCall_eq_concat hnew]
      exact (foldl_withCall_grows _ noted).subset (by simp)
    · refine ih (fun ⟨e, he, hsame⟩ => ?_) (by simpa [hd] using h)
      rcases mem_withCall he with he | rfl
      · exact hcalls ⟨e, he, hsame⟩
      · exact hd hsame

end Session

namespace Run

variable {σ : Type} {fe : FrontEnd σ} {b : Option UInt64} {r r' : Run σ} {H : Hierarchy}
  {p : Program} {c : Config}

/-- The virtual calls made in a list of deeds, in that order. -/
def noted (ds : List Deed) : List VirtualCall :=
  (ds.flatMap Deed.events).filterMap Session.Event.call?

theorem noted_concat (ds : List Deed) (d : Deed) :
    noted (ds ++ [d]) = noted ds ++ d.events.filterMap Session.Event.call? := by
  rw [noted, noted, List.flatMap_append, List.flatMap_singleton, List.filterMap_append]

/-- **One step** puts the calls it makes on record, each unless one at its place is. -/
theorem Moves.calls {d : Deed} (hm : Moves fe r d r') :
    r'.session.calls = (d.events.filterMap Session.Event.call?).foldl Session.withCall
      r.session.calls := by
  cases hm with
  | handed hpop hrun => exact (Action.run_path hrun).calls
  | resolved => exact (r.session.record_same _).2

/-- A session at the start has no virtual call on record. -/
theorem calls_seeded {s : Session} (hs : Session.seeded p c = .ok s) : s.calls = [] := by
  have hnone : (Session.seedLog p c).filterMap Session.Event.call? = [] := by
    refine List.filterMap_eq_nil_iff.mpr fun e he => ?_
    cases e with
    | noted call => cases (Session.registered_seedLog hs).mp (Session.call_mem_registered.mpr he)
    | requested | interned | changed | built => rfl
  rw [(Session.seeded_path hs).calls, hnone]
  rfl

/-- The calls on record are those made, each unless one at its place was made before. -/
theorem calls_advance {state : σ} {s : Session} {n : Nat} (hs : Session.seeded p c = .ok s)
    (h : advance fe b n { state, session := s } = .running r) :
    r.session.calls = (noted (history fe b n { state, session := s })).foldl
      Session.withCall [] := by
  refine invariant (P := fun ds r => r.session.calls = (noted ds).foldl Session.withCall [])
    (calls_seeded hs) (fun _ hr hm => ?_) h
  rw [hm.calls, hr, noted_concat, List.foldl_append]

/-- **A virtual call finds its methods if the first call at its place asks for the same.**  In a run
that ends well, in which the answers about types and methods stay the same, let a call agree with the
first made through its slot at its receiver: the method that it finds on any type on record is held,
or has been handed over. -/
theorem ended_resolved {state : σ} {s : Session} {n : Nat} (hs : Session.seeded p c = .ok s)
    (hH : Answers fe c.maxRounds { state, session := s } H)
    (h : advance fe c.maxRounds n { state, session := s } = .ended (.ok ()) r) :
    let deeds := history fe c.maxRounds n { state, session := s }
    ∀ call ∈ noted deeds, ∃ first,
      (noted deeds).find? (fun d => decide (call.SamePlace d)) = some first ∧
      (first.Agrees call → ∀ i ∈ r.session.instances, ∀ d f, p.type i.decl = .ok d →
        H.isSubtype (.nominal d i.binds) call.receiver = .ok true →
        H.method? (.nominal d i.binds) call.name = .ok (some f) →
        ∃ e, p.type f.containing = .ok e ∧
          let key := Key.member e call.name (f.outer.overlay call.binds) call.closures
          r.session.assembly.hasInvoke key = true ∨ key ∈ keysIn .methods (handed deeds)) := by
  intro deeds call hcall
  obtain ⟨hitems, hkept⟩ := ended_kept hs h
  obtain ⟨n', r', ts, hn', hmove, hhist, hlast⟩ := ended_round hH h
  have hprogram : r.session.program = p :=
    (hmove.program.trans (program_advance hn')).trans (Session.seeded_path hs).program
  have hcalls : r.session.calls = (noted deeds).foldl Session.withCall [] := by
    rw [hmove.calls, calls_advance hs hn', ← List.foldl_append, ← noted_concat, ← hhist]
  have hts := hlast.targets
  rw [hprogram] at hts
  have hsome : ((noted deeds).find? fun d => decide (call.SamePlace d)).isSome = true :=
    List.find?_isSome.mpr ⟨call, hcall, decide_eq_true ⟨rfl, rfl⟩⟩
  obtain ⟨first, hfirst⟩ := Option.isSome_iff_exists.mp hsome
  refine ⟨first, hfirst, fun hagree i hi d f hd hsub hf => ?_⟩
  have hrecorded : first ∈ r.session.calls :=
    hcalls ▸ Session.mem_withCall_of_find? (by simp) hfirst
  obtain ⟨o, ho⟩ := Hierarchy.exists_target?_of_targets hts first hrecorded i hi
  obtain ⟨e, t, he, rfl, hkey⟩ :=
    Hierarchy.exists_target ho hd (hagree.receiver ▸ hsub) (hagree.name ▸ hf)
  have hsame : t.key = Key.member e call.name (f.outer.overlay call.binds) call.closures := by
    rw [hkey, Key.member, Key.member, hagree.name, hagree.binds, hagree.closures]
  refine ⟨e, he, ?_⟩
  rw [← hsame]
  exact (hlast.known t ((Hierarchy.mem_targets hts).mpr ⟨first, hrecorded, i, hi, ho⟩)).imp_right
    (hkept.mem_seen_iff (hitems .methods)).mp

end Run

namespace Gallery

/-- What the small program answers about the entity, whatever closures a call hands over. -/
theorem hierarchy_answers :
    hierarchy.isSubtype (.nominal circle ∅) (.nominal shape ∅) = .ok true ∧
      hierarchy.method? (.nominal circle ∅) "area" = .ok (some ⟨circle.id, ∅, ⟨1⟩⟩) :=
  ⟨by decide +kernel, congrArg Except.ok (if_pos (by decide +kernel))⟩

/-- Of two calls at one place the first finds the method of the entity. -/
theorem gallery_resolved : ∃ s r, Session.seeded program config = .ok s ∧
    Run.Answers (frontEnd twice) none { state := (), session := s } hierarchy ∧
    Run.advance (frontEnd twice) none 6 { state := (), session := s } = .ended (.ok ()) r ∧
    let deeds := Run.history (frontEnd twice) none 6 { state := (), session := s }
    Run.noted deeds = twice ∧
      (r.session.assembly.hasInvoke "Main::Circle::area" = true ∨
        "Main::Circle::area" ∈ keysIn .methods (Run.handed deeds)) := by
  have hend : (Run.ended? (frontEnd twice) program config () 6).any (fun e =>
      decide (Run.noted e.1 = twice ∧
        ⟨"Main::Circle", circle.id, ∅⟩ ∈ e.2.session.instances)) = true := by
    decide +kernel
  obtain ⟨e, he, hend⟩ := (Option.any_eq_true _ _).mp hend
  obtain ⟨hnoted, htype⟩ := of_decide_eq_true hend
  obtain ⟨s, hs, hrun, hhist⟩ := Run.ended?_eq_some he
  rw [← hhist] at hnoted
  have hanswers : Run.Answers (frontEnd twice) none { state := (), session := s } hierarchy :=
    fun _ _ _ => rfl
  obtain ⟨first, hfirst, hfinds⟩ := Run.ended_resolved hs hanswers hrun (area [])
    (by rw [hnoted]; exact List.mem_cons_self)
  obtain rfl : area [] = first := by
    rw [hnoted] at hfirst
    exact Option.some.inj (hfirst ▸ by decide +kernel)
  obtain ⟨d, hd, hkey⟩ := hfinds ⟨rfl, rfl, rfl, rfl⟩ ⟨"Main::Circle", circle.id, ∅⟩ htype circle
    ⟨circle.id, ∅, ⟨1⟩⟩ rfl hierarchy_answers.1 hierarchy_answers.2
  obtain rfl : circle = d := Except.ok.inj hd
  exact ⟨s, e.2, hs, hanswers, hrun, hnoted, hkey⟩

/-- **Of two calls at one place the second, which hands over a closure, loses its target.**  The run
ends well, the entity is on record and has the method, and neither is the method for that closure
held nor has it been handed over. -/
theorem gallery_loses : ∃ s r, Session.seeded program config = .ok s ∧
    Run.Answers (frontEnd twice) none { state := (), session := s } hierarchy ∧
    Run.advance (frontEnd twice) none 6 { state := (), session := s } = .ended (.ok ()) r ∧
    let deeds := Run.history (frontEnd twice) none 6 { state := (), session := s }
    area [handler] ∈ Run.noted deeds ∧
      ⟨"Main::Circle", circle.id, ∅⟩ ∈ r.session.instances ∧ program.type circle.id = .ok circle ∧
      hierarchy.isSubtype (.nominal circle ∅) (area [handler]).receiver = .ok true ∧
      hierarchy.method? (.nominal circle ∅) (area [handler]).name
        = .ok (some ⟨circle.id, ∅, ⟨1⟩⟩) ∧
      let key := Key.member circle "area" ((∅ : Binds).overlay (area [handler]).binds) [handler]
      r.session.assembly.hasInvoke key = false ∧ key ∉ keysIn .methods (Run.handed deeds) := by
  have hend : (Run.ended? (frontEnd twice) program config () 6).any (fun e =>
      let key := Key.member circle "area" ((∅ : Binds).overlay (area [handler]).binds) [handler]
      decide (area [handler] ∈ Run.noted e.1 ∧
        ⟨"Main::Circle", circle.id, ∅⟩ ∈ e.2.session.instances ∧
        e.2.session.assembly.hasInvoke key = false ∧
        key ∉ keysIn .methods (Run.handed e.1))) = true := by
    decide +kernel
  obtain ⟨e, he, hend⟩ := (Option.any_eq_true _ _).mp hend
  obtain ⟨hnoted, htype, hheld, hhanded⟩ := of_decide_eq_true hend
  obtain ⟨s, hs, hrun, hhist⟩ := Run.ended?_eq_some he
  exact ⟨s, e.2, hs, fun _ _ _ => rfl, hrun, hhist ▸ hnoted, htype, rfl, hierarchy_answers.1,
    hierarchy_answers.2, hheld, hhist ▸ hhanded⟩

end Gallery

end Monomorph
