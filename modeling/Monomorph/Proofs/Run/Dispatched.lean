import Monomorph.Proofs.Run.Served
import Monomorph.Proofs.Session.Targets
import Monomorph.Ty.Equality

/-!
# Run/Dispatched — virtual dispatch is complete and exact where a run ends

While a run is under way its slots are exact for the calls and types on record so far
(`Run.Dispatching`), since calls and types only grow in number and a round of dispatch fills slots in the order
of the calls.  The last round finds no new target: then the method of every call on every type is
held or has been handed over, and its slot is filled (`Run.ended_dispatched`).
-/

namespace Monomorph

deriving instance DecidableEq for VirtualCall

deriving instance DecidableEq for TypeInstance

namespace Run

variable {σ : Type} {fe : FrontEnd σ} {b : Option UInt64} {r₀ r r' : Run σ} {H : Hierarchy}
  {p : Program}

/-! ## What a front end may do -/

/-- While a run is under way it is told the same about types and methods. -/
def Answers (fe : FrontEnd σ) (b : Option UInt64) (r₀ : Run σ) (H : Hierarchy) : Prop :=
  ∀ n r, advance fe b n r₀ = .running r → fe.hierarchy r.state = H

/-- Processing an item fills no slot. -/
def LeavesSlots (fe : FrontEnd σ) (b : Option UInt64) (r₀ : Run σ) : Prop :=
  ∀ n r r' i es, advance fe b n r₀ = .running r → Moves fe r (.handed i es) r' →
    ∀ type slot key, r'.session.assembly.InSlot type slot key →
      r.session.assembly.InSlot type slot key

/-! ## What holds between steps -/

theorem listed_seeded {c : Config} {s : Session} (h : Session.seeded p c = .ok s) :
    s.agenda.Listed := by
  have hstart : (Session.new p c.coreNamespace).agenda.Listed := rfl
  rw [(Session.seeded_path h).agenda]
  exact hstart.takeAll _

theorem Moves.listed {d : Deed} (hm : Moves fe r d r') (h : r.session.agenda.Listed) :
    r'.session.agenda.Listed := by
  cases hm with
  | @handed l i queues state session hpop hrun =>
    change session.agenda.Listed
    rw [(Action.run_path hrun).agenda]
    exact (h.pop hpop).takeAll _
  | @resolved ts hpop hts =>
    change (r.session.record ts).2.agenda.Listed
    rw [r.session.agenda_record ts]
    exact h.takeAll _

/-- The types on record are listed while a run is under way. -/
theorem listed {c : Config} {state : σ} {s : Session} {n : Nat}
    (hs : Session.seeded p c = .ok s)
    (h : advance fe b n { state, session := s } = .running r) : r.session.agenda.Listed :=
  invariant (P := fun _ r => r.session.agenda.Listed) (listed_seeded hs)
    (fun _ hr hm => hm.listed hr) h

/-- The slots are exact for the calls and the types on record, and the methods asked for by dispatch
are methods that a call runs. -/
structure Dispatching (H : Hierarchy) (p : Program) (asked : List Asked) (s : Session) : Prop where
  program : s.program = p
  listed : s.agenda.Listed
  exact : H.Exact p s.calls s.instances s.assembly
  found : ∀ a ∈ asked, ∀ f, a.item.filling = some f → ∃ t : Target, a.item = t.item ∧
    ∃ c ∈ s.calls, ∃ i ∈ s.instances, H.Runs p c i t.key ∧ t.filling = ⟨c.slot, i.key⟩

/-- A session at the start has nothing to dispatch. -/
theorem dispatching_seeded {c : Config} {s : Session} (h : Session.seeded p c = .ok s) :
    Dispatching H p (asked (Session.seedLog p c) []) s where
  program := (Session.seeded_path h).program
  listed := listed_seeded h
  exact type slot key hslot := by
    rw [Session.seeded_assembly h] at hslot
    rcases hslot with ⟨d, hd, -⟩ | ⟨d, hd, -⟩ <;> cases hd
  found a ha f hf := by
    rw [asked, List.flatMap_nil, List.append_nil] at ha
    rw [((Session.seeded_path h).asked ha).2] at hf
    cases hf

/-- **One step** keeps the slots exact: an item processed fills none, a round of dispatch fills them
in the order of the calls. -/
theorem Moves.dispatching {as : List Asked} {d : Deed} (hm : Moves fe r d r')
    (hH : fe.hierarchy r.state = H)
    (hslots : ∀ i es, d = .handed i es → ∀ type slot key,
      r'.session.assembly.InSlot type slot key → r.session.assembly.InSlot type slot key)
    (h : Dispatching H p as r.session) : Dispatching H p (as ++ d.asks) r'.session := by
  have hlisted := hm.listed h.listed
  cases hm with
  | @handed l i queues state session hpop hrun =>
    have hpath := Action.run_path hrun
    obtain ⟨calls, hcalls⟩ := hpath.calls_grow
    obtain ⟨instances, hinstances⟩ := hpath.instances_grow
    refine ⟨hpath.program.trans h.program, hlisted, ?_, fun a ha f hf => ?_⟩
    · have hmono := h.exact.mono calls instances (hslots i _ rfl)
      rwa [hcalls, hinstances] at hmono
    · rcases List.mem_append.mp ha with ha | ha
      · obtain ⟨t, hitem, c, hc, j, hj, hruns⟩ := h.found a ha f hf
        exact ⟨t, hitem, c, hcalls ▸ List.mem_append_left _ hc, j,
          hinstances ▸ List.mem_append_left _ hj, hruns⟩
      · rw [(hpath.asked ha).2] at hf
        cases hf
  | @resolved ts hpop hts =>
    obtain ⟨hprogram, hcalls⟩ := r.session.record_same ts
    have hagenda := r.session.agenda_record ts
    obtain ⟨instances, hinstances⟩ := r.session.agenda.instances_takeAll (r.session.recordAsks ts)
    rw [← hagenda] at hinstances
    change r.session.instances ++ instances = (r.session.record ts).2.instances at hinstances
    rw [hH, h.program] at hts
    refine ⟨hprogram.trans h.program, hlisted, ?_, fun a ha f hf => ?_⟩
    · have hround : H.Exact p ([] ++ r.session.calls) r.session.instances
          (r.session.assembly.fillAll ts) := h.exact.fillAll_targets nofun hts
      have hexact := hround.mono [] instances (fun _ _ _ => id)
      rwa [hinstances, ← Session.assembly_record, List.append_nil, List.nil_append, ← hcalls]
        at hexact
    · change ∃ t : Target, a.item = t.item ∧ ∃ c ∈ (r.session.record ts).2.calls, _
      rw [hcalls]
      rcases List.mem_append.mp ha with ha | ha
      · obtain ⟨t, hitem, c, hc, j, hj, hruns⟩ := h.found a ha f hf
        exact ⟨t, hitem, c, hc, j, hinstances ▸ List.mem_append_left _ hj, hruns⟩
      · obtain ⟨t, ht, rfl⟩ := List.mem_map.mp ha
        obtain ⟨c, hc, j, hj, htarget⟩ := (Hierarchy.mem_targets hts).mp ht
        exact ⟨t, rfl, c, hc, j, hinstances ▸ List.mem_append_left _ hj,
          Hierarchy.target?_eq_some htarget⟩

theorem dispatching {c : Config} {state : σ} {s : Session} {n : Nat}
    (hs : Session.seeded p c = .ok s) (hH : Answers fe b { state, session := s } H)
    (hslots : LeavesSlots fe b { state, session := s })
    (h : advance fe b n { state, session := s } = .running r) :
    Dispatching H p (asked (Session.seedLog p c) (history fe b n { state, session := s }))
      r.session := by
  refine invariant (P := fun ds r => Dispatching H p (asked (Session.seedLog p c) ds) r.session)
    (dispatching_seeded hs) (fun hn hr hm => ?_) h
  rw [asked_concat]
  refine hm.dispatching (hH _ _ hn) (fun i es hd => ?_) hr
  exact hslots _ _ _ i es hn (hd ▸ hm)

/-! ## Where a run ends -/

/-- A round of dispatch that finds no new target, from one session to the other. -/
structure LastRound (H : Hierarchy) (s s' : Session) (ts : List Target) : Prop where
  program : s'.program = s.program
  calls : s'.calls = s.calls
  agenda : s'.agenda = s.agenda
  assembly : s'.assembly = s.assembly.fillAll ts
  targets : H.targets s'.program s'.instances s'.calls = .ok ts
  known : ∀ t ∈ ts, s'.assembly.hasInvoke t.key = true ∨ t.key ∈ (s'.queues.get .methods).seen

/-- **A run that ends well ends in a round that finds no new target.** -/
theorem ended_round {n : Nat} (hH : Answers fe b r₀ H)
    (h : advance fe b n r₀ = .ended (.ok ()) r) :
    ∃ m r' ts, advance fe b m r₀ = .running r' ∧ Moves fe r' (r'.deed fe) r ∧
      history fe b n r₀ = history fe b m r₀ ++ [r'.deed fe] ∧
      LastRound H r'.session r.session ts := by
  obtain ⟨m, r', hm, hstep, hhist⟩ := advance_ended h
  obtain ⟨-, ts, hts, hfresh, hmove, hsession⟩ := step_eq_ended hstep
  obtain ⟨hprogram, hcalls⟩ := r'.session.record_same ts
  obtain ⟨hagenda, hknown⟩ := Session.of_fresh hfresh
  have hassembly := r'.session.assembly_record ts
  rw [← hsession] at hprogram hcalls hagenda hassembly
  have hinstances : r.session.instances = r'.session.instances :=
    congrArg Agenda.instances hagenda
  have hqueues : r.session.queues = r'.session.queues := congrArg Agenda.queues hagenda
  refine ⟨m, r', ts, hm, hmove, hhist, hprogram, hcalls, hagenda, hassembly, ?_, fun t ht => ?_⟩
  · rw [hprogram, hinstances, hcalls, ← hH m r' hm]
    exact hts
  · rw [hassembly, Assembly.hasInvoke_fillAll, hqueues]
    exact hknown t ht

/-- **Virtual dispatch is complete and exact.**  In a run that ends well, in which the answers about
types and methods stay the same and no front end fills a slot, a call that finds a method on a type
on record finds it held or handed over, and the slot it goes through, if the type is declared, holds
what the first call through it runs; every slot that holds anything, and every method handed over to
fill a slot, is one that a call runs on a type on record. -/
theorem ended_dispatched {c : Config} {state : σ} {s : Session} {n : Nat}
    (hs : Session.seeded p c = .ok s) (hH : Answers fe c.maxRounds { state, session := s } H)
    (hslots : LeavesSlots fe c.maxRounds { state, session := s })
    (h : advance fe c.maxRounds n { state, session := s } = .ended (.ok ()) r) :
    let m := r.session.assembly
    let items := handed (history fe c.maxRounds n { state, session := s })
    (∀ call ∈ r.session.calls, ∀ i ∈ r.session.instances, ∀ d f, p.type i.decl = .ok d →
      H.isSubtype (.nominal d i.binds) call.receiver = .ok true →
      H.method? (.nominal d i.binds) call.name = .ok (some f) →
      ∃ e, p.type f.containing = .ok e ∧
        (let key := Key.member e call.name (f.outer.overlay call.binds) call.closures
        m.hasInvoke key = true ∨ key ∈ keysIn .methods items) ∧
        ∀ v, m.vtable? i.key = some v →
          ∃ key, v.get? call.slot = some key ∧ H.RunsFirst p r.session.calls call.slot i key) ∧
    (∀ type slot key, m.InSlot type slot key → ∃ call ∈ r.session.calls, ∃ i ∈ r.session.instances,
      i.key = type ∧ call.slot = slot ∧ H.Runs p call i key) ∧
    ∀ item ∈ items, ∀ f, item.filling = some f → item.work.lane = .methods ∧
      ∃ call ∈ r.session.calls, ∃ i ∈ r.session.instances,
        f = ⟨call.slot, i.key⟩ ∧ H.Runs p call i item.key := by
  intro m items
  obtain ⟨hitems, hkept⟩ := ended_kept hs h
  obtain ⟨n', r', ts, hn', hmove, hhist, hlast⟩ := ended_round hH h
  have hafter : Dispatching H p
      (asked (Session.seedLog p c) (history fe c.maxRounds n { state, session := s }))
      r.session := by
    rw [hhist, asked_concat]
    exact hmove.dispatching (hH _ _ hn')
      (fun i es hd => hslots _ _ _ i es hn' (hd ▸ hmove)) (dispatching hs hH hslots hn')
  have hts := hlast.targets
  rw [hafter.program] at hts
  refine ⟨fun call hcall i hi d f hd hsub hf => ?_, fun type slot key hslot => ?_,
    fun item hitem f hf => ?_⟩
  · obtain ⟨o, ho⟩ := Hierarchy.exists_target?_of_targets hts call hcall i hi
    obtain ⟨e, t, he, rfl, hkey⟩ := Hierarchy.exists_target ho hd hsub hf
    have ht : t ∈ ts := (Hierarchy.mem_targets hts).mpr ⟨call, hcall, i, hi, ho⟩
    refine ⟨e, he, ?_, fun v hv => ?_⟩
    · rw [← hkey]
      refine (hlast.known t ht).imp_right fun hseen => ?_
      rwa [(hkept.served .methods).eq_reverse_seen (hitems .methods), List.mem_reverse]
    · have hfilled := r'.session.assembly.filled_fillAll ht
      rw [(Hierarchy.target?_eq_some ho).2, ← hlast.assembly] at hfilled
      obtain ⟨key, hkey⟩ := Table.contains_iff.mp (hfilled v hv)
      obtain ⟨j, hj, hjkey, hfirst⟩ := hafter.exact _ _ _ (.of_vtable? hv hkey)
      obtain rfl := List.inj_on_of_nodup_map hafter.listed.nodup hj hi hjkey
      exact ⟨key, hkey, hfirst⟩
  · obtain ⟨i, hi, hkey, hfirst⟩ := hafter.exact type slot key hslot
    obtain ⟨call, hcall, hslot, hruns⟩ := hfirst.exists_runs
    exact ⟨call, hcall, i, hi, hkey, hslot, hruns⟩
  · obtain ⟨a, ha, rfl⟩ := List.mem_map.mp (hkept.known item hitem)
    obtain ⟨t, hitem, call, hcall, i, hi, hruns, hfilling⟩ :=
      hafter.found a (List.mem_filter.mp ha).1 f hf
    rw [hitem] at hf ⊢
    refine ⟨rfl, call, hcall, i, hi, ?_, hruns⟩
    rw [← hfilling]
    exact (Option.some.inj hf).symm

/-- A front end each of whose changes fills no slot leaves the slots alone. -/
theorem leavesSlots_of_changed (h : ∀ i st s m m', .changed m m' ∈ (fe.process i).log st s →
    ∀ type slot key, m'.InSlot type slot key → m.InSlot type slot key) : LeavesSlots fe b r₀ := by
  intro n r r' i es _ hm type slot key
  cases hm with
  | @handed l i queues state session hpop hrun =>
    refine (Action.run_path hrun).invariant (P := fun s => s.assembly.InSlot type slot key →
      r.session.assembly.InSlot type slot key) (fun he hpass hs hslot => ?_) id
    rcases hpass.assembly with ⟨m, rfl, rfl⟩ | hsame
    · exact hs (h i _ _ _ _ he type slot key hslot)
    · rw [hsame] at hslot
      exact hs hslot

end Run

namespace Gallery

theorem mem_log_noteAll {e : Session.Event} {calls : List VirtualCall} {next : Action Unit Unit}
    {st : Unit} {s : Session} (h : e ∈ (noteAll calls next).log st s) :
    (∃ c ∈ calls, e = .noted c) ∨ ∃ s, e ∈ next.log st s := by
  induction calls generalizing s with
  | nil => exact .inr ⟨s, h⟩
  | cons c calls ih =>
    rcases List.mem_cons.mp h with rfl | h
    · exact .inl ⟨c, List.mem_cons_self, rfl⟩
    · exact (ih h).imp_left fun ⟨c', hc', he⟩ => ⟨c', List.mem_cons_of_mem _ hc', he⟩

theorem changed_mem_log_finish {k : String} {st : Unit} {s : Session} {m m' : Assembly}
    (h : .changed m m' ∈ (finish k).log st s) : m' = { m with primitives := m'.primitives } := by
  obtain ⟨rfl, rfl⟩ := Session.Event.changed.inj (List.mem_singleton.mp h)
  rfl

/-- The entity and the concept are declared with free slots, and nothing else is. -/
theorem leavesSlots (calls : List VirtualCall) (b : Option UInt64) (r₀ : Run Unit) :
    Run.LeavesSlots (frontEnd calls) b r₀ := by
  refine Run.leavesSlots_of_changed fun ⟨k, work, _⟩ st s m m' h type slot key hslot => ?_
  cases work with
  | type d binds =>
    change _ ∈ (ite (d = shape.id) _ _ : Action Unit Unit).log st s at h
    split at h
    · obtain ⟨rfl, rfl⟩ := Session.Event.changed.inj (List.mem_singleton.mp h)
      exact .of_insert_concept rfl hslot
    · rw [Action.log, List.mem_cons] at h
      rcases h with h | h
      · cases h
      · split at h
        · obtain ⟨rfl, rfl⟩ := Session.Event.changed.inj (List.mem_singleton.mp h)
          exact .of_insert_entity rfl hslot
        · cases h
  | function =>
    change _ ∈ (Action.intern (.nominal circle ∅) fun _ => noteAll calls (finish k)).log st s at h
    rw [Action.log, List.mem_cons] at h
    rcases h with h | h
    · cases h
    · split at h
      · obtain ⟨c, -, hc⟩ | ⟨s', h⟩ := mem_log_noteAll h
        · cases hc
        · rwa [changed_mem_log_finish h] at hslot
      · cases h
  | method => rwa [changed_mem_log_finish h] at hslot
  | global | const | lambda | static => cases h

/-- The virtual call on the concept runs the method of the entity, and its slot holds it. -/
theorem gallery_dispatched :
    ∃ s r, Session.seeded program config = .ok s ∧
      Run.Answers (frontEnd [area []]) none { state := (), session := s } hierarchy ∧
      Run.LeavesSlots (frontEnd [area []]) none { state := (), session := s } ∧
      Run.advance (frontEnd [area []]) none 6 { state := (), session := s } = .ended (.ok ()) r ∧
      ∃ v key, r.session.assembly.vtable? "Main::Circle" = some v ∧ v.get? "area" = some key ∧
        hierarchy.RunsFirst program r.session.calls "area" ⟨"Main::Circle", circle.id, ∅⟩ key := by
  have hend : (Run.ended? (frontEnd [area []]) program config () 6).any (fun e =>
      decide (area [] ∈ e.2.session.calls ∧
        ⟨"Main::Circle", circle.id, ∅⟩ ∈ e.2.session.instances ∧
        (e.2.session.assembly.vtable? "Main::Circle").isSome)) = true := by
    decide +kernel
  obtain ⟨e, he, hend⟩ := (Option.any_eq_true _ _).mp hend
  obtain ⟨hcall, htype, hv⟩ := of_decide_eq_true hend
  obtain ⟨s, hs, hrun, -⟩ := Run.ended?_eq_some he
  obtain ⟨v, hv⟩ := Option.isSome_iff_exists.mp hv
  have hanswers : Run.Answers (frontEnd [area []]) none { state := (), session := s } hierarchy :=
    fun _ _ _ => rfl
  have hslots := leavesSlots [area []] none { state := (), session := s }
  have hmethod : hierarchy.method? (.nominal circle ∅) "area" = .ok (some ⟨circle.id, ∅, ⟨1⟩⟩) :=
    congrArg Except.ok (if_pos (by decide +kernel))
  obtain ⟨e', -, -, hslot⟩ := (Run.ended_dispatched hs hanswers hslots hrun).1 (area []) hcall
    ⟨"Main::Circle", circle.id, ∅⟩ htype circle _ rfl (by decide +kernel) hmethod
  obtain ⟨key, hkey, hfirst⟩ := hslot v hv
  exact ⟨s, e.2, hs, hanswers, hslots, hrun, v, key, hv, hkey, hfirst⟩

end Gallery

end Monomorph
