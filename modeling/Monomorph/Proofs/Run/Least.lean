import Mathlib.Order.Bounds.Basic
import Monomorph.Proofs.Run.Dispatched

/-!
# Run/Least — a run hands over the least closed set

A set of nodes is closed if it contains what the program starts with, what the processing of its
members registers, and the methods that the virtual calls among it run on the types among it
(`Run.Closed`).  Nothing in this speaks of an order, and yet **the nodes that a run hands over are
the least closed set** (`Run.ended_least`), where processing an item registers what its node says and
finishes nothing else, and all calls through one slot at one receiver hand over the same closures.
Where they do not, a later call is lost with its method, and the nodes handed over fall short of
the least closed set (`Gallery.gallery_misses`).

Both inclusions are kept step by step: whatever has been registered has been seen (`Run.Closing`),
and whatever has been asked for lies in every closed set (`Run.Within`).
-/

namespace Monomorph

/-- **The key of an instance says which instance it is.** -/
theorem TypeInstance.Of.same_of_key {p : Program} (hp : p.PlainlyNamed) {i j : TypeInstance}
    (hi : i.Of p) (hj : j.Of p) (h : i.key = j.key) :
    p.type i.decl = p.type j.decl ∧ i.binds = j.binds := by
  obtain ⟨d, hd, hik, hib⟩ := hi
  obtain ⟨e, he, hjk, hjb⟩ := hj
  have hkey : (Ty.nominal d i.binds).key = (Ty.nominal e j.binds).key := by
    rw [Ty.key_nominal, Ty.key_nominal, ← hik, ← hjk, h]
  have hd' : (Ty.nominal d i.binds).Built p := .nominal (Program.mem_types hd) hib.1 hib.2
  have he' : (Ty.nominal e j.binds).Built p := .nominal (Program.mem_types he) hjb.1 hjb.2
  have hsame := Ty.nominal_inj (hd'.proper.key_inj hp he'.proper hkey)
  obtain ⟨hdecl, hbinds⟩ := Part.mk.inj hsame
  obtain ⟨-, hns, hname⟩ := Nominal.mk.inj hdecl
  obtain rfl := hp.unique (Program.mem_types hd) (Program.mem_types he) hns hname
  refine ⟨hd.trans he.symm, ?_⟩
  cases hb : i.binds
  cases hb' : j.binds
  simp only [hb, hb'] at hbinds
  simp only [hbinds]

/-- A call runs on an instance what any other through its slot at its receiver runs, if both hand
over the same closures. -/
theorem Hierarchy.Runs.congr {H : Hierarchy} {p : Program} (hp : p.PlainlyNamed)
    {c d : VirtualCall} {i j : TypeInstance} {key : String} (h : H.Runs p c i key)
    (hc : (Registration.call c).Built p) (hd : (Registration.call d).Built p)
    (hslot : c.slot = d.slot) (hreceiver : c.receiver.key = d.receiver.key)
    (hclosures : Key.closures c.closures = Key.closures d.closures) (hi : i.Of p) (hj : j.Of p)
    (hkey : i.key = j.key) : H.Runs p d j key := by
  obtain ⟨hname, hbinds⟩ := Key.virtual_inj hp hc.2.1 hd.2.1 hc.2.2 hd.2.2 hslot
  have hsame := hc.1.proper.key_inj hp hd.1.proper hreceiver
  obtain ⟨hdecl, hib⟩ := hi.same_of_key hp hj hkey
  obtain ⟨t, f, e, ht, hsub, hf, he, rfl⟩ := h
  rw [hib, hsame] at hsub
  rw [hib, hname] at hf
  refine ⟨t, f, e, hdecl ▸ ht, hsub, hf, he, ?_⟩
  rw [Key.member, Key.member, hname, hbinds, hclosures]

/-! ## What keeps a session settled -/

namespace Session

variable {p : Program} {s : Session}

theorem Settled.pop {q : Queues} {ls : List Lane} {l : Lane} {i : Item} (h : Settled p s)
    (hpop : s.queues.popFirst? ls = some (l, i, q)) : Settled p { s with queues := q } := by
  exact ⟨h.stored.pop hpop, fun l k hk => (sees_pop hpop).mpr (h.finished l k hk), h.instances⟩

/-- Recording targets fills slots and asks for methods: no type is stored or put on record. -/
theorem Settled.record (h : Settled p s) (ts : List Target) : Settled p (s.record ts).2 := by
  have hsees : ∀ n, s.Sees n → (s.record ts).2.Sees n := fun n hn =>
    hn.of_agenda (s.agenda_record ts)
  refine ⟨⟨(s.record_same ts).1.trans h.stored.program, fun k hk => ?_, fun k x hx => ?_⟩,
    fun l k hk => ?_, fun i hi => ?_⟩
  · rw [assembly_record] at hk
    have hk : (s.assembly.fillAll ts).isFinished .types k = true := hk
    rw [Assembly.isFinished_fillAll] at hk
    exact sees_type.mp (hsees _ (h.finished .types k hk))
  · rw [assembly_record, Assembly.types_fillAll] at hx
    obtain ⟨u, hu, hk, hmirror, hall⟩ := h.stored.types k x hx
    exact ⟨u, hu, hk, hmirror, fun q hq => knows_iff.mpr (hsees _ (knows_iff.mp (hall q hq)))⟩
  · rw [assembly_record, Assembly.isFinished_fillAll] at hk
    exact hsees _ (h.finished l k hk)
  · change i ∈ (s.record ts).2.agenda.instances at hi
    rw [agenda_record] at hi
    rcases Agenda.mem_instances_takeAll hi with hi | ⟨a, ha, -, hwork⟩
    · exact h.instances i hi
    · obtain ⟨t, -, rfl⟩ := List.mem_map.mp ha
      cases hwork

end Session

namespace Run

open Session (sees_type)

variable {σ : Type} {fe : FrontEnd σ} {b : Option UInt64} {r₀ r r' : Run σ} {H : Hierarchy}
  {p : Program} {c : Config} {R : Node → Registration → Prop}

/-! ## What is closed -/

/-- What an item does is told by its node: it registers what the node registers, with types built of
the declarations of the program, and finishes nothing but the node. -/
structure Regular (p : Program) (R : Node → Registration → Prop) (i : Item)
    (es : List Session.Event) : Prop where
  registers : ∀ x, x ∈ Session.registered es ↔ R i.node x
  built : ∀ x ∈ Session.registered es, x.Built p
  finishes : ∀ m m', .changed m m' ∈ es → Session.Allowed (· = i.node) m m'

/-- While a run is under way every item does what its node tells. -/
def Regularly (fe : FrontEnd σ) (b : Option UInt64) (r₀ : Run σ) (p : Program)
    (R : Node → Registration → Prop) : Prop :=
  ∀ n r r' i es, advance fe b n r₀ = .running r → Moves fe r (.handed i es) r' → Regular p R i es

/-- Calls through one slot at one receiver hand over the same closures. -/
def OneClosures (ds : List Deed) : Prop :=
  ∀ c d, .noted c ∈ ds.flatMap Deed.events → .noted d ∈ ds.flatMap Deed.events →
    c.slot = d.slot → c.receiver.key = d.receiver.key →
      Key.closures c.closures = Key.closures d.closures

/-- A set of nodes with what the program starts with, what its members register, and the methods
that the calls its members make run on the types in it. -/
structure Closed (p : Program) (c : Config) (H : Hierarchy) (R : Node → Registration → Prop)
    (S : Set Node) : Prop where
  start : ∀ x, p.Starts c x → ∀ n, x.Asks p n → n ∈ S
  registered : ∀ m ∈ S, ∀ x, R m x → ∀ n, x.Asks p n → n ∈ S
  dispatched : ∀ m ∈ S, ∀ call, R m (.call call) → ∀ i : TypeInstance, i.Of p →
    ⟨.type, i.key⟩ ∈ S → ∀ key, H.Runs p call i key → ⟨.callable, key⟩ ∈ S

/-! ## Whatever is registered has been seen -/

theorem mem_handed {ds : List Deed} {i : Item} : i ∈ handed ds ↔ ∃ es, .handed i es ∈ ds := by
  rw [handed, List.mem_filterMap]
  constructor
  · rintro ⟨d, hd, hi⟩
    cases d with
    | handed j es =>
      obtain rfl := Option.some.inj hi
      exact ⟨es, hd⟩
    | resolved => cases hi
  · rintro ⟨es, hd⟩
    exact ⟨_, hd, rfl⟩

/-- The session is settled, and all that was registered has been seen or written down. -/
structure Closing (p : Program) (R : Node → Registration → Prop) (start : List Session.Event)
    (ds : List Deed) (s : Session) : Prop where
  settled : Session.Settled p s
  regular : ∀ i es, .handed i es ∈ ds → Regular p R i es
  seen : ∀ x ∈ Session.registered (start ++ ds.flatMap Deed.events), ∀ n, x.Asks p n → s.Sees n
  calls : ∀ call ∈ s.calls, .noted call ∈ ds.flatMap Deed.events
  noted : ∀ call, .noted call ∈ ds.flatMap Deed.events →
    ∃ d ∈ s.calls, d.slot = call.slot ∧ d.receiver.key = call.receiver.key

/-- A program starts with types built of its own declarations. -/
theorem built_of_starts {x : Registration} (h : p.Starts c x) : x.Built p := by
  cases h with
  | type _ hd =>
    obtain ⟨id, -, hd, -⟩ := hd
    exact .nominal (Program.mem_types hd) (List.forall_mem_nil _) (List.forall_mem_nil _)
  | entry => trivial

theorem closing_seeded (hp : p.PlainlyNamed) (hplaced : p.Placed) {s : Session}
    (h : Session.seeded p c = .ok s) : Closing p R (Session.seedLog p c) [] s := by
  have hpath := Session.seeded_path h
  have hnew : Session.Settled p (.new p c.coreNamespace) := by
    refine ⟨⟨rfl, fun k hk => ?_, fun k x hx => ?_⟩, fun l k hk => ?_, List.forall_mem_nil _⟩
    · cases hk
    · cases hx
    · cases l <;> cases hk
  obtain ⟨hsettled, hseen⟩ := hpath.settled hp hplaced hnew
    (fun x hx => built_of_starts ((Session.registered_seedLog h).mp hx)) fun m m' he => by
      rw [Session.changed_mem_seedLog he]
      exact ⟨rfl, fun l k hk => .inl (by cases l <;> exact hk)⟩
  refine ⟨hsettled, fun i es hd => ?_, ?_, fun call hcall => ?_, fun call hcall => ?_⟩
  · cases hd
  · rwa [List.flatMap_nil, List.append_nil]
  · rcases hpath.mem_calls hcall with hcall | hcall
    · cases hcall
    · cases (Session.registered_seedLog h).mp (Session.call_mem_registered.mpr hcall)
  · cases hcall

/-- **One step**: whatever it registers has been seen in the end. -/
theorem Moves.closing (hp : p.PlainlyNamed) (hplaced : p.Placed) {start : List Session.Event}
    {ds : List Deed} {d : Deed} {as : List Asked} {is : List Item} (hm : Moves fe r d r')
    (hkept : r.session.queues.Kept as is) (hregular : ∀ i es, d = .handed i es → Regular p R i es)
    (h : Closing p R start ds r.session) : Closing p R start (ds ++ [d]) r'.session := by
  have hevents : (ds ++ [d]).flatMap Deed.events = ds.flatMap Deed.events ++ d.events := by
    rw [List.flatMap_append, List.flatMap_singleton]
  have hall : ∀ i es, .handed i es ∈ ds ++ [d] → Regular p R i es := fun i es hd => by
    rcases List.mem_append.mp hd with hd | hd
    · exact h.regular i es hd
    · exact hregular i es (List.mem_singleton.mp hd).symm
  cases hm with
  | @handed l i queues state session hpop hrun =>
    have hr := hregular i _ rfl
    have hpath := Action.run_path hrun
    obtain ⟨hl, -, hi⟩ := hkept.next hpop
    have hsees : ({ r.session with queues } : Session).Sees i.node :=
      (Session.sees_pop hpop).mpr ⟨l, congrArg Lane.kind hl.symm, hi⟩
    obtain ⟨hsettled, hseen⟩ := hpath.settled hp hplaced (h.settled.pop hpop) hr.built
      fun m m' he => ⟨(hr.finishes m m' he).1, fun l k hk =>
        ((hr.finishes m m' he).2 l k hk).imp_right fun hnode => by rwa [hnode]⟩
    refine ⟨hsettled, hall, fun x hx n hn => ?_, fun call hcall => ?_, fun call hcall => ?_⟩
    · rw [hevents, ← List.append_assoc, Session.registered_append] at hx
      rcases List.mem_append.mp hx with hx | hx
      · exact hpath.sees ((Session.sees_pop hpop).mpr (h.seen x hx n hn))
      · exact hseen x hx n hn
    · rw [hevents]
      exact List.mem_append.mpr ((hpath.mem_calls hcall).imp_left (h.calls call))
    · rw [hevents] at hcall
      rcases List.mem_append.mp hcall with hcall | hcall
      · obtain ⟨d, hd, hsame⟩ := h.noted call hcall
        exact ⟨d, hpath.calls_grow.subset hd, hsame⟩
      · exact hpath.exists_mem_calls hcall
  | @resolved ts hpop hts =>
    rw [show Deed.events (.resolved (r.session.recordAsks ts)) = [] from rfl,
      List.append_nil] at hevents
    have hcalls := (r.session.record_same ts).2
    refine ⟨h.settled.record ts, hall, fun x hx n hn => ?_, ?_, ?_⟩
    · rw [hevents] at hx
      exact (h.seen x hx n hn).of_agenda (r.session.agenda_record ts)
    · rw [hevents, hcalls]
      exact h.calls
    · rw [hevents, hcalls]
      exact h.noted

theorem closing (hp : p.PlainlyNamed) (hplaced : p.Placed) {state : σ} {s : Session} {n : Nat}
    (hs : Session.seeded p c = .ok s) (hR : Regularly fe b { state, session := s } p R)
    (h : advance fe b n { state, session := s } = .running r) :
    Closing p R (Session.seedLog p c) (history fe b n { state, session := s }) r.session := by
  refine invariant (P := fun ds r => Closing p R (Session.seedLog p c) ds r.session)
    (closing_seeded hp hplaced hs) (fun hn hr hm => ?_) h
  exact hm.closing hp hplaced (kept hs hn) (fun i es hd => hR _ _ _ i es hn (hd ▸ hm)) hr

namespace Closing

variable {start : List Session.Event} {ds : List Deed} {s : Session}

/-- What a node handed over registers is registered. -/
theorem registered_of_handed (h : Closing p R start ds s) {m : Node}
    (hm : ∃ i ∈ handed ds, i.node = m) {x : Registration} (hx : R m x) :
    x ∈ Session.registered (ds.flatMap Deed.events) := by
  obtain ⟨i, hi, rfl⟩ := hm
  obtain ⟨es, hd⟩ := mem_handed.mp hi
  obtain ⟨e, he, hxe⟩ := Session.mem_registered.mp (((h.regular i es hd).registers x).mpr hx)
  exact Session.mem_registered.mpr ⟨e, List.mem_flatMap.mpr ⟨_, hd, he⟩, hxe⟩

theorem built_of_noted (h : Closing p R start ds s) {call : VirtualCall}
    (hcall : .noted call ∈ ds.flatMap Deed.events) : (Registration.call call).Built p := by
  obtain ⟨d, hd, he⟩ := List.mem_flatMap.mp hcall
  cases d with
  | handed i es => exact (h.regular i es hd).built _ (Session.call_mem_registered.mpr he)
  | resolved => cases he

end Closing

/-! ## Whatever is asked for lies in every closed set -/

/-- All that was asked for, and all that is on record, comes from members of a set. -/
structure Within (R : Node → Registration → Prop) (S : Set Node) (asked : List Asked)
    (s : Session) : Prop where
  asked : ∀ a ∈ asked, a.item.node ∈ S
  instances : ∀ i ∈ s.instances, ⟨.type, i.key⟩ ∈ S
  calls : ∀ call ∈ s.calls, ∃ m ∈ S, R m (.call call)

variable {S : Set Node}

/-- A type comes on record only by being asked for. -/
theorem Within.instances_of {as bs : List Asked} {s s' : Session} (h : Within R S as s)
    (hagenda : s'.agenda = s.agenda.takeAll bs) (hbs : ∀ a ∈ bs, a.item.node ∈ S) :
    ∀ i ∈ s'.instances, ⟨.type, i.key⟩ ∈ S := by
  intro i hi
  change i ∈ s'.agenda.instances at hi
  rw [hagenda] at hi
  rcases Agenda.mem_instances_takeAll hi with hi | ⟨a, ha, hkey, hwork⟩
  · exact h.instances i hi
  · have hnode := hbs a ha
    rwa [Item.node, hwork, hkey] at hnode

/-- Events that register nothing but what a closed set has stay within it. -/
theorem Within.along (hplaced : p.Placed) {as : List Asked} {s s' : Session}
    {es : List Session.Event} (h : Within R S as s) (hpath : s.Path es s') (hs : s.program = p)
    (hbuilt : ∀ x ∈ Session.registered es, x.Built p)
    (hasks : ∀ x ∈ Session.registered es, ∀ n, x.Asks p n → n ∈ S)
    (hcalls : ∀ call, .noted call ∈ es → ∃ m ∈ S, R m (.call call)) :
    Within R S (as ++ es.flatMap Session.Event.asks) s' := by
  have hin : ∀ a ∈ es.flatMap Session.Event.asks, a.item.node ∈ S := fun a ha => by
    obtain ⟨x, hx, hnode⟩ := hpath.asks_node hplaced hs hbuilt ha
    exact hasks x hx _ hnode
  refine ⟨List.forall_mem_append.mpr ⟨h.asked, hin⟩, h.instances_of hpath.agenda hin,
    fun call hcall => ?_⟩
  exact (hpath.mem_calls hcall).elim (h.calls call) (hcalls call)

theorem within_seeded (hplaced : p.Placed) (hS : Closed p c H R S) {s : Session}
    (h : Session.seeded p c = .ok s) : Within R S (asked (Session.seedLog p c) []) s := by
  have hnew : Within R S [] (.new p c.coreNamespace) :=
    ⟨List.forall_mem_nil _, List.forall_mem_nil _, List.forall_mem_nil _⟩
  have hstarts := fun x => (@Session.registered_seedLog _ x _ _ h).mp
  have hafter := hnew.along hplaced (Session.seeded_path h) rfl
    (fun x hx => built_of_starts (hstarts x hx)) (fun x hx => hS.start x (hstarts x hx))
    fun call hcall => by cases hstarts _ (Session.call_mem_registered.mpr hcall)
  rwa [asked, List.flatMap_nil, List.append_nil]

/-- **One step** from a session within a closed set leads to a session within it. -/
theorem Moves.within (hplaced : p.Placed) (hS : Closed p c H R S) {as : List Asked} {d : Deed}
    {is : List Item} (hm : Moves fe r d r') (hkept : r.session.queues.Kept as is)
    (hsettled : Session.Settled p r.session) (hH : fe.hierarchy r.state = H)
    (hregular : ∀ i es, d = .handed i es → Regular p R i es) (h : Within R S as r.session) :
    Within R S (as ++ d.asks) r'.session := by
  cases hm with
  | @handed l i queues state session hpop hrun =>
    have hr := hregular i _ rfl
    obtain ⟨-, hasked, -⟩ := hkept.next hpop
    obtain ⟨a, ha, rfl⟩ := List.mem_map.mp hasked
    have hi : a.item.node ∈ S := h.asked a (List.mem_filter.mp ha).1
    have hpopped : Within R S as { r.session with queues } := ⟨h.asked, h.instances, h.calls⟩
    exact hpopped.along hplaced (Action.run_path hrun) hsettled.stored.program hr.built
      (fun x hx => hS.registered _ hi x ((hr.registers x).mp hx))
      fun call hcall => ⟨_, hi, (hr.registers _).mp (Session.call_mem_registered.mpr hcall)⟩
  | @resolved ts hpop hts =>
    rw [hH, hsettled.stored.program] at hts
    have hin : ∀ a ∈ r.session.recordAsks ts, a.item.node ∈ S := List.forall_mem_map.mpr
      fun t ht => by
        obtain ⟨call, hcall, i, hi, htarget⟩ := (Hierarchy.mem_targets hts).mp ht
        obtain ⟨m, hm, hcalls⟩ := h.calls call hcall
        exact hS.dispatched m hm call hcalls i (hsettled.instances i hi) (h.instances i hi) t.key
          (Hierarchy.target?_eq_some htarget).1
    refine ⟨List.forall_mem_append.mpr ⟨h.asked, hin⟩,
      h.instances_of (r.session.agenda_record ts) hin, ?_⟩
    rw [(r.session.record_same ts).2]
    exact h.calls

theorem within (hp : p.PlainlyNamed) (hplaced : p.Placed) (hS : Closed p c H R S) {state : σ}
    {s : Session} {n : Nat} (hs : Session.seeded p c = .ok s)
    (hH : Answers fe b { state, session := s } H)
    (hR : Regularly fe b { state, session := s } p R)
    (h : advance fe b n { state, session := s } = .running r) :
    Within R S (asked (Session.seedLog p c) (history fe b n { state, session := s })) r.session := by
  refine invariant (P := fun ds r => Within R S (asked (Session.seedLog p c) ds) r.session)
    (within_seeded hplaced hS hs) (fun hn hr hm => ?_) h
  rw [asked_concat]
  exact hm.within hplaced hS (kept hs hn) (closing hp hplaced hs hR hn).settled (hH _ _ hn)
    (fun i es hd => hR _ _ _ i es hn (hd ▸ hm)) hr

/-! ## Where a run ends -/

/-- Where nothing waits, what has been seen has been handed over. -/
theorem sees_iff {s : Session} {as : List Asked} {is : List Item} (h : s.queues.Kept as is)
    (hitems : ∀ l, (s.queues.get l).items = []) {n : Node} :
    s.Sees n ↔ ∃ i ∈ is, i.node = n := by
  constructor
  · rintro ⟨l, hl, hk⟩
    obtain ⟨i, hi, hik⟩ := List.mem_map.mp ((h.mem_seen_iff (hitems l)).mp hk)
    obtain ⟨his, hil⟩ := List.mem_filter.mp hi
    obtain rfl := of_decide_eq_true hil
    exact ⟨i, his, by rw [Item.node, hl, hik]⟩
  · rintro ⟨i, hi, rfl⟩
    exact ⟨i.work.lane, rfl, (h.mem_seen_iff (hitems _)).mpr (mem_keysIn hi rfl)⟩

/-- Where a round finds no new target, whatever runs has been seen. -/
theorem LastRound.sees_run {s s' : Session} {ts : List Target} (h : LastRound H s s' ts)
    (hs : Session.Settled p s') {call : VirtualCall} (hcall : call ∈ s'.calls) {i : TypeInstance}
    (hi : i ∈ s'.instances) {key : String} (hruns : H.Runs p call i key) :
    s'.Sees ⟨.callable, key⟩ := by
  have hts := h.targets
  rw [hs.stored.program] at hts
  obtain ⟨o, ho⟩ := Hierarchy.exists_target?_of_targets hts call hcall i hi
  obtain ⟨t, rfl, rfl⟩ := hruns.exists_target ho
  rcases h.known t ((Hierarchy.mem_targets hts).mpr ⟨call, hcall, i, hi, ho⟩) with hheld | hseen
  · exact hs.finished .methods t.key hheld
  · exact ⟨.methods, rfl, hseen⟩

/-- **A run hands over the least closed set.**  In a run that ends well, in which the answers about
types and methods stay the same, every item does what its node tells, and calls through one slot at
one receiver hand over the same closures, the nodes handed over are the least set that has what the
program starts with, what its members register, and the methods that calls of its members run on
the types in it. -/
theorem ended_least {state : σ} {s : Session} {n : Nat} (hp : p.PlainlyNamed)
    (hplaced : p.Placed) (hs : Session.seeded p c = .ok s)
    (hH : Answers fe c.maxRounds { state, session := s } H)
    (hR : Regularly fe c.maxRounds { state, session := s } p R)
    (hone : OneClosures (history fe c.maxRounds n { state, session := s }))
    (h : advance fe c.maxRounds n { state, session := s } = .ended (.ok ()) r) :
    IsLeast {S | Closed p c H R S}
      {m | ∃ i ∈ handed (history fe c.maxRounds n { state, session := s }), i.node = m} := by
  obtain ⟨hitems, hkept⟩ := ended_kept hs h
  obtain ⟨n', r', ts, hn', hmove, hhist, hlast⟩ := ended_round hH h
  have hregular : ∀ i es, r'.deed fe = .handed i es → Regular p R i es := fun i es hd =>
    hR _ _ _ i es hn' (hd ▸ hmove)
  have hbefore := closing hp hplaced hs hR hn'
  have hafter : Closing p R (Session.seedLog p c)
      (history fe c.maxRounds n { state, session := s }) r.session := by
    rw [hhist]
    exact hmove.closing hp hplaced (kept hs hn') hregular hbefore
  have hsees := fun m => @sees_iff _ _ _ hkept hitems m
  have hlisted : r.session.agenda.Listed := hmove.listed (listed hs hn')
  refine ⟨⟨fun x hx m hm => ?_, fun m hm x hx k hk => ?_, ?_⟩, fun S hS m hm => ?_⟩
  · refine (hsees m).mp (hafter.seen x ?_ m hm)
    rw [Session.registered_append]
    exact List.mem_append_left _ ((Session.registered_seedLog hs).mpr hx)
  · refine (hsees k).mp (hafter.seen x ?_ k hk)
    rw [Session.registered_append]
    exact List.mem_append_right _ (hafter.registered_of_handed hm hx)
  · intro m hm call hcall i hi hik key hruns
    have hnoted := Session.call_mem_registered.mp (hafter.registered_of_handed hm hcall)
    obtain ⟨d, hd, hslot, hreceiver⟩ := hafter.noted call hnoted
    obtain ⟨j, hj, hjk⟩ := hlisted.mem_seen.mp (sees_type.mp ((hsees _).mpr hik))
    have hrunsd : H.Runs p d j key :=
      hruns.congr hp (hafter.built_of_noted hnoted) (hafter.built_of_noted (hafter.calls d hd))
        hslot.symm hreceiver.symm (hone _ _ hnoted (hafter.calls d hd) hslot.symm hreceiver.symm)
        hi (hafter.settled.instances j hj) hjk.symm
    exact (hsees _).mp (hlast.sees_run hafter.settled hd hj hrunsd)
  · obtain ⟨i, hi, rfl⟩ := hm
    obtain ⟨a, ha, rfl⟩ := List.mem_map.mp (hkept.known i hi)
    have hwithin := hmove.within hplaced hS (kept hs hn') hbefore.settled (hH _ _ hn') hregular
      (within hp hplaced hS hs hH hR hn')
    rw [← asked_concat, ← hhist] at hwithin
    exact hwithin.asked a (List.mem_filter.mp ha).1

end Run

namespace Gallery

/-- What the items of the small program register, by their nodes. -/
def registers (calls : List VirtualCall) (n : Node) : List Registration :=
  if n = ⟨.type, "Main::Circle"⟩ then [.type (.nominal shape ∅)]
  else if n = ⟨.callable, "Main::main"⟩ then
    .type (.nominal circle ∅) :: calls.map .call
  else []

/-- Items of the small program that stand under their keys. -/
def wellKeyed (i : Item) : Bool :=
  match i.work with
  | .type d _ => i.key = if d = shape.id then "Main::Shape" else "Main::Circle"
  | .function .. => i.key = "Main::main"
  | .method _ => i.key ≠ "Main::main"
  | .global _ | .const .. | .lambda .. | .static _ => false

theorem plainlyNamed : program.PlainlyNamed :=
  ⟨by decide +kernel, by decide +kernel⟩

theorem placed : program.Placed := by
  intro d hd
  simp only [program, List.mem_cons, List.not_mem_nil, or_false] at hd
  rcases hd with rfl | rfl <;> rfl

theorem built_nominal {d : TypeDecl} (hd : d ∈ program.types) : (Ty.nominal d ∅).Built program :=
  .nominal hd (List.forall_mem_nil _) (List.forall_mem_nil _)

theorem built_area (closures : List Closure) : (Registration.call (area closures)).Built program :=
  ⟨built_nominal List.mem_cons_self, (by decide +kernel : PlainName "area"),
    List.forall_mem_nil _, List.forall_mem_nil _⟩

theorem built_registers {calls : List VirtualCall}
    (h : ∀ c ∈ calls, (Registration.call c).Built program) {n : Node} {x : Registration}
    (hx : x ∈ registers calls n) : x.Built program := by
  rw [registers] at hx
  split at hx
  · obtain rfl := List.mem_singleton.mp hx
    exact built_nominal List.mem_cons_self
  · split at hx
    · rcases List.mem_cons.mp hx with rfl | hx
      · exact built_nominal (List.mem_cons_of_mem _ List.mem_cons_self)
      · obtain ⟨c, hc, rfl⟩ := List.mem_map.mp hx
        exact h c hc
    · cases hx

/-- Events that register what is listed, and then finish a node and nothing else. -/
inductive FinishesLast (n : Node) : List Registration → List Session.Event → Prop
  | changed {m m' : Assembly} (h : Session.Allowed (· = n) m m') :
      FinishesLast n [] [.changed m m']
  | cons {x : Registration} {xs : List Registration} {e : Session.Event} {es : List Session.Event}
      (hx : e.registration? = some x) (h : FinishesLast n xs es) :
      FinishesLast n (x :: xs) (e :: es)

namespace FinishesLast

variable {n : Node} {xs : List Registration} {es : List Session.Event}

theorem registered_eq (h : FinishesLast n xs es) : Session.registered es = xs := by
  induction h with
  | changed => rfl
  | cons hx _ ih => rw [← ih, Session.registered, Session.registered, List.filterMap_cons_some hx]

theorem allowed (h : FinishesLast n xs es) {m m' : Assembly} (he : .changed m m' ∈ es) :
    Session.Allowed (· = n) m m' := by
  induction h with
  | changed h =>
    obtain ⟨rfl, rfl⟩ := Session.Event.changed.inj (List.mem_singleton.mp he)
    exact h
  | cons hx _ ih =>
    rcases List.mem_cons.mp he with rfl | he
    · cases hx
    · exact ih he

theorem finish (k : String) (st : Unit) (s : Session) :
    FinishesLast ⟨.callable, k⟩ [] ((Gallery.finish k).log st s) :=
  .changed (Session.allowed_insert_primitive ..)

theorem noteAll {next : Action Unit Unit} (h : ∀ st s, FinishesLast n xs (next.log st s))
    (calls : List VirtualCall) (st : Unit) (s : Session) :
    FinishesLast n (calls.map .call ++ xs) ((Gallery.noteAll calls next).log st s) := by
  induction calls generalizing s with
  | nil => exact h st s
  | cons c calls ih => exact .cons rfl (ih _)

theorem intern {t : Ty} {next : Interned → Action Unit Unit} {st st' : Unit} {s s' : Session}
    (h : ∀ x s, FinishesLast n xs ((next x).log st s))
    (hrun : (Action.intern t next).run st s = (.ok (), st', s')) :
    FinishesLast n (.type t :: xs) ((Action.intern t next).log st s) := by
  rw [Action.run] at hrun
  rw [Action.log]
  cases hx : (Session.intern t).run s with
  | error e => simp [hx] at hrun
  | ok y =>
    obtain ⟨x, s₁⟩ := y
    exact .cons rfl (h x s₁)

end FinishesLast

/-- An item that stands under its key does what its node says. -/
theorem finishesLast {calls : List VirtualCall} {i : Item} (hi : wellKeyed i = true)
    {st st' : Unit} {s s' : Session}
    (hrun : ((frontEnd calls).process i).run st s = (.ok (), st', s')) :
    FinishesLast i.node (registers calls i.node) (((frontEnd calls).process i).log st s) := by
  obtain ⟨key, work, filling⟩ := i
  cases work with
  | type d b =>
    obtain rfl : key = if d = shape.id then "Main::Shape" else "Main::Circle" := by
      simpa [wellKeyed] using hi
    change (ite (d = shape.id) _ _ : Action Unit Unit).run st s = _ at hrun
    change FinishesLast _ _ ((ite (d = shape.id) _ _ : Action Unit Unit).log st s)
    by_cases hd : d = shape.id
    · simp only [hd, if_true]
      exact .changed (Session.allowed_insert_concept ..)
    · simp only [hd, if_false] at hrun ⊢
      exact .intern (fun x s => .changed (Session.allowed_insert_entity ..)) hrun
  | function =>
    obtain rfl : key = "Main::main" := by simpa [wellKeyed] using hi
    have hnotes := FinishesLast.noteAll (FinishesLast.finish "Main::main") calls
    rw [List.append_nil] at hnotes
    exact .intern (fun x s => hnotes st s) hrun
  | method =>
    have hkey : key ≠ "Main::main" := by simpa [wellKeyed] using hi
    have hnone : registers calls ⟨.callable, key⟩ = [] := by simp [registers, hkey]
    change FinishesLast ⟨.callable, key⟩ (registers calls ⟨.callable, key⟩) _
    rw [hnone]
    exact .finish key st s
  | global | const | lambda | static => cases hi

/-- A run that hands over items under their keys is regular. -/
theorem regularly {calls : List VirtualCall}
    (hcalls : ∀ c ∈ calls, (Registration.call c).Built program) {b : Option UInt64} {n : Nat}
    {r₀ r : Run Unit} {result : Except Stop Unit}
    (h : Run.advance (frontEnd calls) b n r₀ = .ended result r)
    (hkeyed : ∀ i ∈ Run.handed (Run.history (frontEnd calls) b n r₀), wellKeyed i = true) :
    Run.Regularly (frontEnd calls) b r₀ program fun m x => x ∈ registers calls m := by
  intro m r r' i es hm hmove
  have hi : wellKeyed i = true :=
    hkeyed i (Run.mem_handed.mpr ⟨es, hmove.deed_eq ▸ Run.deed_mem_history hm h⟩)
  cases hmove with
  | handed hpop hrun =>
    have hlast := finishesLast hi hrun
    refine ⟨fun x => by rw [hlast.registered_eq], fun x hx => ?_, fun m m' he => hlast.allowed he⟩
    rw [hlast.registered_eq] at hx
    exact built_registers hcalls hx

/-- The least closed set has the entity, its concept, the function, and the method it calls. -/
theorem gallery_least : ∃ s r, Session.seeded program config = .ok s ∧
    Run.advance (frontEnd [area []]) none 6 { state := (), session := s } = .ended (.ok ()) r ∧
      IsLeast {S | Run.Closed program config hierarchy (fun m x => x ∈ registers [area []] m) S}
        {m | m ∈ ([⟨.type, "Main::Circle"⟩, ⟨.type, "Main::Shape"⟩, ⟨.callable, "Main::main"⟩,
          ⟨.callable, "Main::Circle::area"⟩] : List Node)} := by
  have hend : (Run.ended? (frontEnd [area []]) program config () 6).any
      (fun (e : List Deed × Run Unit) => decide (
        (∀ i ∈ Run.handed e.1, wellKeyed i = true) ∧
        (Run.handed e.1).map Item.node = [⟨.type, "Main::Circle"⟩, ⟨.type, "Main::Shape"⟩,
          ⟨.callable, "Main::main"⟩, ⟨.callable, "Main::Circle::area"⟩] ∧
        (e.1.flatMap Deed.events).filterMap Session.Event.call? = [area []])) = true := by
    decide +kernel
  obtain ⟨e, he, hend⟩ := (Option.any_eq_true _ _).mp hend
  obtain ⟨hkeyed, hnodes, hcalls⟩ := of_decide_eq_true hend
  obtain ⟨s, hs, hrun, hhist⟩ := Run.ended?_eq_some he
  have hone : Run.OneClosures e.1 := by
    have hnoted : ∀ c, .noted c ∈ e.1.flatMap Deed.events → c = area [] := fun c hc =>
      List.mem_singleton.mp (hcalls ▸ List.mem_filterMap.mpr ⟨_, hc, rfl⟩)
    intro c d hc hd _ _
    rw [hnoted c hc, hnoted d hd]
  rw [← hhist] at hkeyed hone
  have hleast := Run.ended_least (H := hierarchy) plainlyNamed placed hs (fun _ _ _ => rfl)
    (regularly (List.forall_mem_singleton.mpr (built_area [])) hrun hkeyed) hone hrun
  refine ⟨s, e.2, hs, hrun, ?_⟩
  rw [← hnodes, ← hhist]
  simpa only [List.mem_map] using hleast

/-- A closure handed to a call. -/
def handler : Closure := ⟨⟨0⟩, "main", {}, "", ∅, ⟨[], .nominal circle ∅⟩⟩

/-- Two calls through one slot at one receiver, the second with a closure. -/
def twice : List VirtualCall := [area [], area [handler]]

/-- Of two calls through one slot at one receiver only the first is resolved: the method that the
second hands its closure to is missing, though all is finished that was handed over, and nothing was
asked for in two lanes. -/
theorem gallery_misses : ∃ s r, program.PlainlyNamed ∧ Session.seeded program config = .ok s ∧
    Run.Answers (frontEnd twice) none { state := (), session := s } hierarchy ∧
    Run.Regularly (frontEnd twice) none { state := (), session := s } program
      (fun m x => x ∈ registers twice m) ∧
    Run.advance (frontEnd twice) none 6 { state := (), session := s } = .ended (.ok ()) r ∧
      let deeds := Run.history (frontEnd twice) none 6 { state := (), session := s }
      let asked := Run.asked (Session.seedLog program config) deeds
      (∀ i ∈ Run.handed deeds, r.session.assembly.isFinished i.work.lane i.key = true) ∧
      (∀ a ∈ asked, ∀ b ∈ asked, a.item.node = b.item.node →
        a.item.work.lane = b.item.work.lane) ∧
      ¬ IsLeast {S | Run.Closed program config hierarchy (fun m x => x ∈ registers twice m) S}
        {m | ∃ i ∈ Run.handed deeds, i.node = m} := by
  have hend : (Run.ended? (frontEnd twice) program config () 6).any
      (fun (e : List Deed × Run Unit) => decide (
        (∀ i ∈ Run.handed e.1, wellKeyed i = true) ∧
        (Run.handed e.1).map Item.node = [⟨.type, "Main::Circle"⟩, ⟨.type, "Main::Shape"⟩,
          ⟨.callable, "Main::main"⟩, ⟨.callable, "Main::Circle::area"⟩] ∧
        (∀ i ∈ Run.handed e.1, e.2.session.assembly.isFinished i.work.lane i.key = true) ∧
        ∀ a ∈ Run.asked (Session.seedLog program config) e.1,
          ∀ b ∈ Run.asked (Session.seedLog program config) e.1,
            a.item.node = b.item.node → a.item.work.lane = b.item.work.lane)) = true := by
    decide +kernel
  obtain ⟨e, he, hend⟩ := (Option.any_eq_true _ _).mp hend
  obtain ⟨hkeyed, hnodes, hfinished, hlanes⟩ := of_decide_eq_true hend
  obtain ⟨s, hs, hrun, hhist⟩ := Run.ended?_eq_some he
  rw [← hhist] at hkeyed hnodes hfinished hlanes
  have hbuilt : ∀ c ∈ twice, (Registration.call c).Built program :=
    List.forall_mem_cons.mpr ⟨built_area [], List.forall_mem_singleton.mpr (built_area [handler])⟩
  refine ⟨s, e.2, plainlyNamed, hs, fun _ _ _ => rfl, regularly hbuilt hrun hkeyed, hrun, hfinished,
    hlanes, fun hleast => ?_⟩
  have hmem : ∀ m : Node, (∃ i ∈ Run.handed (Run.history (frontEnd twice) none 6
      { state := (), session := s }), i.node = m) ↔ m ∈ _ := fun m =>
    hnodes ▸ List.mem_map.symm
  have hmethod : hierarchy.method? (.nominal circle ∅) "area" = .ok (some ⟨circle.id, ∅, ⟨1⟩⟩) :=
    congrArg Except.ok (if_pos (by decide +kernel))
  have hcircle : TypeInstance.Of program ⟨"Main::Circle", circle.id, ∅⟩ :=
    ⟨circle, rfl, by decide +kernel, List.forall_mem_nil _, List.forall_mem_nil _⟩
  have hcall : Registration.call (area [handler]) ∈ registers twice ⟨.callable, "Main::main"⟩ := by
    rw [registers, if_neg (by decide), if_pos rfl]
    exact List.mem_cons_of_mem _ (List.mem_map_of_mem (List.mem_cons_of_mem _ List.mem_cons_self))
  have hmissing := hleast.1.dispatched ⟨.callable, "Main::main"⟩ ((hmem _).mpr (by decide))
    (area [handler]) hcall ⟨"Main::Circle", circle.id, ∅⟩ hcircle ((hmem _).mpr (by decide)) _
    ⟨circle, _, circle, rfl, by decide +kernel, hmethod, rfl, rfl⟩
  exact absurd ((hmem _).mp hmissing) (by decide +kernel)

end Gallery

end Monomorph
