import Monomorph.Proofs.Session.Events
import Monomorph.Proofs.Session.Stored

/-!
# Session/Settled — what has been registered has been seen

A node is a key together with what it is the key of.  Processing an item registers work, types and
virtual calls; a registration asks for nodes.  In a session that is settled — all the assembly holds
and all the stored types mention has been seen — whatever is registered is seen at once
(`Session.Path.settled`), and no other work is asked for (`Session.Passes.asks_node`).
-/

namespace Monomorph

/-! ## Nodes and registrations -/

/-- What a key is the key of. -/
inductive Kind
  | type
  | constant
  | callable
deriving DecidableEq

/-- What the keys of a lane are keys of. -/
def Lane.kind : Lane → Kind
  | .types => .type
  | .globals | .consts => .constant
  | .functions | .lambdas | .statics | .methods => .callable

/-- A key, and what it is the key of. -/
structure Node where
  kind : Kind
  key : String
deriving DecidableEq

def Item.node (i : Item) : Node :=
  ⟨i.work.lane.kind, i.key⟩

def Part.node (q : Part) : Node :=
  ⟨.type, q.key⟩

/-- What the processing of an item registers. -/
inductive Registration
  | work (w : Work)
  | type (t : Ty)
  | call (c : VirtualCall)

namespace Registration

/-- The nodes a registration asks for. -/
def Asks (p : Program) : Registration → Node → Prop
  | .work w, n => ∃ key, w.key p = .ok key ∧ n = ⟨w.lane.kind, key⟩
  | .type t, n => ∃ q ∈ t.mentions, n = q.node
  | .call _, _ => False

/-- A registration all the types of which are built of the declarations of the program, and the
names of which are plain. -/
def Built (p : Program) : Registration → Prop
  | .work (.type _ binds) => binds.Built p
  | .work _ => True
  | .type t => t.Built p
  | .call c => c.receiver.Built p ∧ PlainName c.name ∧ c.binds.Built p

end Registration

/-- An instance of a declaration of the program, with types built for its parameters. -/
def TypeInstance.Of (p : Program) (i : TypeInstance) : Prop :=
  ∃ d, p.type i.decl = .ok d ∧ i.key = Key.type d i.binds ∧ i.binds.Built p

/-! ## What an agenda has seen -/

namespace Agenda

theorem mem_instances_take {g : Agenda} {a : Asked} {i : TypeInstance}
    (h : i ∈ (g.take a).instances) : i ∈ g.instances ∨
      a.item.key = i.key ∧ a.item.work = .type i.decl i.binds := by
  rw [take] at h
  split at h
  · exact .inl h
  · obtain ⟨⟨key, work, filling⟩, held⟩ := a
    cases work with
    | type decl binds =>
      rw [instances_push] at h
      split at h
      · exact .inl h
      · rcases List.mem_append.mp h with h | h
        · exact .inl h
        · obtain rfl := List.mem_singleton.mp h
          exact .inr ⟨rfl, rfl⟩
    | global | const | function | lambda | static | method => exact .inl h

/-- Every type on record was asked for. -/
theorem mem_instances_takeAll {g : Agenda} {as : List Asked} {i : TypeInstance}
    (h : i ∈ (g.takeAll as).instances) : i ∈ g.instances ∨
      ∃ a ∈ as, a.item.key = i.key ∧ a.item.work = .type i.decl i.binds := by
  induction as generalizing g with
  | nil => exact .inl h
  | cons a as ih =>
    rcases ih h with h | ⟨b, hb, hitem⟩
    · exact (mem_instances_take h).imp_right fun hitem => ⟨a, List.mem_cons_self, hitem⟩
    · exact .inr ⟨b, List.mem_cons_of_mem _ hb, hitem⟩

end Agenda

/-! ## The types on record -/

/-- The types on record are those taken on in the lane of types, in that order. -/
def Agenda.Listed (g : Agenda) : Prop :=
  g.instances.map (·.key) = (g.queues.get .types).seen.reverse

namespace Agenda.Listed

variable {g : Agenda}

theorem push (h : g.Listed) (i : Item) : (g.push i).Listed := by
  obtain ⟨key, work, filling⟩ := i
  cases work with
  | type decl binds =>
    rw [Listed, instances_push]
    change _ = ((g.queues.get .types).push key _).seen.reverse
    by_cases hk : key ∈ (g.queues.get .types).seen
    · rw [if_pos hk, WorkQueue.push_of_mem hk, h]
    · rw [if_neg hk, WorkQueue.seen_push_of_notMem hk, List.map_append, List.reverse_cons, h]
      rfl
  | global | const | function | lambda | static | method => exact h

theorem takeAll (h : g.Listed) (as : List Asked) : (g.takeAll as).Listed := by
  induction as generalizing g with
  | nil => exact h
  | cons a as ih =>
    refine ih ?_
    rw [Agenda.take]
    split
    · exact h
    · exact h.push a.item

/-- Popping leaves on record what is. -/
theorem pop {q : Queues} {ls : List Lane} {l : Lane} {i : Item} (h : g.Listed)
    (hpop : g.queues.popFirst? ls = some (l, i, q)) : (⟨q, g.instances⟩ : Agenda).Listed := by
  exact h.trans (congrArg List.reverse (Queues.seen_popFirst? hpop .types).symm)

/-- What the lane of types has taken on is on record. -/
theorem mem_seen (h : g.Listed) {k : String} :
    k ∈ (g.queues.get .types).seen ↔ ∃ i ∈ g.instances, i.key = k := by
  rw [← List.mem_reverse, ← h, List.mem_map]

/-- Each type on record is there once. -/
theorem nodup (h : g.Listed) : (g.instances.map (·.key)).Nodup := by
  rw [show g.instances.map (·.key) = _ from h]
  exact List.nodup_reverse.mpr (WorkQueue.nodup _)

end Agenda.Listed

/-! ## What a session has seen -/

namespace Session

/-- What an event registers. -/
def Event.registration? : Event → Option Registration
  | .requested w _ => some (.work w)
  | .interned t _ => some (.type t)
  | .noted c => some (.call c)
  | .changed .. | .built _ => none

/-- What the events listed register. -/
def registered (es : List Event) : List Registration :=
  es.filterMap Event.registration?

theorem mem_registered {x : Registration} {es : List Event} :
    x ∈ registered es ↔ ∃ e ∈ es, e.registration? = some x :=
  List.mem_filterMap

theorem call_mem_registered {c : VirtualCall} {es : List Event} :
    .call c ∈ registered es ↔ .noted c ∈ es := by
  rw [mem_registered]
  constructor
  · rintro ⟨e, he, hx⟩
    cases e with
    | noted d =>
      obtain rfl := Registration.call.inj (Option.some.inj hx)
      exact he
    | requested | interned | changed | built => cases hx
  · exact fun h => ⟨_, h, rfl⟩

theorem registered_append (es es' : List Event) :
    registered (es ++ es') = registered es ++ registered es' :=
  List.filterMap_append

/-- A node has been taken on in a lane. -/
def Sees (s : Session) (n : Node) : Prop :=
  ∃ l : Lane, l.kind = n.kind ∧ n.key ∈ (s.queues.get l).seen

theorem sees_type {s : Session} {k : String} :
    s.Sees ⟨.type, k⟩ ↔ k ∈ (s.queues.get .types).seen := by
  constructor
  · rintro ⟨l, hl, hk⟩
    cases l with
    | types => exact hk
    | globals | consts | functions | lambdas | statics | methods => cases hl
  · exact fun hk => ⟨.types, rfl, hk⟩

theorem knows_iff {s : Session} {q : Part} : s.Knows q ↔ s.Sees q.node :=
  sees_type.symm

/-- Popping forgets no node. -/
theorem sees_pop {s : Session} {q : Queues} {ls : List Lane} {l : Lane} {i : Item}
    (hpop : s.queues.popFirst? ls = some (l, i, q)) {n : Node} :
    ({ s with queues := q } : Session).Sees n ↔ s.Sees n := by
  simp only [Sees, Queues.seen_popFirst? hpop]

theorem Stored.pop {p : Program} {s : Session} {q : Queues} {ls : List Lane} {l : Lane} {i : Item}
    (h : Stored p s) (hpop : s.queues.popFirst? ls = some (l, i, q)) :
    Stored p { s with queues := q } := by
  refine ⟨h.program, fun k hk => ?_, fun k x hx => ?_⟩
  · exact sees_type.mp ((sees_pop hpop).mpr (sees_type.mpr (h.declared k hk)))
  · obtain ⟨u, hu, hk, hmirror, hall⟩ := h.types k x hx
    exact ⟨u, hu, hk, hmirror, fun part hpart =>
      knows_iff.mpr ((sees_pop hpop).mpr (knows_iff.mp (hall part hpart)))⟩

/-- The assembly holds nothing, and the types stored mention nothing, that has not been seen. -/
structure Settled (p : Program) (s : Session) : Prop where
  stored : Stored p s
  finished : ∀ l k, s.assembly.isFinished l k = true → s.Sees ⟨l.kind, k⟩
  instances : ∀ i ∈ s.instances, i.Of p

variable {p : Program} {s s' : Session} {e : Event} {es : List Event}

theorem Sees.of_agenda {as : List Asked} {n : Node} (h : s.Sees n)
    (hs : s'.agenda = s.agenda.takeAll as) : s'.Sees n := by
  obtain ⟨l, hl, hk⟩ := h
  have := Agenda.seen_takeAll (g := s.agenda) hk as
  rw [← hs] at this
  exact ⟨l, hl, this⟩

/-- **An event asks for nothing but what is registered.** -/
theorem Passes.asks_node (hplaced : p.Placed) (h : Passes s e s') (hs : s.program = p)
    (hb : ∀ x, e.registration? = some x → x.Built p) {a : Asked} (ha : a ∈ e.asks) :
    ∃ x, e.registration? = some x ∧ x.Asks p a.item.node := by
  obtain ⟨hkey, -, -⟩ := h.asked ha
  rw [hs] at hkey
  cases h with
  | requested h =>
    refine ⟨_, rfl, a.item.key, ?_⟩
    obtain ⟨hw, -⟩ := request_eq_ok h
    rw [Event.asks, asks_eq hw] at ha
    obtain rfl := List.mem_singleton.mp ha
    exact ⟨hkey, rfl⟩
  | @interned s' t x h =>
    obtain ⟨q, hq, hwork⟩ := seeks_ty t _ a ha
    obtain ⟨k, hk⟩ := (hb _ rfl : t.Built p).mentions t q hq
    rw [hwork, key_internPart hplaced hk.declared] at hkey
    refine ⟨_, rfl, q, hq, ?_⟩
    rw [Item.node, hwork, ← Except.ok.inj hkey]
    rfl
  | noted | changed | built => cases ha

/-- The work an event asks for has types built for its parameters. -/
theorem Passes.asks_built (h : Passes s e s') (hb : ∀ x, e.registration? = some x → x.Built p)
    {a : Asked} (ha : a ∈ e.asks) {d : TypeId} {b : Binds} (hwork : a.item.work = .type d b) :
    b.Built p := by
  cases h with
  | requested h =>
    obtain ⟨hw, -⟩ := request_eq_ok h
    rw [Event.asks, asks_eq hw] at ha
    obtain rfl := List.mem_singleton.mp ha
    obtain rfl : _ = Work.type d b := hwork
    exact hb _ rfl
  | @interned s' t x h =>
    obtain ⟨q, hq, hwork'⟩ := seeks_ty t _ a ha
    obtain ⟨k, d', hd', -, b', hb', rfl⟩ := (hb _ rfl : t.Built p).mentions t q hq
    rw [hwork'] at hwork
    obtain ⟨-, rfl⟩ := Work.type.inj hwork
    change Binds.Built p (Table.ofList b'.entries)
    rwa [Table.ofList_entries]
  | noted | changed | built => cases ha

theorem Passes.sees (h : Passes s e s') {n : Node} (hn : s.Sees n) : s'.Sees n :=
  hn.of_agenda h.agenda

theorem Path.sees (h : Path s es s') {n : Node} (hn : s.Sees n) : s'.Sees n :=
  hn.of_agenda h.agenda

/-- What the assembly may be changed to: the types stored stay, and it holds nothing more but what
is allowed. -/
def Allowed (allowed : Node → Prop) (m m' : Assembly) : Prop :=
  m'.types = m.types ∧ ∀ l k, m'.isFinished l k = true →
    m.isFinished l k = true ∨ allowed ⟨l.kind, k⟩

theorem allowed_insert_primitive (m : Assembly) (k : String) (d : Primitive) :
    Allowed (· = ⟨.callable, k⟩) m { m with primitives := m.primitives.insert k d } := by
  refine ⟨rfl, fun l k' h => ?_⟩
  cases l with
  | types | globals | consts => exact .inl h
  | functions | lambdas | statics | methods =>
    grind [Assembly.isFinished, Assembly.hasInvoke, Table.contains_insert, Lane.kind]

theorem allowed_insert_concept (m : Assembly) (k : String) (d : ConceptDecl) :
    Allowed (· = ⟨.type, k⟩) m { m with concepts := m.concepts.insert k d } := by
  refine ⟨rfl, fun l k' h => ?_⟩
  cases l with
  | types => grind [Assembly.isFinished, Assembly.hasNominal, Table.contains_insert, Lane.kind]
  | globals | consts | functions | lambdas | statics | methods => exact .inl h

theorem allowed_insert_entity (m : Assembly) (k : String) (d : EntityDecl) :
    Allowed (· = ⟨.type, k⟩) m { m with entities := m.entities.insert k d } := by
  refine ⟨rfl, fun l k' h => ?_⟩
  cases l with
  | types => grind [Assembly.isFinished, Assembly.hasNominal, Table.contains_insert, Lane.kind]
  | globals | consts | functions | lambdas | statics | methods => exact .inl h

theorem Passes.instances_of (h : Passes s e s') (hs : Settled p s)
    (hb : ∀ x, e.registration? = some x → x.Built p) : ∀ i ∈ s'.instances, i.Of p := by
  intro i hi
  rw [show s'.instances = _ from congrArg Agenda.instances h.agenda] at hi
  rcases Agenda.mem_instances_takeAll hi with hi | ⟨a, ha, hkey, hwork⟩
  · exact hs.instances i hi
  · obtain ⟨ha', -, -⟩ := h.asked ha
    rw [hs.stored.program, hkey, hwork] at ha'
    obtain ⟨d, hd, hk⟩ := bind_eq_ok.mp ha'
    exact ⟨d, hd, (Except.ok.inj hk).symm, h.asks_built hb ha hwork⟩

theorem Passes.finished (h : Passes s e s')
    (hs : ∀ l k, s.assembly.isFinished l k = true → s.Sees ⟨l.kind, k⟩)
    (hc : ∀ m m', e = .changed m m' → Allowed s.Sees m m') (l : Lane) (k : String)
    (hk : s'.assembly.isFinished l k = true) : s'.Sees ⟨l.kind, k⟩ := by
  refine h.sees ?_
  rcases h.assembly with ⟨m, he, hm⟩ | hsame
  · rw [hm] at hk
    exact ((hc _ _ he).2 l k hk).elim (hs l k) id
  · refine hs l k ?_
    rw [hsame] at hk
    cases l <;> exact hk

/-- What is stored are copies of types built, if no other type is stored. -/
theorem Passes.stored (hp : p.PlainlyNamed) (hplaced : p.Placed) (h : Passes s e s')
    (hs : Stored p s) (hfinished : ∀ l k, s'.assembly.isFinished l k = true → s'.Sees ⟨l.kind, k⟩)
    (hb : ∀ t, e.registration? = some (.type t) → t.Built p)
    (hc : ∀ m m', e = .changed m m' → m'.types = m.types) : Stored p s' := by
  cases h with
  | requested h =>
    obtain ⟨-, rfl⟩ := request_eq_ok h
    split
    · exact hs
    · exact hs.enqueue _
  | @interned s' t x h =>
    exact (yields_intern hp hplaced t (hb _ rfl) s s' x hs (List.forall_mem_nil _) h).2.1
  | noted c =>
    rw [noteCall]
    split
    · exact hs
    · exact ⟨hs.program, hs.declared, hs.types⟩
  | changed m =>
    refine ⟨hs.program, fun k hk => sees_type.mp (hfinished .types k hk), fun k x hx => ?_⟩
    have hx : m.types.get? k = some x := hx
    rw [hc _ _ rfl] at hx
    exact hs.types k x hx
  | built => exact ⟨hs.program, hs.declared, hs.types⟩

/-- **What is registered is seen at once.** -/
theorem Passes.sees_asked (hp : p.PlainlyNamed) (hplaced : p.Placed) (h : Passes s e s')
    (hs : Settled p s) {x : Registration} (hx : e.registration? = some x) (hb : x.Built p)
    {n : Node} (hn : x.Asks p n) : s'.Sees n := by
  cases h with
  | @requested s' w k h =>
    obtain rfl := Option.some.inj hx
    obtain ⟨key, hkey, rfl⟩ := hn
    obtain ⟨hk, rfl⟩ := request_eq_ok h
    rw [hs.stored.program, hkey] at hk
    obtain rfl := Except.ok.inj hk
    split
    case isTrue hheld => exact hs.finished _ _ hheld
    case isFalse => exact ⟨w.lane, rfl, Queues.mem_seen_push.mpr (.inl ⟨rfl, rfl⟩)⟩
  | @interned s' t y h =>
    obtain rfl := Option.some.inj hx
    obtain ⟨q, hq, rfl⟩ := hn
    exact sees_type.mpr
      ((yields_intern hp hplaced t hb s s' y hs.stored (List.forall_mem_nil _) h).2.2.1 q hq)
  | noted =>
    obtain rfl := Option.some.inj hx
    exact hn.elim
  | changed | built => cases hx

/-- **Along a path that changes no more than is allowed a session stays settled**, and has seen in
the end all that was registered. -/
theorem Path.settled (hp : p.PlainlyNamed) (hplaced : p.Placed) (h : Path s es s')
    (hs : Settled p s) (hb : ∀ x ∈ registered es, x.Built p)
    (hc : ∀ m m', .changed m m' ∈ es → Allowed s.Sees m m') :
    Settled p s' ∧ ∀ x ∈ registered es, ∀ n, x.Asks p n → s'.Sees n := by
  induction h with
  | nil => exact ⟨hs, List.forall_mem_nil _⟩
  | @cons s s₁ s' e es hpass hrest ih =>
    have hmem : ∀ x, e.registration? = some x →
        x ∈ registered (e :: es) := fun x hx =>
      mem_registered.mpr ⟨e, List.mem_cons_self, hx⟩
    have hbe : ∀ x, e.registration? = some x → x.Built p := fun x hx => hb x (hmem x hx)
    have hce : ∀ m m', e = .changed m m' → Allowed s.Sees m m' := fun m m' he =>
      hc m m' (he ▸ List.mem_cons_self)
    have hfinished := hpass.finished hs.finished hce
    have hs₁ : Settled p s₁ :=
      ⟨hpass.stored hp hplaced hs.stored hfinished (fun t => hbe (.type t)) fun m m' he =>
        (hce m m' he).1, hfinished, hpass.instances_of hs hbe⟩
    have hgrow : ∀ m m', .changed m m' ∈ es → Allowed s₁.Sees m m' := fun m m' he =>
      have hall := hc m m' (List.mem_cons_of_mem _ he)
      ⟨hall.1, fun l k hk => (hall.2 l k hk).imp_right hpass.sees⟩
    have hbs : ∀ x ∈ registered es, x.Built p := fun x hx => by
      obtain ⟨e', he', hx⟩ := mem_registered.mp hx
      exact hb x (mem_registered.mpr ⟨e', List.mem_cons_of_mem _ he', hx⟩)
    obtain ⟨hs', hseen⟩ := ih hs₁ hbs hgrow
    refine ⟨hs', fun x hx n hn => ?_⟩
    obtain ⟨e', he', hx'⟩ := mem_registered.mp hx
    rcases List.mem_cons.mp he' with rfl | he'
    · exact hrest.sees (hpass.sees_asked hp hplaced hs hx' (hbe x hx') hn)
    · exact hseen x (mem_registered.mpr ⟨e', he', hx'⟩) n hn

/-- What a path asks for is registered on it. -/
theorem Path.asks_node (hplaced : p.Placed) (h : Path s es s') (hs : s.program = p)
    (hb : ∀ x ∈ registered es, x.Built p) {a : Asked}
    (ha : a ∈ es.flatMap Event.asks) :
    ∃ x ∈ registered es, x.Asks p a.item.node := by
  induction h with
  | nil => cases ha
  | @cons s s₁ s' e es hpass _ ih =>
    rcases List.mem_append.mp (List.flatMap_cons ▸ ha) with ha | ha
    · obtain ⟨x, hx, hnode⟩ := hpass.asks_node hplaced hs
        (fun x hx => hb x (mem_registered.mpr ⟨e, List.mem_cons_self, hx⟩)) ha
      exact ⟨x, mem_registered.mpr ⟨e, List.mem_cons_self, hx⟩, hnode⟩
    · obtain ⟨x, hx, hnode⟩ := ih (hpass.program.trans hs) (fun x hx => by
        obtain ⟨e', he', hx⟩ := mem_registered.mp hx
        exact hb x (mem_registered.mpr ⟨e', List.mem_cons_of_mem _ he', hx⟩)) ha
      obtain ⟨e', he', hx⟩ := mem_registered.mp hx
      exact ⟨x, mem_registered.mpr ⟨e', List.mem_cons_of_mem _ he', hx⟩, hnode⟩

end Session

end Monomorph
