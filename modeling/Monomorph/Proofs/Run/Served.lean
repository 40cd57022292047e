import Monomorph.Proofs.Run.History

/-!
# Run/Served — no work is lost, and none is done twice

The keys taken on in a lane are those asked for in it, each where it was asked for first, and of
these the first have been handed to the front end while the others wait (`Queues.Kept`).  A run that
ends well ends with nothing waiting: then all have been handed over, each once and in that order.
-/

namespace Monomorph

/-- The keys of the items of a lane. -/
def keysIn (l : Lane) (is : List Item) : List String :=
  (is.filter fun i => i.work.lane = l).map (·.key)

/-- The items asked for that the assembly did not hold. -/
def openItems (as : List Asked) : List Item :=
  (as.filter fun a => !a.held).map (·.item)

theorem keysIn_append (l : Lane) (is js : List Item) :
    keysIn l (is ++ js) = keysIn l is ++ keysIn l js := by
  rw [keysIn, List.filter_append, List.map_append]
  rfl

theorem keysIn_singleton (l : Lane) (i : Item) :
    keysIn l [i] = if i.work.lane = l then [i.key] else [] := by
  by_cases h : i.work.lane = l <;> simp [keysIn, h]

theorem mem_keysIn {l : Lane} {is : List Item} {i : Item} (hi : i ∈ is) (hl : i.work.lane = l) :
    i.key ∈ keysIn l is :=
  List.mem_map_of_mem (List.mem_filter.mpr ⟨hi, by simpa using hl⟩)

theorem openItems_append (as bs : List Asked) :
    openItems (as ++ bs) = openItems as ++ openItems bs := by
  rw [openItems, List.filter_append, List.map_append]
  rfl

/-- One more at the end counts unless it is there already. -/
theorem eraseDups_concat (ks : List String) (k : String) :
    (ks ++ [k]).eraseDups = if k ∈ ks then ks.eraseDups else ks.eraseDups ++ [k] := by
  rw [List.eraseDups_append]
  by_cases h : k ∈ ks <;> simp [List.removeAll, h, List.eraseDups_cons]

/-! ## What holds between steps -/

namespace Queues

/-- What waits and what was handed over, after certain work was asked for. -/
structure Kept (q : Queues) (asked : List Asked) (handed : List Item) : Prop where
  seen : ∀ l, (q.get l).seen.reverse = (keysIn l (openItems asked)).eraseDups
  served : ∀ l, (q.get l).Served (keysIn l handed)
  waiting : ∀ l, ∀ i ∈ (q.get l).items, i.work.lane = l ∧ i ∈ openItems asked
  known : ∀ i ∈ handed, i ∈ openItems asked

namespace Kept

variable {q q' : Queues} {as : List Asked} {handed : List Item}

theorem empty : ({} : Queues).Kept [] [] where
  seen l := by cases l <;> rfl
  served l := by cases l <;> rfl
  waiting l i hi := by cases l <;> cases hi
  known i hi := by cases hi

theorem push (h : q.Kept as handed) (i : Item) : (q.push i).Kept (as ++ [⟨i, false⟩]) handed where
  seen l := by
    have hopen : keysIn l (openItems (as ++ [⟨i, false⟩])) = keysIn l (openItems as) ++ keysIn l [i] := by
      rw [openItems_append, keysIn_append]
      rfl
    rw [hopen, keysIn_singleton, get_push]
    by_cases hl : i.work.lane = l
    · have hmem : i.key ∈ (q.get l).seen ↔ i.key ∈ keysIn l (openItems as) := by
        rw [← List.mem_reverse, h.seen l, List.mem_eraseDups]
      rw [if_pos hl, if_pos hl.symm, eraseDups_concat, ← h.seen l]
      by_cases hk : i.key ∈ (q.get l).seen
      · rw [if_pos (hmem.mp hk), WorkQueue.push_of_mem hk]
      · rw [if_neg fun hk' => hk (hmem.mpr hk'), WorkQueue.seen_push_of_notMem hk,
          List.reverse_cons]
    · rw [if_neg hl, if_neg fun hl' => hl hl'.symm, List.append_nil, h.seen l]
  served l := by
    rw [get_push]
    split
    · exact (h.served l).push i
    · exact h.served l
  waiting l j hj := by
    have hold : j ∈ (q.get l).items →
        j.work.lane = l ∧ j ∈ openItems (as ++ [⟨i, false⟩]) := fun hj =>
      (h.waiting l j hj).imp_right (openItems_append as _ ▸ List.mem_append_left _)
    rw [get_push] at hj
    split at hj
    case isTrue hl =>
      by_cases hk : i.key ∈ (q.get l).seen
      · rw [WorkQueue.push_of_mem hk] at hj
        exact hold hj
      · rw [WorkQueue.items_push_of_notMem hk, List.mem_append, List.mem_singleton] at hj
        rcases hj with hj | rfl
        · exact hold hj
        · exact ⟨hl.symm, openItems_append as _ ▸ List.mem_append_right _ List.mem_cons_self⟩
    case isFalse => exact hold hj
  known j hj := openItems_append as _ ▸ List.mem_append_left _ (h.known j hj)

/-- What the assembly holds changes nothing. -/
theorem take (g : Agenda) (h : g.queues.Kept as handed) (a : Asked) :
    (g.take a).queues.Kept (as ++ [a]) handed := by
  obtain ⟨i, held⟩ := a
  cases held with
  | true =>
    have hopen : openItems (as ++ [⟨i, true⟩]) = openItems as := by
      rw [openItems_append]
      exact List.append_nil _
    exact ⟨hopen ▸ h.seen, h.served, hopen ▸ h.waiting, hopen ▸ h.known⟩
  | false => exact h.push i

theorem takeAll (g : Agenda) (h : g.queues.Kept as handed) (bs : List Asked) :
    (g.takeAll bs).queues.Kept (as ++ bs) handed := by
  induction bs generalizing g as with
  | nil => rwa [List.append_nil]
  | cons a bs ih =>
    have := ih _ (h.take g a)
    rwa [List.append_assoc] at this

/-- The item popped is one that was asked for, and seen in its lane. -/
theorem next {ls : List Lane} {l : Lane} {i : Item} (h : q.Kept as handed)
    (hpop : q.popFirst? ls = some (l, i, q')) :
    i.work.lane = l ∧ i ∈ openItems as ∧ i.key ∈ (q.get l).seen := by
  obtain ⟨-, w, hw, rfl⟩ := popFirst?_eq_some hpop
  have hi : i ∈ (q.get l).items := by
    rw [(WorkQueue.pop_eq_some hw).1]
    exact List.mem_cons_self
  obtain ⟨hl, hasked⟩ := h.waiting l i hi
  refine ⟨hl, hasked, List.mem_reverse.mp ?_⟩
  rw [h.served l]
  exact List.mem_append_right _ (List.mem_map_of_mem hi)

/-- Whatever lane is looked at first, the item popped is the next of its own. -/
theorem pop {ls : List Lane} {l : Lane} {i : Item} (h : q.Kept as handed)
    (hpop : q.popFirst? ls = some (l, i, q')) : q'.Kept as (handed ++ [i]) := by
  have hseen := seen_popFirst? hpop
  obtain ⟨hl, hi, -⟩ := h.next hpop
  obtain ⟨-, w, hw, rfl⟩ := popFirst?_eq_some hpop
  refine ⟨fun l' => by rw [hseen, h.seen], fun l' => ?_, fun l' j hj => ?_, ?_⟩
  · rw [keysIn_append, keysIn_singleton]
    by_cases hne : l' = l
    · rw [hne, get_set_self, if_pos hl]
      exact (h.served l).pop hw
    · rw [get_set_ne _ _ hne, if_neg fun hl' => hne (hl'.symm.trans hl), List.append_nil]
      exact h.served l'
  · refine h.waiting l' j ?_
    by_cases hne : l' = l
    · rw [hne, get_set_self] at hj
      rw [hne, (WorkQueue.pop_eq_some hw).1]
      exact List.mem_cons_of_mem _ hj
    · rwa [get_set_ne _ _ hne] at hj
  · rw [List.forall_mem_append, List.forall_mem_singleton]
    exact ⟨h.known, hi⟩

/-- Where nothing waits in a lane, the keys taken on in it are those handed over. -/
theorem mem_seen_iff {l : Lane} {k : String} (h : q.Kept as handed)
    (hitems : (q.get l).items = []) : k ∈ (q.get l).seen ↔ k ∈ keysIn l handed := by
  rw [(h.served l).eq_reverse_seen hitems, List.mem_reverse]

end Kept

end Queues

/-! ## Over a whole run -/

namespace Run

variable {σ : Type} {fe : FrontEnd σ} {b : Option UInt64} {r r' : Run σ}

/-- The items handed over in a list of deeds. -/
def handed (ds : List Deed) : List Item :=
  ds.filterMap Deed.item?

/-- The work asked for from the start of a session through a list of deeds. -/
def asked (start : List Session.Event) (ds : List Deed) : List Asked :=
  start.flatMap Session.Event.asks ++ ds.flatMap Deed.asks

theorem asked_concat (start : List Session.Event) (ds : List Deed) (d : Deed) :
    asked start (ds ++ [d]) = asked start ds ++ d.asks := by
  rw [asked, asked, List.flatMap_append, List.flatMap_singleton, List.append_assoc]

theorem handed_concat (ds : List Deed) (d : Deed) :
    handed (ds ++ [d]) = handed ds ++ d.item?.toList := by
  rw [handed, handed, List.filterMap_append]
  cases h : d.item? <;> simp [h]

/-- A session at the start has asked for what it started with. -/
theorem kept_seeded {p : Program} {c : Config} {s : Session} (h : Session.seeded p c = .ok s) :
    s.queues.Kept (asked (Session.seedLog p c) []) [] := by
  have hagenda := (Session.seeded_path h).agenda
  have hkept := Queues.Kept.empty.takeAll (Session.new p c.coreNamespace).agenda
    ((Session.seedLog p c).flatMap Session.Event.asks)
  rw [← hagenda, List.nil_append] at hkept
  rwa [asked, List.flatMap_nil, List.append_nil]

/-- **One step**: what it asks for is taken on, what it hands over was the next to be. -/
theorem Moves.kept {d : Deed} {as : List Asked} {is : List Item} (h : Moves fe r d r')
    (hr : r.session.queues.Kept as is) :
    r'.session.queues.Kept (as ++ d.asks) (is ++ d.item?.toList) := by
  cases h with
  | @handed l i queues state session hpop hrun =>
    have hkept := (hr.pop hpop).takeAll (Session.agenda { r.session with queues })
      (((fe.process i).log r.state { r.session with queues }).flatMap Session.Event.asks)
    rwa [← (Action.run_path hrun).agenda] at hkept
  | @resolved ts hpop hts =>
    have hkept := hr.takeAll r.session.agenda (r.session.recordAsks ts)
    rw [← Session.agenda_record] at hkept
    rwa [show (Deed.resolved _).item?.toList = ([] : List Item) from rfl, List.append_nil]

/-- What a run has asked for and handed over is what its queues show. -/
theorem kept {p : Program} {c : Config} {state : σ} {s : Session} {n : Nat}
    (hs : Session.seeded p c = .ok s) (h : advance fe b n { state, session := s } = .running r) :
    r.session.queues.Kept (asked (Session.seedLog p c) (history fe b n { state, session := s }))
      (handed (history fe b n { state, session := s })) := by
  refine invariant (P := fun ds r => r.session.queues.Kept (asked (Session.seedLog p c) ds)
    (handed ds)) (kept_seeded hs) (fun _ hr hm => ?_) h
  rw [asked_concat, handed_concat]
  exact hm.kept hr

theorem items_of_popFirst? {t : Turn} {q : Queues} (h : q.popFirst? t.lanes = none) (l : Lane) :
    (q.get l).items = [] :=
  Queues.popFirst?_eq_none.mp h l (by cases t <;> cases l <;> decide)

/-- **A run that ends well leaves nothing waiting**, and its queues show all it has done. -/
theorem ended_kept {p : Program} {c : Config} {state : σ} {s : Session} {n : Nat}
    (hs : Session.seeded p c = .ok s)
    (h : advance fe b n { state, session := s } = .ended (.ok ()) r) :
    (∀ l, (r.session.queues.get l).items = []) ∧
      r.session.queues.Kept (asked (Session.seedLog p c) (history fe b n { state, session := s }))
        (handed (history fe b n { state, session := s })) := by
  obtain ⟨m, r', hm, hstep, hhist⟩ := advance_ended h
  obtain ⟨hpop, ts, -, hfresh, hmove, hsession⟩ := step_eq_ended hstep
  constructor
  · have hqueues := congrArg Agenda.queues (Session.of_fresh hfresh).1
    rw [← hsession] at hqueues
    intro l
    rw [show r.session.queues = r'.session.queues from hqueues]
    exact items_of_popFirst? hpop l
  · rw [hhist, asked_concat, handed_concat]
    exact hmove.kept (kept hs hm)

/-- **No work is lost, and none is done twice.**  In a run that ends well every key taken on in a
lane is handed to the front end as work of that lane, once, in the order in which the keys were
first asked for; so whatever was asked for was held by the assembly then, or is handed over once. -/
theorem ended_served {p : Program} {c : Config} {state : σ} {s : Session} {n : Nat}
    (hs : Session.seeded p c = .ok s)
    (h : advance fe c.maxRounds n { state, session := s } = .ended (.ok ()) r) :
    let deeds := history fe c.maxRounds n { state, session := s }
    let asked := asked (Session.seedLog p c) deeds
    (∀ l, (r.session.queues.get l).items = []) ∧
      (∀ l, keysIn l (handed deeds) = (keysIn l (openItems asked)).eraseDups ∧
        (keysIn l (handed deeds)).Nodup) ∧
      ∀ a ∈ asked, a.held = true ∨
        (keysIn a.item.work.lane (handed deeds)).count a.item.key = 1 := by
  intro deeds asked
  obtain ⟨hitems, hkept⟩ := ended_kept hs h
  have hall : ∀ l, keysIn l (handed deeds) = (keysIn l (openItems asked)).eraseDups := fun l => by
    rw [← hkept.seen l]
    exact (hkept.served l).eq_reverse_seen (hitems l)
  refine ⟨hitems, fun l => ⟨hall l, (hkept.served l).nodup⟩, fun a ha => ?_⟩
  rcases hheld : a.held with _ | _
  · refine .inr (List.count_eq_one_of_mem (hkept.served _).nodup ?_)
    rw [hall, List.mem_eraseDups]
    exact mem_keysIn (List.mem_map_of_mem (List.mem_filter.mpr ⟨ha, by simp [hheld]⟩)) rfl
  · exact .inl rfl

end Run

/-- The history of a run that ends well in so many steps, and its end. -/
def Run.ended? {σ : Type} (fe : FrontEnd σ) (p : Program) (c : Config) (state : σ) (n : Nat) :
    Option (List Deed × Run σ) :=
  match Session.seeded p c with
  | .ok s => match advance fe c.maxRounds n { state, session := s } with
    | .ended (.ok ()) r => some (history fe c.maxRounds n { state, session := s }, r)
    | .running _ | .ended (.error _) _ => none
  | .error _ => none

theorem Run.ended?_eq_some {σ : Type} {fe : FrontEnd σ} {p : Program} {c : Config} {state : σ}
    {n : Nat} {e : List Deed × Run σ} (h : ended? fe p c state n = some e) :
    ∃ s, Session.seeded p c = .ok s ∧
      advance fe c.maxRounds n { state, session := s } = .ended (.ok ()) e.2 ∧
      history fe c.maxRounds n { state, session := s } = e.1 := by
  rw [ended?] at h
  cases hs : Session.seeded p c with
  | error f => simp [hs] at h
  | ok s =>
    simp only [hs] at h
    split at h
    case h_1 r hr =>
      obtain rfl := Option.some.inj h
      exact ⟨s, rfl, hr, rfl⟩
    all_goals cases h

/-! ## A small program -/

namespace Gallery

def shape : TypeDecl := ⟨⟨0⟩, "Main", "Shape", .concept, [], [], [], "", {}⟩

def circle : TypeDecl := ⟨⟨1⟩, "Main", "Circle", .entity, [], [⟨0⟩], [], "", {}⟩

/-- A concept, an entity that provides it and has a method, and a function. -/
def program : Program where
  types := [shape, circle]
  invokes := [⟨⟨0⟩, "Main", "main", .function, [], [], ["entrypoint"], "", {}⟩,
    ⟨⟨1⟩, "Main", "area", .method ⟨1⟩, [], [], [], "", {}⟩]

/-- The virtual call of a method, with closures. -/
def area (closures : List Closure) : VirtualCall :=
  ⟨.nominal shape ∅, "area", ∅, closures⟩

def finish (key : String) : Action Unit Unit :=
  .modifyAssembly fun m =>
    { m with primitives := m.primitives.insert key ⟨key, "", "", [], "", {}, [], "", ""⟩ }

/-- The entity is a subtype of everything, and has the method. -/
def hierarchy : Hierarchy where
  isSubtype t u := .ok (t.key = u.key || t.key = "Main::Circle")
  method? t name :=
    .ok (if t.key = "Main::Circle" && name = "area" then some ⟨circle.id, ∅, ⟨1⟩⟩ else none)

/-- Make virtual calls, and then go on. -/
def noteAll : List VirtualCall → Action Unit Unit → Action Unit Unit
  | [], next => next
  | c :: rest, next => .noteCall c fun _ => noteAll rest next

/-- The function makes the entity and the virtual calls listed; nothing else asks for more than the
concept that the entity provides. -/
def frontEnd (calls : List VirtualCall) : FrontEnd Unit where
  process i := match i.work with
    | .type d _ =>
        if d = shape.id then
          .modifyAssembly fun m => { m with
            concepts := m.concepts.insert i.key ⟨i.key, "", "", "", {}, [], ∅, [], ∅⟩ }
        else
          .intern (.nominal shape ∅) fun t => .modifyAssembly fun m => { m with
            entities := m.entities.insert i.key
              ⟨i.key, "", "", "", {}, [], ∅, [t.key], [], ∅⟩ }
    | .function .. => .intern (.nominal circle ∅) fun _ => noteAll calls (finish i.key)
    | .method _ => finish i.key
    | _ => .done ()
  hierarchy _ := hierarchy
  diagnostics _ := []

def config : Config := { coreNamespace := "Main", coreTypes := ["Circle", "Missing"] }

/-- The entity is asked for at the start and by the function, and processed once. -/
theorem gallery_served : ∃ s r, Session.seeded program config = .ok s ∧
    Run.advance (frontEnd [area []]) none 6 { state := (), session := s } = .ended (.ok ()) r ∧
      (∀ l, (r.session.queues.get l).items = []) ∧
      (Run.handed (Run.history (frontEnd [area []]) none 6 { state := (), session := s })).map
        (·.key) = ["Main::Circle", "Main::Shape", "Main::main", "Main::Circle::area"] := by
  have hkeys : ((Run.ended? (frontEnd [area []]) program config () 6).map fun e =>
      (Run.handed e.1).map (·.key))
        = some ["Main::Circle", "Main::Shape", "Main::main", "Main::Circle::area"] := by
    decide +kernel
  obtain ⟨e, he, hkeys⟩ := Option.map_eq_some_iff.mp hkeys
  obtain ⟨s, hs, hrun, hhist⟩ := Run.ended?_eq_some he
  exact ⟨s, e.2, hs, hrun, (Run.ended_served hs hrun).1, hhist ▸ hkeys⟩

end Gallery

end Monomorph
