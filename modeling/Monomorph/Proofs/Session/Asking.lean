import Monomorph.Proofs.Result
import Monomorph.Proofs.Session.Queues
import Monomorph.Session.Intern

/-!
# Session/Asking — what is asked for when a type is stored

The functions here say, along the recursion of `intern`, which work it asks for, in that order.
Together with what waits they say all that storing a type does outside of the table of types
(`Follows`): the program and the virtual calls stay, and what waits is what waited before and the
work asked for that the assembly does not hold.
-/

namespace Monomorph

/-- A piece of work asked for, and whether the assembly held it then. -/
structure Asked where
  item : Item
  held : Bool

/-- What waits, and the nominal types on record. -/
structure Agenda where
  queues : Queues
  instances : List TypeInstance

namespace Agenda

/-- Put an item in its lane, and a new type on record. -/
def push (g : Agenda) (i : Item) : Agenda where
  queues := g.queues.push i
  instances := match i.work with
    | .type decl binds =>
        if (g.queues.get i.work.lane).contains i.key then g.instances
        else g.instances ++ [⟨i.key, decl, binds⟩]
    | _ => g.instances

/-- Take on what is asked for, unless the assembly holds it. -/
def take (g : Agenda) (a : Asked) : Agenda :=
  if a.held then g else g.push a.item

/-- Take on what is asked for, one piece after the other. -/
def takeAll (g : Agenda) (as : List Asked) : Agenda :=
  as.foldl take g

theorem instances_push (g : Agenda) (key : String) (decl : TypeId) (binds : Binds)
    (filling : Option Filling) : (g.push ⟨key, .type decl binds, filling⟩).instances =
      if key ∈ (g.queues.get .types).seen then g.instances
      else g.instances ++ [⟨key, decl, binds⟩] := by
  change (if (g.queues.get .types).contains key = true then _ else _) = _
  simp only [WorkQueue.contains_iff]

/-- Types on record stay on record. -/
theorem instances_take (g : Agenda) (a : Asked) : g.instances <+: (g.take a).instances := by
  rw [take]
  split
  · exact List.prefix_rfl
  · rw [push]
    split
    · split
      · exact List.prefix_rfl
      · exact List.prefix_append ..
    · exact List.prefix_rfl

theorem instances_takeAll (g : Agenda) (as : List Asked) :
    g.instances <+: (g.takeAll as).instances := by
  induction as generalizing g with
  | nil => exact List.prefix_rfl
  | cons a as ih => exact (g.instances_take a).trans (ih _)

theorem seen_take {g : Agenda} {l : Lane} {k : String} (h : k ∈ (g.queues.get l).seen)
    (a : Asked) : k ∈ ((g.take a).queues.get l).seen := by
  rw [take]
  split
  · exact h
  · exact Queues.mem_seen_push.mpr (.inr h)

/-- A key once seen is seen for good. -/
theorem seen_takeAll {g : Agenda} {l : Lane} {k : String} (h : k ∈ (g.queues.get l).seen)
    (as : List Asked) : k ∈ ((g.takeAll as).queues.get l).seen := by
  induction as generalizing g with
  | nil => exact h
  | cons a as ih => exact ih (seen_take h a)

theorem takeAll_append (g : Agenda) (as bs : List Asked) :
    g.takeAll (as ++ bs) = (g.takeAll as).takeAll bs :=
  List.foldl_append

end Agenda

namespace Session

def agenda (s : Session) : Agenda :=
  ⟨s.queues, s.instances⟩

/-! ## What a change asks for -/

/-- What is asked for from a session, in that order. -/
abbrev Asking := Session → List Asked

/-- Nothing. -/
def nothing : Asking := fun _ => []

/-- A piece of work. -/
def asks (w : Work) : Asking := fun s =>
  match w.key s.program with
  | .ok key => [⟨{ key, work := w }, s.assembly.isFinished w.lane key⟩]
  | .error _ => []

/-- What a change asks for, and then what is asked for after it. -/
def followed {α : Type} (c : Change α) (first rest : Asking) : Asking := fun s =>
  first s ++ match c.run s with
    | .ok (_, s') => rest s'
    | .error _ => []

/-- Nothing if a type is stored under the key. -/
def unlessStored (key : String) (rest : Asking) : Asking := fun s =>
  match s.assembly.types.get? key with
  | some _ => []
  | none => rest s

/-- What a change made for each element of a list asks for. -/
def eachAsks {α β : Type} (c : α → Change β) (l : α → Asking) : List α → Asking
  | [] => nothing
  | a :: r => followed (c a) (l a) (eachAsks c l r)

def partAsks (p : Part) : Asking :=
  asks (.type p.decl.id (Table.ofList p.binds))

def conceptAsks (p : Part) : Asking :=
  unlessStored p.key (partAsks p)

mutual

/-- What storing a type asks for. -/
def tyAsks : Ty → Asking
  | .union os => unlessStored (Ty.key (.union os)) (atomsAsk os)

def atomAsks : Atom → Asking
  | .entity p => partAsks p
  | .concept ps =>
      if 1 < ps.length then
        followed (ps.mapM internConcept) (eachAsks internConcept conceptAsks ps)
          (eachAsks internPart partAsks ps)
      else eachAsks internPart partAsks ps
  | .tuple es => slotsAsk es
  | .record es => fieldsAsk es
  | .ephemeral ts => allAsk ts

def atomsAsk : List Atom → Asking
  | [] => nothing
  | a :: r => followed (internAtom a) (atomAsks a) (atomsAsk r)

def allAsk : List Ty → Asking
  | [] => nothing
  | t :: r => followed (intern t) (tyAsks t) (allAsk r)

def slotsAsk : List (Slot Ty) → Asking
  | [] => nothing
  | ⟨t, _⟩ :: r => followed (intern t) (tyAsks t) (slotsAsk r)

def fieldsAsk : List (String × Slot Ty) → Asking
  | [] => nothing
  | (_, ⟨t, _⟩) :: r => followed (intern t) (tyAsks t) (fieldsAsk r)

end

/-! ## What storing a type does -/

/-- What is asked for is work under its own key, and whether the assembly holds it is known. -/
structure Right (s : Session) (a : Asked) : Prop where
  key : a.item.work.key s.program = .ok a.item.key
  held : a.held = s.assembly.isFinished a.item.work.lane a.item.key
  filling : a.item.filling = none

/-- Nothing was done but work asked for and types stored. -/
structure Follows (s : Session) (as : List Asked) (s' : Session) : Prop where
  program : s'.program = s.program
  calls : s'.calls = s.calls
  agenda : s'.agenda = s.agenda.takeAll as
  assembly : s'.assembly = { s.assembly with types := s'.assembly.types }
  right : ∀ a ∈ as, s.Right a

namespace Follows

variable {s s' s'' : Session} {as bs : List Asked}

theorem refl (s : Session) : Follows s [] s := ⟨rfl, rfl, rfl, rfl, nofun⟩

theorem isFinished (h : Follows s as s') (l : Lane) (k : String) :
    s'.assembly.isFinished l k = s.assembly.isFinished l k := by
  rw [h.assembly]
  cases l <;> rfl

theorem trans (h : Follows s as s') (h' : Follows s' bs s'') : Follows s (as ++ bs) s'' where
  program := h'.program.trans h.program
  calls := h'.calls.trans h.calls
  agenda := by rw [h'.agenda, h.agenda, Agenda.takeAll_append]
  assembly := by rw [h'.assembly, h.assembly]
  right a ha := by
    rcases List.mem_append.mp ha with ha | ha
    · exact h.right a ha
    · obtain ⟨hkey, hheld, hfilling⟩ := h'.right a ha
      exact ⟨h.program ▸ hkey, hheld.trans (h.isFinished _ _), hfilling⟩

end Follows

theorem run_bind_eq_ok {α β : Type} {c : Change α} {f : α → Change β} {b : β} {s s'' : Session} :
    (c >>= f).run s = .ok (b, s'') ↔
      ∃ a s', c.run s = .ok (a, s') ∧ (f a).run s' = .ok (b, s'') := by
  rw [StateT.run_bind, bind_eq_ok, Prod.exists]

/-- A change that stores types, and asks for the work listed and no other. -/
def Logs {α : Type} (c : Change α) (l : Asking) : Prop :=
  ∀ (s s' : Session) (a : α), c.run s = .ok (a, s') → Follows s (l s) s'

namespace Logs

variable {α β : Type} {c : Change α} {f : α → Change β} {l l' : Asking}

theorem pure (a : α) : Logs (Pure.pure a) nothing := by
  intro s s' b h
  obtain ⟨rfl, rfl⟩ := Prod.mk.inj (Except.ok.inj h)
  exact .refl _

theorem bind (h : Logs c l) (h' : ∀ a, Logs (f a) l') : Logs (c >>= f) (followed c l l') := by
  intro s s'' b hrun
  obtain ⟨a, s', hc, hf⟩ := run_bind_eq_ok.mp hrun
  rw [followed, hc]
  exact (h s s' a hc).trans (h' a s' s'' b hf)

/-- What comes after asks for nothing. -/
theorem bind_nothing (h : Logs c l) (h' : ∀ a, Logs (f a) nothing) : Logs (c >>= f) l := by
  intro s s'' b hrun
  obtain ⟨a, s', hc, hf⟩ := run_bind_eq_ok.mp hrun
  simpa [nothing] using (h s s' a hc).trans (h' a s' s'' b hf)

theorem mapM {g : α → Change β} {l : α → Asking} (h : ∀ a, Logs (g a) (l a)) (as : List α) :
    Logs (as.mapM g) (eachAsks g l as) := by
  induction as with
  | nil => exact .pure []
  | cons a r ih =>
    rw [List.mapM_cons]
    exact (h a).bind fun b => ih.bind_nothing fun bs => .pure _

end Logs

/-- What a session answers to a request. -/
theorem request_eq_ok {w : Work} {k : String} {s s' : Session} (h : s.request w = .ok (k, s')) :
    w.key s.program = .ok k ∧
      s' = if s.assembly.isFinished w.lane k then s else s.enqueue { key := k, work := w } := by
  rw [request] at h
  cases hk : w.key s.program with
  | error e =>
    rw [hk] at h
    cases h
  | ok key =>
    rw [hk] at h
    obtain ⟨rfl, rfl⟩ := Prod.mk.inj (Except.ok.inj h)
    exact ⟨rfl, rfl⟩

theorem request_of_key {w : Work} {k : String} {s : Session} (h : w.key s.program = .ok k) :
    s.request w = .ok (k, if s.assembly.isFinished w.lane k then s
      else s.enqueue { key := k, work := w }) := by
  rw [request, h]
  rfl

theorem asks_eq {w : Work} {k : String} {s : Session} (h : w.key s.program = .ok k) :
    asks w s = [⟨{ key := k, work := w }, s.assembly.isFinished w.lane k⟩] := by
  rw [asks, h]

theorem logs_request (w : Work) : Logs (fun s => s.request w) (asks w) := by
  intro s s' k h
  obtain ⟨hk, rfl⟩ := request_eq_ok h
  rw [asks_eq hk]
  have hright : ∀ a ∈ [(⟨⟨k, w, none⟩, s.assembly.isFinished w.lane k⟩ : Asked)], s.Right a :=
    List.forall_mem_singleton.mpr ⟨hk, rfl, rfl⟩
  cases hheld : s.assembly.isFinished w.lane k <;>
    exact ⟨rfl, rfl, rfl, rfl, hheld ▸ hright⟩

theorem logs_store (key : String) (t : Interned) : Logs (store key t) nothing := by
  intro s s' a h
  obtain ⟨-, rfl⟩ := Prod.mk.inj (Except.ok.inj h)
  exact ⟨rfl, rfl, rfl, rfl, nofun⟩

theorem logs_storeShape (o : Shape) : Logs (storeShape o) nothing :=
  (logs_store _ _).bind_nothing fun _ => .pure o

theorem logs_storeUnion (os : List Shape) : Logs (storeUnion os) nothing :=
  (logs_store _ _).bind_nothing fun _ => .pure _

theorem internUnder_eq_ok {key : String} {make : Change Interned} {x : Interned}
    {s s' : Session} (h : (internUnder key make).run s = .ok (x, s')) :
    (s.assembly.types.get? key = some x ∧ s' = s) ∨
      s.assembly.types.get? key = none ∧ make.run s = .ok (x, s') := by
  rw [internUnder] at h
  obtain ⟨_, _, hget, h⟩ := run_bind_eq_ok.mp h
  obtain ⟨rfl, rfl⟩ := Prod.mk.inj (Except.ok.inj hget)
  cases hk : s.assembly.types.get? key with
  | none =>
    rw [hk] at h
    exact .inr ⟨rfl, h⟩
  | some t =>
    rw [hk] at h
    obtain ⟨rfl, rfl⟩ := Prod.mk.inj (Except.ok.inj h)
    exact .inl ⟨rfl, rfl⟩

theorem Logs.internUnder {key : String} {make : Change Interned} {l : Asking} (h : Logs make l) :
    Logs (internUnder key make) (unlessStored key l) := by
  intro s s' x hrun
  rcases internUnder_eq_ok hrun with ⟨hk, rfl⟩ | ⟨hk, hmake⟩
  · rw [unlessStored, hk]
    exact .refl _
  · rw [unlessStored, hk]
    exact h s s' x hmake

theorem logs_internPart (p : Part) : Logs (internPart p) (partAsks p) :=
  logs_request _

theorem logs_internConcept (p : Part) : Logs (internConcept p) (conceptAsks p) :=
  .internUnder <| (logs_internPart p).bind_nothing fun _ =>
    (logs_storeShape _).bind_nothing fun _ => logs_storeUnion _

mutual

/-- **Storing a type asks for the work listed and stores types, and does nothing else.** -/
theorem logs_intern : (t : Ty) → Logs (intern t) (tyAsks t)
  | .union os => by
    rw [intern, tyAsks]
    exact .internUnder ((logs_internAtoms os).bind_nothing logs_storeUnion)

theorem logs_internAtom : (a : Atom) → Logs (internAtom a) (atomAsks a)
  | .entity p => by
    rw [internAtom, atomAsks]
    exact (logs_internPart p).bind_nothing fun _ => logs_storeShape _
  | .concept ps => by
    have hparts := (Logs.mapM logs_internPart ps).bind_nothing fun ks =>
      logs_storeShape (.ofConcepts ks)
    rw [internAtom, atomAsks]
    split
    · exact (Logs.mapM logs_internConcept ps).bind fun _ => hparts
    · exact hparts
  | .tuple es => by
    rw [internAtom, atomAsks]
    exact (logs_internSlots es).bind_nothing fun _ => logs_storeShape _
  | .record es => by
    rw [internAtom, atomAsks]
    exact (logs_internFields es).bind_nothing fun _ => logs_storeShape _
  | .ephemeral ts => by
    rw [internAtom, atomAsks]
    exact (logs_internAll ts).bind_nothing fun _ => logs_storeShape _

theorem logs_internAtoms : (os : List Atom) → Logs (internAtoms os) (atomsAsk os)
  | [] => by
    rw [internAtoms, atomsAsk]
    exact .pure []
  | a :: r => by
    rw [internAtoms, atomsAsk]
    exact (logs_internAtom a).bind fun _ => (logs_internAtoms r).bind_nothing fun _ => .pure _

theorem logs_internAll : (ts : List Ty) → Logs (internAll ts) (allAsk ts)
  | [] => by
    rw [internAll, allAsk]
    exact .pure []
  | t :: r => by
    rw [internAll, allAsk]
    exact (logs_intern t).bind fun _ => (logs_internAll r).bind_nothing fun _ => .pure _

theorem logs_internSlots : (es : List (Slot Ty)) → Logs (internSlots es) (slotsAsk es)
  | [] => by
    rw [internSlots, slotsAsk]
    exact .pure []
  | ⟨t, o⟩ :: r => by
    rw [internSlots, slotsAsk]
    exact (logs_intern t).bind fun _ => (logs_internSlots r).bind_nothing fun _ => .pure _

theorem logs_internFields : (es : List (String × Slot Ty)) → Logs (internFields es) (fieldsAsk es)
  | [] => by
    rw [internFields, fieldsAsk]
    exact .pure []
  | (n, ⟨t, o⟩) :: r => by
    rw [internFields, fieldsAsk]
    exact (logs_intern t).bind fun _ => (logs_internFields r).bind_nothing fun _ => .pure _

end

end Session

end Monomorph
