import Monomorph.Proofs.Session.Layers
import Monomorph.Proofs.Session.Settled

/-!
# Session/Registry — the table of types between any two registrations

A session is reached by registrations, in any order and of whatever work, by taking work off a
queue, and by entering in the assembly what has been seen (`Session.Reached`).  In every such session
**the types stored are closed under what they are made of, and what they name is on record**
(`Session.Registry`): so a type found under its key needs no more work.  Which work waits and what
else is stored never shows in what is answered for a type (`Session.Reached.registry`).
-/

namespace Monomorph

namespace Shape

/-- The keys of the declared types that an option names. -/
def parts : Shape → List String
  | .entity k => [k]
  | .concept ks _ => ks
  | .tuple .. | .record .. | .ephemeral .. => []

/-- The types directly inside an option. -/
def types : Shape → List Interned
  | .entity _ | .concept .. => []
  | .tuple es _ => es.map (·.type)
  | .record es _ => es.map (·.2.type)
  | .ephemeral ts _ => ts

end Shape

/-! ## The copy of an option -/

theorem Ty.options_mirror (t : Ty) : t.mirror.options = t.options.map Atom.mirror := by
  cases t
  exact Atom.mirrors_eq_map _

/-- What is inside the copy of an option is stored before the option is. -/
theorem Atom.types_mirror {a : Atom} {x : Interned} (h : x ∈ a.mirror.types) :
    ∃ t ∈ a.inner, x = t.mirror := by
  cases a with
  | entity | concept => cases h
  | tuple es =>
    rw [mirror, Ty.slotMirrors_eq_map, Shape.types, List.map_map] at h
    obtain ⟨e, he, rfl⟩ := List.mem_map.mp h
    exact ⟨e.type, List.mem_map_of_mem he, rfl⟩
  | record es =>
    rw [mirror, Ty.fieldMirrors_eq_map, Shape.types, List.map_map] at h
    obtain ⟨e, he, rfl⟩ := List.mem_map.mp h
    exact ⟨e.2.type, List.mem_map_of_mem he, rfl⟩
  | ephemeral ts =>
    rw [mirror, Ty.mirrors_eq_map, Shape.types] at h
    obtain ⟨t, ht, rfl⟩ := List.mem_map.mp h
    exact ⟨t, ht, rfl⟩

/-- The keys that the copy of an option names are those of its parts. -/
theorem Atom.parts_mirror {a : Atom} {k : String} (h : k ∈ a.mirror.parts) :
    ∃ q ∈ a.mentions, q.key = k := by
  cases a with
  | entity q => exact ⟨q, List.mem_singleton_self q, (List.mem_singleton.mp h).symm⟩
  | concept qs =>
    rw [mirror, Part.keys_eq_map] at h
    exact List.mem_map.mp h
  | tuple | record | ephemeral => cases h

/-- The concepts of an intersection are stored one by one. -/
theorem Atom.components_mirror {a : Atom} {k : String} (hmany : 1 < a.mirror.parts.length)
    (h : k ∈ a.mirror.parts) :
    ∃ t ∈ a.inner, t.key = k ∧ t.mirror = .single (.ofConcepts [k]) := by
  cases a with
  | entity | tuple | record | ephemeral => simp [mirror, Shape.parts] at hmany
  | concept qs =>
    rw [mirror, Part.keys_eq_map, Shape.parts] at hmany h
    rw [List.length_map] at hmany
    obtain ⟨q, hq, rfl⟩ := List.mem_map.mp h
    refine ⟨.single (.concept [q]), ?_, ?_, ?_⟩
    · rw [inner, if_pos hmany]
      exact List.mem_map_of_mem hq
    · rw [Ty.key_single, Atom.key_concept]
    · rw [← Ty.mirror_eq_single, ← Atom.mirror_eq_ofConcepts (List.pairwise_singleton _ q)]
      rfl

theorem Ty.mem_mentions {t : Ty} {a : Atom} {q : Part} (ha : a ∈ t.options) (hq : q ∈ a.mentions) :
    q ∈ t.mentions := by
  obtain ⟨os⟩ := t
  rw [mentions]
  induction os with
  | nil => cases ha
  | cons b os ih =>
    rw [Atom.allMentions, List.mem_append]
    rcases List.mem_cons.mp ha with rfl | ha
    · exact .inl hq
    · exact .inr (ih ha)

namespace Session

/-! ## The table of types -/

/-- **What the table of types is at any time.** -/
structure Registry (s : Session) : Prop where
  /-- A type stands under its own key. -/
  key : ∀ k x, s.assembly.types.get? k = some x → x.key = k
  /-- Each option is stored as a type of its own. -/
  option : ∀ k x, s.assembly.types.get? k = some x → ∀ o ∈ x.options,
    s.assembly.types.get? o.key = some (.single o)
  /-- So is each type of an entry. -/
  entry : ∀ k x, s.assembly.types.get? k = some x → ∀ o ∈ x.options, ∀ y ∈ o.types,
    s.assembly.types.get? y.key = some y
  /-- The types that the options name are on record. -/
  part : ∀ k x, s.assembly.types.get? k = some x → ∀ o ∈ x.options, ∀ c ∈ o.parts,
    ∃ i ∈ s.instances, i.key = c
  /-- The concepts of an intersection are stored one by one. -/
  component : ∀ k x, s.assembly.types.get? k = some x → ∀ o ∈ x.options, 1 < o.parts.length →
    ∀ c ∈ o.parts, s.assembly.types.get? c = some (.single (.ofConcepts [c]))
  /-- Each type is on record once. -/
  once : (s.instances.map (·.key)).Nodup

variable {p : Program} {s s' : Session}

/-- A table of copies, stored with all they are made of, is in order. -/
theorem Layered.registry_of_listed (hp : p.PlainlyNamed) (hlayered : Layered p s)
    (hstored : Stored p s) (hlisted : s.agenda.Listed) : s.Registry := by
  -- what is stored is the copy of a type built, with all that the type is made of and mentions
  have hcopy : ∀ k x, s.assembly.types.get? k = some x → ∃ u : Ty, x.key = k ∧
      x.options = u.options.map Atom.mirror ∧ (∀ q ∈ u.mentions, s.Knows q) ∧
      ∀ a ∈ u.options, ∀ v ∈ Ty.single a :: a.inner, s.Holds v := by
    intro k x hx
    obtain ⟨u, hu, rfl, rfl, hknown⟩ := hstored.types k x hx
    exact ⟨u, u.key_mirror, u.options_mirror, hknown, fun a ha => hlayered.inner hp hu hx ha⟩
  refine ⟨fun k x hx => ?_, fun k x hx o ho => ?_, fun k x hx o ho y hy => ?_,
    fun k x hx o ho c hc => ?_, fun k x hx o ho hmany c hc => ?_, hlisted.nodup⟩ <;>
    obtain ⟨u, hkey, hoptions, hknown, hinner⟩ := hcopy k x hx
  case refine_1 => exact hkey
  all_goals
    rw [hoptions] at ho
    obtain ⟨a, ha, rfl⟩ := List.mem_map.mp ho
    obtain ⟨hself, hinner⟩ := List.forall_mem_cons.mp (hinner a ha)
  case refine_2 =>
    rw [Atom.key_mirror, ← Ty.key_single, Ty.mirror_eq_single]
    exact hself
  case refine_3 =>
    obtain ⟨t, ht, rfl⟩ := Atom.types_mirror hy
    rw [Ty.key_mirror]
    exact hinner t ht
  case refine_4 =>
    obtain ⟨q, hq, rfl⟩ := Atom.parts_mirror hc
    exact hlisted.mem_seen.mp (hknown q (Ty.mem_mentions ha hq))
  case refine_5 =>
    obtain ⟨t, ht, hkey, hmirror⟩ := Atom.components_mirror hmany hc
    rw [← hmirror, ← hkey]
    exact hinner t ht

/-! ## The sessions reached -/

/-- **The sessions that registrations lead to**: of work and calls of any kind, and of types built
of the declarations of the program.  Work may be taken off a queue in between, and the assembly may
come to hold what has been seen; types are stored by registrations only. -/
inductive Reached (p : Program) (core : String) : Session → Prop
  | new : Reached p core (.new p core)
  | event {s s' : Session} {e : Event} (h : Reached p core s) (hpass : Passes s e s')
      (hbuilt : ∀ t, e.registration? = some (.type t) → t.Built p)
      (hchange : ∀ m m', e = .changed m m' → Allowed s.Sees m m') : Reached p core s'
  | pop {s : Session} {ls : List Lane} {l : Lane} {i : Item} {queues : Queues}
      (h : Reached p core s) (hpop : s.queues.popFirst? ls = some (l, i, queues)) :
      Reached p core { s with queues }

theorem Passes.layered {e : Event} (hp : p.PlainlyNamed) (hplaced : p.Placed) (h : Passes s e s')
    (hs : Layered p s) (hb : ∀ t, e.registration? = some (.type t) → t.Built p)
    (hc : ∀ m m', e = .changed m m' → m'.types = m.types) : Layered p s' := by
  have hprogram := h.program
  cases h with
  | requested h =>
    have hsame := (logs_request _ s s' _ h).assembly
    obtain ⟨-, rfl⟩ := request_eq_ok h
    refine hs.congr hprogram ?_
    split <;> rfl
  | @interned s' t x h =>
    obtain ⟨s'', hrun, hlayered, -⟩ := stores_intern hp hplaced t (hb _ rfl) s hs
      (List.forall_mem_nil _)
    obtain ⟨-, rfl⟩ := Prod.mk.inj (Except.ok.inj (hrun.symm.trans h))
    exact hlayered
  | noted c =>
    refine hs.congr hprogram ?_
    rw [noteCall]
    split <;> rfl
  | changed m => exact hs.congr rfl (hc _ _ rfl)
  | built => exact hs.congr rfl rfl

/-- What every session reached keeps. -/
structure Keeps (p : Program) (s : Session) : Prop where
  stored : Stored p s
  layered : Layered p s
  finished : ∀ l k, s.assembly.isFinished l k = true → s.Sees ⟨l.kind, k⟩
  listed : s.agenda.Listed

theorem Reached.keeps {core : String} (hp : p.PlainlyNamed) (hplaced : p.Placed)
    (h : Reached p core s) : Keeps p s := by
  induction h with
  | new =>
    refine ⟨⟨rfl, fun k hk => ?_, fun k x hx => ?_⟩, ⟨rfl, fun k x hx => ?_⟩, fun l k hk => ?_, rfl⟩
    · cases hk
    · cases hx
    · cases hx
    · cases l <;> cases hk
  | @event s s' e _ hpass hbuilt hchange ih =>
    have hfinished := hpass.finished ih.finished hchange
    have htypes : ∀ m m', e = .changed m m' → m'.types = m.types := fun m m' he =>
      (hchange m m' he).1
    refine ⟨hpass.stored hp hplaced ih.stored hfinished hbuilt htypes,
      hpass.layered hp hplaced ih.layered hbuilt htypes, hfinished, ?_⟩
    rw [hpass.agenda]
    exact ih.listed.takeAll _
  | pop _ hpop ih =>
    exact ⟨ih.stored.pop hpop, ih.layered.congr rfl rfl,
      fun l k hk => (sees_pop hpop).mpr (ih.finished l k hk), ih.listed.pop hpop⟩

/-- **The table of types is in order in every session reached**, and what is answered for a type is
the copy of the type: under the same key, with the copies of its options, in any session. -/
theorem Reached.registry {core : String} (hp : p.PlainlyNamed) (hplaced : p.Placed)
    (h : Reached p core s) : s.Registry ∧ ∀ t : Ty, t.Built p →
      (∃ s', (intern t).run s = .ok (t.mirror, s')) ∧ t.mirror.key = t.key ∧
        t.mirror.options = t.options.map Atom.mirror := by
  have hkeeps := h.keeps hp hplaced
  refine ⟨hkeeps.layered.registry_of_listed hp hkeeps.stored hkeeps.listed, fun t ht => ?_⟩
  obtain ⟨s', hrun, -⟩ := stores_intern hp hplaced t ht s hkeeps.layered (List.forall_mem_nil _)
  exact ⟨⟨s', hrun⟩, t.key_mirror, t.options_mirror⟩

end Session

theorem Program.placed_shelf : Program.shelf.Placed := fun d hd => by
  simp only [Program.shelf, List.mem_cons, List.not_mem_nil, or_false] at hd
  rcases hd with rfl | rfl | rfl <;> rfl

/-- What is of both concepts, where it may be left out. -/
def Program.both : Ty :=
  .tuple [⟨.concept [.mk ⟨⟨0⟩, "Core", "Any"⟩ [], .mk ⟨⟨1⟩, "Core", "Some"⟩ []], true⟩]

/-- A tuple is stored with the intersection inside it, and that with both of its concepts. -/
theorem Session.both_registered : ∃ s, Session.Reached Program.shelf "Core" s ∧ s.Registry ∧
    s.assembly.types.keys =
      ["Core::Any", "Core::Any & Core::Some", "Core::Some", "[?:Core::Any & Core::Some]"] := by
  have hp : Program.shelf.PlainlyNamed := ⟨by decide +kernel, by decide +kernel⟩
  have hplaced := Program.placed_shelf
  have hbuilt : Program.both.Built Program.shelf := by
    refine .tuple (List.forall_mem_singleton.mpr ?_)
    exact @Ty.Built.concept Program.shelf ((Program.shelf.types.take 2).map (·, ∅)) (by decide)
      (by decide) (List.forall_mem_map.mpr fun _ _ => List.forall_mem_nil _)
      (List.forall_mem_map.mpr fun _ _ => List.forall_mem_nil _)
  -- the empty session is reached, so the tuple is answered; so the session after is reached
  obtain ⟨⟨s, hrun⟩, -⟩ := (Session.Reached.registry hp hplaced .new).2 Program.both hbuilt
  have hreached : Session.Reached Program.shelf "Core" s :=
    .event .new (.interned hrun) (fun t ht => by cases ht; exact hbuilt) nofun
  refine ⟨s, hreached, (hreached.registry hp hplaced).1, ?_⟩
  have hkeys : ((Session.intern Program.both).run (.new Program.shelf "Core")).map
      (fun r => r.2.assembly.types.keys) = .ok ["Core::Any", "Core::Any & Core::Some", "Core::Some",
        "[?:Core::Any & Core::Some]"] := by
    decide +kernel
  rw [hrun] at hkeys
  exact Except.ok.inj hkeys

end Monomorph
