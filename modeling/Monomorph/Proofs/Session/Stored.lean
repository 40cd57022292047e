import Monomorph.Proofs.Session.Asking
import Monomorph.Proofs.Ty.Mirror
import Monomorph.Proofs.Ty.Nominal

/-!
# Session/Stored — a type stored is the type, and its parts have been asked for

Of types built of the declarations of a program, a session stores copies (`Ty.mirror`): under the key
of the type, with the options in the same order, and every part that the type mentions has been
asked for (`Session.Stored`).  A key is the key of one type, so a type found under its key is not
looked into again, and nothing it mentions is missed (`Session.yields_intern`).
-/

namespace Monomorph

/-! ## What a session stores -/

/-- Every type declaration stands at the place that its id says. -/
def Program.Placed (p : Program) : Prop :=
  ∀ d ∈ p.types, p.type d.id = .ok d

theorem Program.placed_empty : (∅ : Program).Placed :=
  List.forall_mem_nil _

/-- Adding a type puts it in its place, as long as there are ids. -/
theorem Program.Placed.addType {p : Program} (h : p.Placed) (hlength : p.types.length < UInt32.size)
    (d : TypeDecl) : (p.addType d).Placed := by
  intro e he
  rw [Program.type, Program.type?, Program.addType]
  rcases List.mem_append.mp he with he | he
  · have hplace := h e he
    rw [Program.type, Program.type?] at hplace
    cases hget : p.types[e.id.index.toNat]? with
    | none =>
      rw [hget] at hplace
      cases hplace
    | some e' =>
      rw [hget] at hplace
      obtain ⟨hlt, -⟩ := List.getElem?_eq_some_iff.mp hget
      rw [List.getElem?_append_left hlt, hget]
      exact hplace
  · obtain rfl := List.mem_singleton.mp he
    have hindex : (UInt32.ofNat p.types.length).toNat = p.types.length :=
      UInt32.toNat_ofNat_of_lt' hlength
    simp [hindex]

/-- **Types added one after the other stand in their places.** -/
theorem Program.placed_foldl {ds : List TypeDecl} (h : ds.length ≤ UInt32.size) :
    (ds.foldl Program.addType ∅).Placed := by
  suffices ∀ p : Program, p.Placed → p.types.length + ds.length ≤ UInt32.size →
      (ds.foldl Program.addType p).Placed from
    this ∅ placed_empty (show 0 + ds.length ≤ UInt32.size by omega)
  clear h
  induction ds with
  | nil => exact fun p hp _ => hp
  | cons d ds ih =>
    intro p hp hlength
    rw [List.length_cons] at hlength
    refine ih (p.addType d) (hp.addType (by omega) d) ?_
    rw [Program.addType, List.length_append, List.length_singleton]
    omega

namespace Session

/-- The type that a part names has been asked for. -/
def Knows (s : Session) (q : Part) : Prop :=
  q.key ∈ (s.queues.get .types).seen

/-- What is stored are copies of types built, whose parts have been asked for, as has every type
that is declared. -/
structure Stored (p : Program) (s : Session) : Prop where
  program : s.program = p
  declared : ∀ k, s.assembly.hasNominal k = true → k ∈ (s.queues.get .types).seen
  types : ∀ k x, s.assembly.types.get? k = some x →
    ∃ u : Ty, u.Built p ∧ k = u.key ∧ x = u.mirror ∧ ∀ q ∈ u.mentions, s.Knows q

/-- From a session that knows certain parts, a change answers a certain value and leaves a session
that knows others besides. -/
def Yields {α : Type} (p : Program) (before : List Part) (c : Change α) (a : α)
    (after : List Part) : Prop :=
  ∀ s s' x, Stored p s → (∀ q ∈ before, s.Knows q) → c.run s = .ok (x, s') →
    x = a ∧ Stored p s' ∧ (∀ q ∈ after, s'.Knows q) ∧ ∀ q, s.Knows q → s'.Knows q

namespace Yields

variable {α β : Type} {p : Program} {c : Change α} {f : α → Change β} {a : α} {b : β}
  {before before' after after' : List Part}

theorem pure (before : List Part) (a : α) : Yields p before (Pure.pure a) a [] := by
  intro s s' x hs _ h
  obtain ⟨rfl, rfl⟩ := Prod.mk.inj (Except.ok.inj h)
  exact ⟨rfl, hs, List.forall_mem_nil _, fun _ => id⟩

/-- One change after the other: the second may need what the first has come to know. -/
theorem bind (hc : Yields p before c a after) (hf : Yields p before' (f a) b after')
    (hknown : before' ⊆ before ++ after) : Yields p before (c >>= f) b (after ++ after') := by
  intro s s'' y hs hbefore h
  obtain ⟨x, s', hx, hy⟩ := run_bind_eq_ok.mp h
  obtain ⟨rfl, hs', hafter, hgrow⟩ := hc s s' x hs hbefore hx
  have hboth : ∀ q ∈ before', s'.Knows q := fun q hq => by
    rcases List.mem_append.mp (hknown hq) with hq | hq
    · exact hgrow q (hbefore q hq)
    · exact hafter q hq
  obtain ⟨rfl, hs'', hafter', hgrow'⟩ := hf s' s'' y hs' hboth hy
  refine ⟨rfl, hs'', fun q hq => ?_, fun q hq => hgrow' q (hgrow q hq)⟩
  rcases List.mem_append.mp hq with hq | hq
  · exact hgrow' q (hafter q hq)
  · exact hafter' q hq

/-- The second change adds nothing. -/
theorem bind_nil (hc : Yields p before c a after) (hf : Yields p before' (f a) b [])
    (hknown : before' ⊆ before ++ after) : Yields p before (c >>= f) b after := by
  have := hc.bind hf hknown
  rwa [List.append_nil] at this

theorem mono (h : Yields p before c a after) (hbefore : before ⊆ before')
    (hafter : after' ⊆ after) : Yields p before' c a after' := by
  intro s s' x hs hknown hrun
  obtain ⟨hx, hs', hall, hgrow⟩ := h s s' x hs (fun q hq => hknown q (hbefore hq)) hrun
  exact ⟨hx, hs', fun q hq => hall q (hafter hq), hgrow⟩

/-- The same change made for each part of a list. -/
theorem mapM {g : Part → Change β} {v : Part → β} {qs : List Part}
    (h : ∀ q ∈ qs, Yields p [] (g q) (v q) [q]) : Yields p [] (qs.mapM g) (qs.map v) qs := by
  induction qs with
  | nil => exact .pure [] []
  | cons q qs ih =>
    obtain ⟨hq, hqs⟩ := List.forall_mem_cons.mp h
    rw [List.mapM_cons]
    exact hq.bind ((ih hqs).bind_nil (.pure [] _) (List.nil_subset _)) (List.nil_subset _)

end Yields

variable {p : Program}

theorem knows_enqueue {s : Session} {q : Part} (h : s.Knows q) (i : Item) :
    (s.enqueue i).Knows q :=
  Queues.mem_seen_push.mpr (.inr h)

theorem Stored.enqueue {s : Session} (h : Stored p s) (i : Item) : Stored p (s.enqueue i) where
  program := h.program
  declared k hk := Queues.mem_seen_push.mpr (.inr (h.declared k hk))
  types k x hx := by
    obtain ⟨u, hu, hk, hmirror, hknown⟩ := h.types k x hx
    exact ⟨u, hu, hk, hmirror, fun q hq => knows_enqueue (hknown q hq) i⟩

/-- The work that asks for a part of a declaration of the program stands under its key. -/
theorem key_internPart (hplaced : p.Placed) {q : Part} (h : q.From p) :
    (Work.type q.decl.id (Table.ofList q.binds)).key p = .ok q.key := by
  obtain ⟨d, hd, b, rfl⟩ := h
  rw [Work.key]
  change (p.type d.id >>= fun d => Pure.pure (Key.type d (Table.ofList b.entries))) = _
  rw [hplaced d hd, Table.ofList_entries, Part.key_ofDecl]
  rfl

theorem run_internPart (hplaced : p.Placed) {s : Session} (hs : s.program = p) {q : Part}
    (h : q.From p) : (internPart q).run s = .ok (q.key,
      if s.assembly.isFinished .types q.key then s
      else s.enqueue { key := q.key, work := .type q.decl.id (Table.ofList q.binds) }) :=
  request_of_key (hs ▸ key_internPart hplaced h)

/-- A part is asked for under its key. -/
theorem yields_internPart (hplaced : p.Placed) {k : TypeKind} {q : Part} (h : q.Built p k) :
    Yields p [] (internPart q) q.key [q] := by
  intro s s' x hs _ hrun
  obtain ⟨hkey, hs'⟩ := request_eq_ok hrun
  rw [hs.program, key_internPart hplaced h.declared] at hkey
  obtain rfl := Except.ok.inj hkey
  rw [List.forall_mem_singleton]
  split at hs'
  case isTrue hheld =>
    subst hs'
    exact ⟨rfl, hs, hs.declared _ hheld, fun _ => id⟩
  case isFalse =>
    subst hs'
    have hnow : q.key ∈ ((s.queues.push
        ⟨q.key, .type q.decl.id (Table.ofList q.binds), none⟩).get .types).seen :=
      Queues.mem_seen_push.mpr (.inl ⟨rfl, rfl⟩)
    exact ⟨rfl, hs.enqueue _, hnow, fun q hq => knows_enqueue hq _⟩

/-- The copy of a type is stored where its parts are known. -/
theorem yields_store {t : Ty} (ht : t.Built p) :
    Yields p t.mentions (store t.key t.mirror) () [] := by
  intro s s' x hs hknown hrun
  obtain ⟨-, rfl⟩ := Prod.mk.inj (Except.ok.inj hrun)
  refine ⟨rfl, ⟨hs.program, hs.declared, fun k x hx => ?_⟩, List.forall_mem_nil _, fun _ => id⟩
  rw [Table.get?_insertNew] at hx
  cases hk : s.assembly.types.get? k with
  | some y =>
    rw [hk, Option.some_or] at hx
    obtain rfl := Option.some.inj hx
    exact hs.types k y hk
  | none =>
    rw [hk, Option.none_or] at hx
    split at hx
    case isTrue heq =>
      obtain rfl := Option.some.inj hx
      exact ⟨t, ht, heq, rfl, hknown⟩
    case isFalse => cases hx

theorem yields_storeShape {a : Atom} (ha : (Ty.single a).Built p) :
    Yields p a.mentions (storeShape a.mirror) a.mirror [] := by
  have hkey : (Ty.single a).key = a.mirror.key := by rw [Atom.key_mirror, Ty.key_single]
  have hstore := yields_store ha
  rw [hkey, ← Ty.mirror_eq_single, Ty.mentions_single] at hstore
  exact hstore.bind_nil (.pure [] _) (List.nil_subset _)

theorem yields_storeUnion {t : Ty} (ht : t.Built p) :
    Yields p t.mentions (storeUnion (Atom.mirrors t.options)) t.mirror [] := by
  have hstore := yields_store ht
  rw [storeUnion, Ty.mirror_eq_ofShapes ht.sorted, Ty.key_mirror]
  exact hstore.bind_nil (.pure [] _) (List.nil_subset _)

/-- **A key is the key of one type**: what is found under it is the copy of the type. -/
theorem Yields.internUnder (hp : p.PlainlyNamed) {t : Ty} {make : Change Interned}
    (ht : t.Built p) (h : Yields p [] make t.mirror t.mentions) :
    Yields p [] (internUnder t.key make) t.mirror t.mentions := by
  intro s s' x hs hknown hrun
  rcases internUnder_eq_ok hrun with ⟨hx, rfl⟩ | ⟨-, hmake⟩
  · obtain ⟨u, hu, hkey, rfl, hall⟩ := hs.types _ _ hx
    obtain rfl := ht.proper.key_inj hp hu.proper hkey
    exact ⟨rfl, hs, hall, fun _ => id⟩
  · exact h s s' x hs hknown hmake

theorem yields_internConcept (hp : p.PlainlyNamed) (hplaced : p.Placed) {q : Part}
    (h : q.Built p .concept) :
    Yields p [] (internConcept q) (Ty.single (.concept [q])).mirror [q] := by
  have hbuilt := Ty.Built.ofPart h
  have hkey : (Ty.single (.concept [q])).key = q.key := by rw [Ty.key_single, Atom.key_concept]
  have hshape : Shape.ofConcepts [q.key] = (Atom.concept [q]).mirror :=
    Atom.mirror_eq_ofConcepts (List.pairwise_singleton _ q)
  have hmentions : (Ty.single (.concept [q])).mentions = [q] := Ty.mentions_single _
  rw [internConcept, ← hkey, ← hmentions]
  refine .internUnder hp hbuilt ?_
  rw [hmentions]
  refine (yields_internPart hplaced h).bind_nil ?_ (List.Subset.refl _)
  rw [hshape]
  refine (yields_storeShape hbuilt).bind_nil ?_ (List.subset_append_left ..)
  have hunion := yields_storeUnion hbuilt
  rwa [hmentions] at hunion

mutual

/-- **Of a type built the copy is stored, and every part it mentions is asked for.** -/
theorem yields_intern (hp : p.PlainlyNamed) (hplaced : p.Placed) :
    (t : Ty) → t.Built p → Yields p [] (intern t) t.mirror t.mentions
  | .union os, ht => by
    have hatoms := yields_internAtoms hp hplaced os fun a ha => ht.single ha
    have hunion := yields_storeUnion ht
    rw [intern]
    exact .internUnder hp ht (hatoms.bind_nil hunion (List.subset_append_right ..))

theorem yields_internAtom (hp : p.PlainlyNamed) (hplaced : p.Placed) :
    (a : Atom) → (Ty.single a).Built p → Yields p [] (internAtom a) a.mirror a.mentions
  | .entity q, ha => by
    rw [internAtom]
    exact (yields_internPart hplaced (ha.option List.mem_cons_self).1).bind_nil
      (yields_storeShape ha) (List.subset_append_right ..)
  | .concept ps, ha => by
    obtain ⟨hsorted, hparts⟩ := (ha.option List.mem_cons_self).1
    have hall : Yields p [] (ps.mapM internPart >>= fun ks => storeShape (.ofConcepts ks))
        (Atom.concept ps).mirror ps := by
      refine (Yields.mapM fun q hq => yields_internPart hplaced (hparts q hq)).bind_nil ?_
        (List.Subset.refl _)
      rw [Atom.mirror_eq_ofConcepts hsorted]
      exact yields_storeShape ha
    rw [internAtom]
    split
    · exact ((Yields.mapM fun q hq => yields_internConcept hp hplaced (hparts q hq)).bind hall
        (List.nil_subset _)).mono (List.Subset.refl _) (List.subset_append_left ..)
    · exact hall
  | .tuple es, ha => by
    have hentries := yields_internSlots hp hplaced es
      (List.forall_mem_map.mp (ha.option List.mem_cons_self).2)
    rw [internAtom]
    refine hentries.bind_nil ?_ (List.subset_append_right ..)
    rw [Atom.mirror_eq_ofTuple]
    exact yields_storeShape ha
  | .record es, ha => by
    obtain ⟨hsorted, htypes⟩ := ha.option List.mem_cons_self
    have hentries := yields_internFields hp hplaced es (List.forall_mem_map.mp htypes)
    rw [internAtom]
    refine hentries.bind_nil ?_ (List.subset_append_right ..)
    rw [Atom.mirror_eq_ofRecord hsorted]
    exact yields_storeShape ha
  | .ephemeral ts, ha => by
    have hentries := yields_internAll hp hplaced ts (ha.option List.mem_cons_self).2
    rw [internAtom]
    refine hentries.bind_nil ?_ (List.subset_append_right ..)
    rw [Atom.mirror_eq_ofEphemeral]
    exact yields_storeShape ha

theorem yields_internAtoms (hp : p.PlainlyNamed) (hplaced : p.Placed) :
    (os : List Atom) → (∀ a ∈ os, (Ty.single a).Built p) →
      Yields p [] (internAtoms os) (Atom.mirrors os) (Atom.allMentions os)
  | [], _ => by
    rw [internAtoms]
    exact .pure [] []
  | a :: r, h => by
    obtain ⟨ha, hr⟩ := List.forall_mem_cons.mp h
    rw [internAtoms]
    exact (yields_internAtom hp hplaced a ha).bind ((yields_internAtoms hp hplaced r hr).bind_nil
      (.pure [] _) (List.nil_subset _)) (List.nil_subset _)

theorem yields_internAll (hp : p.PlainlyNamed) (hplaced : p.Placed) :
    (ts : List Ty) → (∀ t ∈ ts, t.Built p) →
      Yields p [] (internAll ts) (Ty.mirrors ts) (Ty.allMentions ts)
  | [], _ => by
    rw [internAll]
    exact .pure [] []
  | t :: r, h => by
    obtain ⟨ht, hr⟩ := List.forall_mem_cons.mp h
    rw [internAll]
    exact (yields_intern hp hplaced t ht).bind ((yields_internAll hp hplaced r hr).bind_nil
      (.pure [] _) (List.nil_subset _)) (List.nil_subset _)

theorem yields_internSlots (hp : p.PlainlyNamed) (hplaced : p.Placed) :
    (es : List (Slot Ty)) → (∀ e ∈ es, e.type.Built p) →
      Yields p [] (internSlots es) (Ty.slotMirrors es) (Ty.slotMentions es)
  | [], _ => by
    rw [internSlots]
    exact .pure [] []
  | ⟨t, o⟩ :: r, h => by
    obtain ⟨ht, hr⟩ := List.forall_mem_cons.mp h
    rw [internSlots]
    exact (yields_intern hp hplaced t ht).bind ((yields_internSlots hp hplaced r hr).bind_nil
      (.pure [] _) (List.nil_subset _)) (List.nil_subset _)

theorem yields_internFields (hp : p.PlainlyNamed) (hplaced : p.Placed) :
    (es : List (String × Slot Ty)) → (∀ e ∈ es, e.2.type.Built p) →
      Yields p [] (internFields es) (Ty.fieldMirrors es) (Ty.fieldMentions es)
  | [], _ => by
    rw [internFields]
    exact .pure [] []
  | (n, ⟨t, o⟩) :: r, h => by
    obtain ⟨ht, hr⟩ := List.forall_mem_cons.mp h
    rw [internFields]
    exact (yields_intern hp hplaced t ht).bind ((yields_internFields hp hplaced r hr).bind_nil
      (.pure [] _) (List.nil_subset _)) (List.nil_subset _)

end

/-! ## What storing a type asks for -/

/-- All that is asked for are types that the parts listed name. -/
def Seeks (l : Asking) (qs : List Part) : Prop :=
  ∀ s, ∀ a ∈ l s, ∃ q ∈ qs, a.item.work = .type q.decl.id (Table.ofList q.binds)

namespace Seeks

variable {l l' : Asking} {qs rs : List Part}

theorem nothing (qs : List Part) : Seeks nothing qs := fun _ _ ha => by cases ha

theorem followed {α : Type} (c : Change α) (h : Seeks l qs) (h' : Seeks l' rs) :
    Seeks (followed c l l') (qs ++ rs) := by
  intro s a ha
  rcases List.mem_append.mp ha with ha | ha
  · obtain ⟨q, hq, hwork⟩ := h s a ha
    exact ⟨q, List.mem_append_left _ hq, hwork⟩
  · split at ha
    · obtain ⟨q, hq, hwork⟩ := h' _ a ha
      exact ⟨q, List.mem_append_right _ hq, hwork⟩
    · cases ha

theorem unlessStored (key : String) (h : Seeks l qs) : Seeks (unlessStored key l) qs := by
  intro s a ha
  rw [Session.unlessStored] at ha
  split at ha
  · cases ha
  · exact h s a ha

theorem part (q : Part) : Seeks (partAsks q) [q] := by
  intro s a ha
  rw [partAsks, asks] at ha
  split at ha
  · obtain rfl := List.mem_singleton.mp ha
    exact ⟨q, List.mem_cons_self, rfl⟩
  · cases ha

theorem each {α : Type} {c : Part → Change α} {l : Part → Asking} (h : ∀ q, Seeks (l q) [q])
    (qs : List Part) : Seeks (eachAsks c l qs) qs := by
  induction qs with
  | nil => exact .nothing []
  | cons q qs ih => exact (h q).followed _ ih

/-- What is sought twice is sought. -/
theorem both (h : Seeks l (qs ++ qs)) : Seeks l qs := by
  intro s a ha
  obtain ⟨q, hq, hwork⟩ := h s a ha
  exact ⟨q, (List.mem_append.mp hq).elim id id, hwork⟩

end Seeks

mutual

/-- **Storing a type asks for nothing but what it mentions.** -/
theorem seeks_ty : (t : Ty) → Seeks (tyAsks t) t.mentions
  | .union os => by
    rw [tyAsks]
    exact .unlessStored _ (seeks_atoms os)

theorem seeks_atom : (a : Atom) → Seeks (atomAsks a) a.mentions
  | .entity q => by
    rw [atomAsks]
    exact .part q
  | .concept ps => by
    have hparts : Seeks (eachAsks internPart partAsks ps) ps := .each .part ps
    rw [atomAsks]
    split
    · exact ((Seeks.each (fun q => (Seeks.part q).unlessStored q.key) ps).followed _ hparts).both
    · exact hparts
  | .tuple es => by
    rw [atomAsks]
    exact seeks_slots es
  | .record es => by
    rw [atomAsks]
    exact seeks_fields es
  | .ephemeral ts => by
    rw [atomAsks]
    exact seeks_all ts

theorem seeks_atoms : (os : List Atom) → Seeks (atomsAsk os) (Atom.allMentions os)
  | [] => by
    rw [atomsAsk]
    exact .nothing []
  | a :: r => by
    rw [atomsAsk]
    exact (seeks_atom a).followed _ (seeks_atoms r)

theorem seeks_all : (ts : List Ty) → Seeks (allAsk ts) (Ty.allMentions ts)
  | [] => by
    rw [allAsk]
    exact .nothing []
  | t :: r => by
    rw [allAsk]
    exact (seeks_ty t).followed _ (seeks_all r)

theorem seeks_slots : (es : List (Slot Ty)) → Seeks (slotsAsk es) (Ty.slotMentions es)
  | [] => by
    rw [slotsAsk]
    exact .nothing []
  | ⟨t, o⟩ :: r => by
    rw [slotsAsk]
    exact (seeks_ty t).followed _ (seeks_slots r)

theorem seeks_fields : (es : List (String × Slot Ty)) → Seeks (fieldsAsk es) (Ty.fieldMentions es)
  | [] => by
    rw [fieldsAsk]
    exact .nothing []
  | (n, ⟨t, o⟩) :: r => by
    rw [fieldsAsk]
    exact (seeks_ty t).followed _ (seeks_fields r)

end

end Session

end Monomorph
