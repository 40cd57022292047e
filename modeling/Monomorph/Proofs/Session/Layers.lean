import Monomorph.Proofs.Session.Stored

/-!
# Session/Layers — a type is stored with all that it is made of

A type found under its key is taken as it is, and nothing of what storing it takes is done.  So
nothing may be stored without what it is made of: each option as a type of its own, the types inside
an option, the concepts of an intersection one by one (`Session.Layered`).  Storing a type built of
the declarations of a program keeps this, never fails, and **answers the copy of the type, whatever
was stored before** (`Session.stores_intern`).
-/

namespace Monomorph

/-- The types that are stored before an option is. -/
def Atom.inner : Atom → List Ty
  | .entity _ => []
  | .concept ps => if 1 < ps.length then ps.map fun q => .single (.concept [q]) else []
  | .tuple es => es.map (·.type)
  | .record es => es.map (·.2.type)
  | .ephemeral ts => ts

namespace Session

/-! ## What is stored -/

/-- The copy of a type is stored under the key of the type. -/
def Holds (s : Session) (t : Ty) : Prop :=
  s.assembly.types.get? t.key = some t.mirror

/-- What is stored are copies of types built, each option of which is stored on its own, with the
types inside. -/
structure Layered (p : Program) (s : Session) : Prop where
  program : s.program = p
  types : ∀ k x, s.assembly.types.get? k = some x → ∃ u : Ty, u.Built p ∧ k = u.key ∧
    x = u.mirror ∧ ∀ a ∈ u.options, ∀ v ∈ Ty.single a :: a.inner, s.Holds v

variable {p : Program} {s s' : Session}

/-- **A type that is stored is stored with all that it is made of.** -/
theorem Layered.inner (hp : p.PlainlyNamed) (h : Layered p s) {t : Ty} (ht : t.Built p)
    (hold : s.Holds t) {a : Atom} (ha : a ∈ t.options) :
    ∀ v ∈ Ty.single a :: a.inner, s.Holds v := by
  obtain ⟨u, hu, hkey, -, hall⟩ := h.types _ _ hold
  obtain rfl := ht.proper.key_inj hp hu.proper hkey
  exact hall a ha

/-- Only the types stored and the program matter. -/
theorem Layered.congr (h : Layered p s) (hprogram : s'.program = s.program)
    (htypes : s'.assembly.types = s.assembly.types) : Layered p s' where
  program := hprogram.trans h.program
  types k x hx := by
    rw [htypes] at hx
    obtain ⟨u, hu, hkey, hmirror, hall⟩ := h.types k x hx
    refine ⟨u, hu, hkey, hmirror, fun a ha v hv => ?_⟩
    rw [Holds, htypes]
    exact hall a ha v hv

theorem Holds.congr {t : Ty} (h : s.Holds t) (htypes : s'.assembly.types = s.assembly.types) :
    s'.Holds t := by
  rwa [Holds, htypes]

/-! ## Changes that store types -/

/-- From a session that holds certain types, a change comes to a certain value and to a session that
holds others besides. -/
def Stores {α : Type} (p : Program) (before : List Ty) (c : Change α) (a : α) (after : List Ty) :
    Prop :=
  ∀ s, Layered p s → (∀ t ∈ before, s.Holds t) → ∃ s', c.run s = .ok (a, s') ∧ Layered p s' ∧
    (∀ t ∈ after, s'.Holds t) ∧ ∀ t, s.Holds t → s'.Holds t

namespace Stores

variable {α β : Type} {c : Change α} {f : α → Change β} {a : α} {b : β}
  {before before' after after' : List Ty}

theorem pure (before : List Ty) (a : α) : Stores p before (Pure.pure a) a [] :=
  fun s hs _ => ⟨s, rfl, hs, List.forall_mem_nil _, fun _ => id⟩

/-- What the types listed are made of is there as well. -/
theorem of_forall (h : Stores p before' c a after)
    (hbefore : ∀ s, Layered p s → (∀ t ∈ before, s.Holds t) → ∀ t ∈ before', s.Holds t) :
    Stores p before c a after :=
  fun s hs hall => h s hs (hbefore s hs hall)

theorem mono (h : Stores p before' c a after) (hbefore : before' ⊆ before) :
    Stores p before c a after :=
  h.of_forall fun _ _ hall t ht => hall t (hbefore ht)

/-- One change after the other: the second may need what the first has stored. -/
theorem bind (hc : Stores p before c a after) (hf : Stores p (before ++ after) (f a) b after') :
    Stores p before (c >>= f) b (after ++ after') := by
  intro s hs hbefore
  obtain ⟨s', hrun, hs', hafter, hgrow⟩ := hc s hs hbefore
  obtain ⟨s'', hrun', hs'', hafter', hgrow'⟩ := hf s' hs' (List.forall_mem_append.mpr
    ⟨fun t ht => hgrow t (hbefore t ht), hafter⟩)
  refine ⟨s'', run_bind_eq_ok.mpr ⟨a, s', hrun, hrun'⟩, hs'', ?_, fun t ht => hgrow' t (hgrow t ht)⟩
  exact List.forall_mem_append.mpr ⟨fun t ht => hgrow' t (hafter t ht), hafter'⟩

/-- Of what has been stored on the way only the last is of use. -/
theorem bind_last (hc : Stores p before c a after)
    (hf : Stores p (before ++ after) (f a) b after') : Stores p before (c >>= f) b after' := by
  intro s hs hbefore
  obtain ⟨s', hrun, hs', hafter, hgrow⟩ := hc.bind hf s hs hbefore
  exact ⟨s', hrun, hs', (List.forall_mem_append.mp hafter).2, hgrow⟩

/-- What is answered is made of what the change comes to. -/
theorem bind_pure (hc : Stores p before c a after) (g : α → β) :
    Stores p before (c >>= fun x => Pure.pure (g x)) (g a) after := by
  have := hc.bind (f := fun x => Pure.pure (g x)) (.pure _ (g a))
  rwa [List.append_nil] at this

/-- The same change made for each part of a list. -/
theorem mapM {g : Part → Change β} {v : Part → β} {w : Part → List Ty} {qs : List Part}
    (h : ∀ q ∈ qs, Stores p [] (g q) (v q) (w q)) :
    Stores p [] (qs.mapM g) (qs.map v) (qs.flatMap w) := by
  induction qs with
  | nil => exact .pure [] []
  | cons q qs ih =>
    obtain ⟨hq, hqs⟩ := List.forall_mem_cons.mp h
    rw [List.mapM_cons]
    exact hq.bind (((ih hqs).bind_pure (v q :: ·)).mono (List.nil_subset _))

end Stores

/-! ## Storing parts and copies -/

theorem stores_internPart (hplaced : p.Placed) {k : TypeKind} {q : Part} (h : q.Built p k) :
    Stores p [] (internPart q) q.key [] := by
  intro s hs _
  refine ⟨_, run_internPart hplaced hs.program h.declared, hs.congr ?_ ?_, List.forall_mem_nil _, fun t ht => ht.congr ?_⟩ <;>
    split <;> rfl

/-- Under a key without a type the copy of a type is stored. -/
theorem get?_store (s : Session) (t : Ty) (k : String) :
    ({ s with assembly.types := s.assembly.types.insertNew t.key t.mirror } :
      Session).assembly.types.get? k =
        (s.assembly.types.get? k).or (if k = t.key then some t.mirror else none) :=
  Table.get?_insertNew ..

/-- **The copy of a type is stored after all that the type is made of.** -/
theorem stores_store (hp : p.PlainlyNamed) {before : List Ty} {t : Ty} (ht : t.Built p)
    (hbefore : ∀ a ∈ t.options, ∀ v ∈ Ty.single a :: a.inner, v = t ∨ v ∈ before) :
    Stores p before (store t.key t.mirror) () [t] := by
  intro s hs hall
  have hgrow : ∀ v, s.Holds v → Session.Holds
      { s with assembly.types := s.assembly.types.insertNew t.key t.mirror } v := fun v hv => by
    rw [Holds, get?_store, show s.assembly.types.get? v.key = _ from hv, Option.some_or]
  have hnow : Session.Holds
      { s with assembly.types := s.assembly.types.insertNew t.key t.mirror } t := by
    rw [Holds, get?_store]
    cases hk : s.assembly.types.get? t.key with
    | none => rw [Option.none_or, if_pos rfl]
    | some x =>
      -- a type stored under the key is the type
      obtain ⟨u, hu, hkey, rfl, -⟩ := hs.types _ _ hk
      obtain rfl := ht.proper.key_inj hp hu.proper hkey
      rfl
  refine ⟨_, rfl, ⟨hs.program, fun k x hx => ?_⟩, List.forall_mem_singleton.mpr hnow, hgrow⟩
  rw [get?_store] at hx
  cases hk : s.assembly.types.get? k with
  | some y =>
    rw [hk, Option.some_or] at hx
    obtain rfl := Option.some.inj hx
    obtain ⟨u, hu, hkey, hmirror, hinner⟩ := hs.types k y hk
    exact ⟨u, hu, hkey, hmirror, fun a ha v hv => hgrow v (hinner a ha v hv)⟩
  | none =>
    rw [hk, Option.none_or] at hx
    split at hx
    case isTrue heq =>
      obtain rfl := Option.some.inj hx
      refine ⟨t, ht, heq, rfl, fun a ha v hv => ?_⟩
      rcases hbefore a ha v hv with rfl | hv
      · exact hnow
      · exact hgrow v (hall v hv)
    case isFalse => cases hx

theorem stores_storeShape (hp : p.PlainlyNamed) {a : Atom} (ha : (Ty.single a).Built p) :
    Stores p a.inner (storeShape a.mirror) a.mirror [Ty.single a] := by
  have hkey : (Ty.single a).key = a.mirror.key := by
    rw [Atom.key_mirror, Ty.key_single]
  have hstore :
      Stores p a.inner (store (Ty.single a).key (Ty.single a).mirror) () [Ty.single a] := by
    refine stores_store hp ha fun b hb v hv => ?_
    obtain rfl := List.mem_singleton.mp hb
    exact List.mem_cons.mp hv
  rw [hkey, ← Ty.mirror_eq_single] at hstore
  exact hstore.bind_pure fun _ => a.mirror

theorem stores_storeUnion (hp : p.PlainlyNamed) {t : Ty} (ht : t.Built p) :
    Stores p (t.options.map Ty.single) (storeUnion (Atom.mirrors t.options)) t.mirror [t] := by
  have hstore : Stores p (t.options.flatMap fun a => Ty.single a :: a.inner)
      (store t.key t.mirror) () [t] := stores_store hp ht fun a ha v hv =>
    .inr (List.mem_flatMap.mpr ⟨a, ha, hv⟩)
  rw [storeUnion, Ty.mirror_eq_ofShapes ht.sorted, Ty.key_mirror]
  refine (hstore.bind_pure fun _ => t.mirror).of_forall fun s hs hall v hv => ?_
  obtain ⟨a, ha, hv⟩ := List.mem_flatMap.mp hv
  exact hs.inner hp (ht.single ha) (hall _ (List.mem_map_of_mem ha)) (List.mem_singleton_self a) v
    hv

/-- **What is found under the key of a type is the copy of the type.** -/
theorem Stores.internUnder (hp : p.PlainlyNamed) {t : Ty} {make : Change Interned} (ht : t.Built p)
    (h : Stores p [] make t.mirror [t]) : Stores p [] (internUnder t.key make) t.mirror [t] := by
  intro s hs hall
  cases hk : s.assembly.types.get? t.key with
  | none =>
    obtain ⟨s', hrun, hs'⟩ := h s hs hall
    exact ⟨s', run_bind_eq_ok.mpr ⟨s, s, rfl, by rw [hk]; exact hrun⟩, hs'⟩
  | some x =>
    obtain ⟨u, hu, hkey, rfl, -⟩ := hs.types _ _ hk
    obtain rfl := ht.proper.key_inj hp hu.proper hkey
    exact ⟨s, run_bind_eq_ok.mpr ⟨s, s, rfl, by rw [hk]; rfl⟩, hs,
      List.forall_mem_singleton.mpr hk, fun _ => id⟩

theorem stores_internConcept (hp : p.PlainlyNamed) (hplaced : p.Placed) {q : Part}
    (h : q.Built p .concept) : Stores p [] (internConcept q) (Ty.single (.concept [q])).mirror
      [Ty.single (.concept [q])] := by
  have hbuilt := Ty.Built.ofPart h
  have hkey : (Ty.single (.concept [q])).key = q.key := by rw [Ty.key_single, Atom.key_concept]
  have hshape : Shape.ofConcepts [q.key] = (Atom.concept [q]).mirror :=
    Atom.mirror_eq_ofConcepts (List.pairwise_singleton _ q)
  rw [internConcept, ← hkey]
  refine .internUnder hp hbuilt ((stores_internPart hplaced h).bind_last ?_)
  rw [hshape]
  exact (stores_storeShape hp hbuilt).bind_last
    ((stores_storeUnion hp hbuilt).mono (List.subset_append_right ..))

/-! ## Storing types -/

mutual

/-- **Of a type built the copy is answered, and stored with all that the type is made of.** -/
theorem stores_intern (hp : p.PlainlyNamed) (hplaced : p.Placed) :
    (t : Ty) → t.Built p → Stores p [] (intern t) t.mirror [t]
  | .union os, ht => by
    have hatoms := stores_internAtoms hp hplaced os fun a ha => ht.single ha
    rw [intern]
    exact .internUnder hp ht (hatoms.bind_last (stores_storeUnion hp ht))

theorem stores_internAtom (hp : p.PlainlyNamed) (hplaced : p.Placed) :
    (a : Atom) → (Ty.single a).Built p → Stores p [] (internAtom a) a.mirror [Ty.single a]
  | .entity q, ha => by
    rw [internAtom]
    exact (stores_internPart hplaced (ha.option List.mem_cons_self).1).bind_last
      (stores_storeShape hp ha)
  | .concept ps, ha => by
    obtain ⟨hsorted, hparts⟩ := (ha.option List.mem_cons_self).1
    -- the parts are asked for after whatever was stored before
    have hall {before : List Ty} (hbefore : (Atom.concept ps).inner ⊆ before) :
        Stores p before (ps.mapM internPart >>= fun ks => storeShape (.ofConcepts ks))
          (Atom.concept ps).mirror [Ty.single (.concept ps)] := by
      refine ((Stores.mapM fun q hq => stores_internPart hplaced (hparts q hq)).mono
        (List.nil_subset _)).bind_last ?_
      rw [Atom.mirror_eq_ofConcepts hsorted]
      exact (stores_storeShape hp ha).mono (List.subset_append_of_subset_left _ hbefore)
    rw [internAtom]
    split
    case isTrue hmany =>
      refine (Stores.mapM fun q hq => stores_internConcept hp hplaced (hparts q hq)).bind_last
        (hall ?_)
      rw [Atom.inner, if_pos hmany, List.map_eq_flatMap]
      exact List.Subset.refl _
    case isFalse hone =>
      refine hall ?_
      rw [Atom.inner, if_neg hone]
      exact List.Subset.refl _
  | .tuple es, ha => by
    have hentries := stores_internSlots hp hplaced es
      (List.forall_mem_map.mp (ha.option List.mem_cons_self).2)
    rw [internAtom]
    refine hentries.bind_last ?_
    rw [Atom.mirror_eq_ofTuple]
    exact stores_storeShape hp ha
  | .record es, ha => by
    obtain ⟨hsorted, htypes⟩ := ha.option List.mem_cons_self
    have hentries := stores_internFields hp hplaced es (List.forall_mem_map.mp htypes)
    rw [internAtom]
    refine hentries.bind_last ?_
    rw [Atom.mirror_eq_ofRecord hsorted]
    exact stores_storeShape hp ha
  | .ephemeral ts, ha => by
    have hentries := stores_internAll hp hplaced ts (ha.option List.mem_cons_self).2
    rw [internAtom]
    refine hentries.bind_last ?_
    rw [Atom.mirror_eq_ofEphemeral]
    exact stores_storeShape hp ha

theorem stores_internAtoms (hp : p.PlainlyNamed) (hplaced : p.Placed) :
    (os : List Atom) → (∀ a ∈ os, (Ty.single a).Built p) →
      Stores p [] (internAtoms os) (Atom.mirrors os) (os.map Ty.single)
  | [], _ => by
    rw [internAtoms]
    exact .pure [] []
  | a :: r, h => by
    obtain ⟨ha, hr⟩ := List.forall_mem_cons.mp h
    rw [internAtoms]
    exact (stores_internAtom hp hplaced a ha).bind
      (((stores_internAtoms hp hplaced r hr).bind_pure _).mono (List.nil_subset _))

theorem stores_internAll (hp : p.PlainlyNamed) (hplaced : p.Placed) :
    (ts : List Ty) → (∀ t ∈ ts, t.Built p) → Stores p [] (internAll ts) (Ty.mirrors ts) ts
  | [], _ => by
    rw [internAll]
    exact .pure [] []
  | t :: r, h => by
    obtain ⟨ht, hr⟩ := List.forall_mem_cons.mp h
    rw [internAll]
    exact (stores_intern hp hplaced t ht).bind
      (((stores_internAll hp hplaced r hr).bind_pure _).mono (List.nil_subset _))

theorem stores_internSlots (hp : p.PlainlyNamed) (hplaced : p.Placed) :
    (es : List (Slot Ty)) → (∀ e ∈ es, e.type.Built p) →
      Stores p [] (internSlots es) (Ty.slotMirrors es) (es.map (·.type))
  | [], _ => by
    rw [internSlots]
    exact .pure [] []
  | ⟨t, o⟩ :: r, h => by
    obtain ⟨ht, hr⟩ := List.forall_mem_cons.mp h
    rw [internSlots]
    exact (stores_intern hp hplaced t ht).bind
      (((stores_internSlots hp hplaced r hr).bind_pure _).mono (List.nil_subset _))

theorem stores_internFields (hp : p.PlainlyNamed) (hplaced : p.Placed) :
    (es : List (String × Slot Ty)) → (∀ e ∈ es, e.2.type.Built p) →
      Stores p [] (internFields es) (Ty.fieldMirrors es) (es.map (·.2.type))
  | [], _ => by
    rw [internFields]
    exact .pure [] []
  | (n, ⟨t, o⟩) :: r, h => by
    obtain ⟨ht, hr⟩ := List.forall_mem_cons.mp h
    rw [internFields]
    exact (stores_intern hp hplaced t ht).bind
      (((stores_internFields hp hplaced r hr).bind_pure _).mono (List.nil_subset _))

end

end Session

end Monomorph
