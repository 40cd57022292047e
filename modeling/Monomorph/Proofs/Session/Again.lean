import Monomorph.Proofs.Session.Registry
import Monomorph.Proofs.Ty.Made

/-!
# Session/Again — a registration made again changes nothing

Whatever is registered leaves its mark: work is under way or finished, a call is written down, and a
type stands under its key.  The last is the delicate one.  Storing a type stores all that is inside
it first, and might thereby put something else under the key of the type, which is then never
replaced; but **what is stored on the way has shorter keys**, an only option aside, which is stored
as the type itself (`Session.leaves_intern`).  No mark is ever lost (`Session.Leads.keeps`), so **a
registration made again, at once or later, is answered as before and leaves the session as it is**
(`Session.Leads.registered_again`).
-/

namespace Monomorph

namespace Registration

/-- What is answered to a registration. -/
inductive Answer
  | key (k : String)
  | type (x : Interned)

/-- Register work of any kind, a type or a virtual call, and do no more. -/
def action {σ : Type} : Registration → Action σ Answer
  | .work w => .request w fun k => .done (.key k)
  | .type t => .intern t fun x => .done (.type x)
  | .call c => .noteCall c fun k => .done (.key k)

/-- A registration of what this program declares, under whatever names: ids are those of its
declarations, so that work has a key, and types are made of its declarations.  Calls are of any
receiver, since nothing is looked up when they are written down. -/
def Made (p : Program) : Registration → Prop
  | .work w => ∃ k, w.key p = .ok k
  | .type t => t.Made p
  | .call _ => True

end Registration

namespace Session

/-! ## What storing a type leaves behind -/

/-- The type stored under a key. -/
def typeAt (s : Session) (k : String) : Option Interned :=
  s.assembly.types.get? k

/-- On this program, with every type under its own key. -/
structure Filed (p : Program) (s : Session) : Prop where
  program : s.program = p
  key : ∀ k x, s.typeAt k = some x → x.key = k

/-- Types stored stay, and new ones are stored under keys shorter than that. -/
structure Grown (n : Nat) (s s' : Session) : Prop where
  kept : ∀ k x, s.typeAt k = some x → s'.typeAt k = some x
  free : ∀ k, n ≤ k.length → s.typeAt k = none → s'.typeAt k = none

namespace Grown

variable {n m : Nat} {s s' s'' : Session}

theorem refl (n : Nat) (s : Session) : Grown n s s :=
  ⟨fun _ _ => id, fun _ _ => id⟩

theorem trans (h : Grown n s s') (h' : Grown n s' s'') : Grown n s s'' :=
  ⟨fun k x hx => h'.kept k x (h.kept k x hx), fun k hk hx => h'.free k hk (h.free k hk hx)⟩

theorem mono (h : Grown n s s') (hnm : n ≤ m) : Grown m s s' :=
  ⟨h.kept, fun k hk => h.free k (Nat.le_trans hnm hk)⟩

end Grown

/-- A change comes to a result as described, and stores types under keys shorter than that. -/
def Leaves {α : Type} (p : Program) (n : Nat) (c : Change α)
    (described : Session → α → Session → Prop) : Prop :=
  ∀ s, Filed p s → ∃ x s', c.run s = .ok (x, s') ∧ Filed p s' ∧ Grown n s s' ∧ described s x s'

/-- The type that the result stands for has a key, and is stored under it if nothing was. -/
def Files {α : Type} (type : α → Interned) (k : String) (s : Session) (x : α) (s' : Session) :
    Prop :=
  (type x).key = k ∧ (s.typeAt k = none → s'.typeAt k = some (type x))

/-- The result is the type that is stored under a key. -/
def Holding (k : String) (_ : Session) (x : Interned) (s' : Session) : Prop :=
  x.key = k ∧ s'.typeAt k = some x

namespace Leaves

variable {α β : Type} {p : Program} {n m : Nat} {k : String} {c : Change α} {f : α → Change β}
  {described described' : Session → α → Session → Prop} {fits : α → Prop} {fits' : β → Prop}

theorem mono (h : Leaves p n c described) (hnm : n ≤ m)
    (himp : ∀ s x s', described s x s' → described' s x s') : Leaves p m c described' := by
  intro s hs
  obtain ⟨x, s', hrun, hs', hgrown, hx⟩ := h s hs
  exact ⟨x, s', hrun, hs', hgrown.mono hnm, himp s x s' hx⟩

theorem pure {a : α} (h : fits a) : Leaves p n (Pure.pure a) fun _ x _ => fits x :=
  fun s hs => ⟨a, s, rfl, hs, .refl n s, h⟩

/-- One change after the other, where the second needs to know no more than the first result. -/
theorem bind (hc : Leaves p n c fun _ x _ => fits x)
    (hf : ∀ x, fits x → Leaves p n (f x) fun _ y _ => fits' y) :
    Leaves p n (c >>= f) fun _ y _ => fits' y := by
  intro s hs
  obtain ⟨x, s₁, hrun, hs₁, hgrown, hx⟩ := hc s hs
  obtain ⟨y, s₂, hrun', hs₂, hgrown', hy⟩ := hf x hx s₁ hs₁
  exact ⟨y, s₂, run_bind_eq_ok.mpr ⟨x, s₁, hrun, hrun'⟩, hs₂, hgrown.trans hgrown', hy⟩

/-- **A key stays free while shorter ones are taken.** -/
theorem bind_files {type : β → Interned} (hc : Leaves p n c fun _ x _ => fits x)
    (hn : n ≤ k.length) (hf : ∀ x, fits x → Leaves p (k.length + 1) (f x) (Files type k)) :
    Leaves p (k.length + 1) (c >>= f) (Files type k) := by
  intro s hs
  obtain ⟨x, s₁, hrun, hs₁, hgrown, hx⟩ := hc s hs
  obtain ⟨y, s₂, hrun', hs₂, hgrown', hkey, hy⟩ := hf x hx s₁ hs₁
  exact ⟨y, s₂, run_bind_eq_ok.mpr ⟨x, s₁, hrun, hrun'⟩, hs₂,
    (hgrown.mono (Nat.le_succ_of_le hn)).trans hgrown', hkey, fun h => hy (hgrown.free k hn h)⟩

/-- The same change made for each part of a list. -/
theorem mapM (key : β → String) {g : Part → Change β} {qs : List Part}
    (h : ∀ q ∈ qs, Leaves p n (g q) fun _ y _ => key y = q.key) :
    Leaves p n (qs.mapM g) fun _ ys _ => ys.map key = qs.map Part.key := by
  induction qs with
  | nil => exact .pure rfl
  | cons q qs ih =>
    obtain ⟨hq, hqs⟩ := List.forall_mem_cons.mp h
    rw [List.mapM_cons]
    refine hq.bind fun y hy => (ih hqs).bind fun ys hys => .pure ?_
    rw [List.map_cons, List.map_cons, hy, hys]

end Leaves

variable {p : Program}

theorem leaves_store {t : Interned} {k : String} (ht : t.key = k) :
    Leaves p (k.length + 1) (store k t) fun s _ s' => s.typeAt k = none → s'.typeAt k = some t := by
  intro s hs
  have hat : ∀ l, typeAt { s with assembly.types := s.assembly.types.insertNew k t } l =
      (s.typeAt l).or (if l = k then some t else none) := Table.get?_insertNew s.assembly.types k t
  refine ⟨(), _, rfl, ⟨hs.program, fun l x hx => ?_⟩, ⟨fun l x hx => ?_, fun l hl hx => ?_⟩,
    fun hx => ?_⟩
  · rw [hat] at hx
    cases hl : s.typeAt l with
    | some y =>
      rw [hl, Option.some_or] at hx
      exact Option.some.inj hx ▸ hs.key l y hl
    | none =>
      rw [hl, Option.none_or] at hx
      split at hx
      case isTrue heq => exact Option.some.inj hx ▸ ht.trans heq.symm
      case isFalse => cases hx
  · rw [hat, hx, Option.some_or]
  · rw [hat, hx, Option.none_or, if_neg]
    exact fun heq => absurd hl (heq ▸ Nat.not_succ_le_self _)
  · rw [hat, hx, Option.none_or, if_pos rfl]

theorem key_singleShape (o : Shape) : (Interned.single o).key = o.key :=
  String.intercalate_singleton (s := " | ")

theorem leaves_storeShape {o : Shape} {k : String} (h : o.key = k) :
    Leaves p (k.length + 1) (storeShape o) (Files .single k) := by
  subst h
  intro s hs
  obtain ⟨⟨⟩, s', hrun, hs', hgrown, hstored⟩ := leaves_store (key_singleShape o) s hs
  exact ⟨o, s', run_bind_eq_ok.mpr ⟨_, s', hrun, rfl⟩, hs', hgrown, key_singleShape o, hstored⟩

theorem leaves_storeUnion {os : List Shape} {k : String} (h : (Interned.ofShapes os).key = k) :
    Leaves p (k.length + 1) (storeUnion os) (Files id k) := by
  subst h
  intro s hs
  obtain ⟨⟨⟩, s', hrun, hs', hgrown, hstored⟩ := leaves_store rfl s hs
  exact ⟨_, s', run_bind_eq_ok.mpr ⟨_, s', hrun, rfl⟩, hs', hgrown, rfl, hstored⟩

/-- An only option is stored as the type itself. -/
theorem Leaves.alone {c : Change Shape} {k : String}
    (h : Leaves p (k.length + 1) c (Files .single k)) :
    Leaves p (k.length + 1) (c >>= fun o => storeUnion [o]) (Files id k) := by
  intro s hs
  obtain ⟨o, s₁, hrun, hs₁, hgrown, hkey, ho⟩ := h s hs
  obtain ⟨x, s₂, hrun', hs₂, hgrown', hkey', -⟩ := leaves_storeUnion (p := p) hkey s₁ hs₁
  obtain ⟨_, _, _, hx⟩ := run_bind_eq_ok.mp hrun'
  obtain ⟨rfl, -⟩ := Prod.mk.inj (Except.ok.inj hx)
  exact ⟨_, s₂, run_bind_eq_ok.mpr ⟨o, s₁, hrun, hrun'⟩, hs₂, hgrown.trans hgrown', hkey',
    fun hnone => hgrown'.kept k _ (ho hnone)⟩

theorem internUnder_of_typeAt {s : Session} {k : String} {make : Change Interned} {x : Interned}
    (h : s.typeAt k = some x) : (internUnder k make).run s = .ok (x, s) :=
  run_bind_eq_ok.mpr ⟨s, s, rfl, by rw [show s.assembly.types.get? k = _ from h]; rfl⟩

theorem intern_of_typeAt {s : Session} {t : Ty} {x : Interned} (h : s.typeAt t.key = some x) :
    (intern t).run s = .ok (x, s) := by
  obtain ⟨os⟩ := t
  rw [intern]
  exact internUnder_of_typeAt h

/-- **What is answered for a key stands under the key.** -/
theorem Leaves.internUnder {k : String} {make : Change Interned}
    (h : Leaves p (k.length + 1) make (Files id k)) :
    Leaves p (k.length + 1) (internUnder k make) (Holding k) := by
  intro s hs
  cases hk : s.typeAt k with
  | some x =>
    exact ⟨x, s, internUnder_of_typeAt hk, hs, .refl _ s, hs.key k x hk, hk⟩
  | none =>
    obtain ⟨x, s', hrun, hs', hgrown, hkey, hx⟩ := h s hs
    exact ⟨x, s', run_bind_eq_ok.mpr
      ⟨s, s, rfl, by rw [show s.assembly.types.get? k = _ from hk]; exact hrun⟩,
      hs', hgrown, hkey, hx hk⟩

/-! ## Parts -/

theorem leaves_internPart (hplaced : p.Placed) {q : Part} (h : q.From p) :
    Leaves p 0 (internPart q) fun _ k _ => k = q.key := by
  intro s hs
  refine ⟨_, _, run_internPart hplaced hs.program h, ?_, ?_, rfl⟩ <;> split
  · exact hs
  · exact ⟨hs.program, hs.key⟩
  · exact .refl 0 s
  · exact ⟨fun _ _ => id, fun _ _ => id⟩

theorem key_ofConcepts {qs : List Part} (h : qs.Pairwise fun a b => a.key < b.key)
    {ks : List String} (hks : ks = qs.map Part.key) :
    (Shape.ofConcepts ks).key = (Atom.concept qs).key := by
  rw [hks, Atom.mirror_eq_ofConcepts h, Atom.key_mirror]

theorem leaves_internConcept (hplaced : p.Placed) {q : Part} (h : q.From p) :
    Leaves p (q.key.length + 1) (internConcept q) (Holding q.key) := by
  have hkey : ∀ k, k = q.key → (Shape.ofConcepts [k]).key = q.key := fun k hk => by
    rw [key_ofConcepts (List.pairwise_singleton _ q) (congrArg ([·]) hk), Atom.key_concept]
  refine .internUnder ((leaves_internPart hplaced h).bind_files (Nat.zero_le _) fun k hk => ?_)
  exact (leaves_storeShape (hkey k hk)).alone

/-! ## Keys of what is answered -/

theorem key_ofShapes {t : Ty} (h : t.options.Pairwise fun a b => a.key < b.key)
    {xs : List Shape} (hxs : xs.map Shape.key = t.options.map Atom.key) :
    (Interned.ofShapes xs).key = t.key := by
  obtain ⟨os⟩ := t
  have hsorted : xs.Pairwise fun x y => x.key < y.key := by
    rw [← List.pairwise_map, hxs, List.pairwise_map]
    exact h
  rw [Interned.ofShapes, Listing.distinctBy_eq_self hsorted, Interned.key, hxs, Ty.key,
    Atom.keys_eq_map, Ty.options]

/-- The text of an entry that is stored. -/
def slotText (x : Slot Interned) : String :=
  optionalMark x.optional "?:" ++ x.type.key

theorem key_ofTuple {es : List (Slot Ty)} {xs : List (Slot Interned)}
    (h : xs.map slotText = es.map Slot.text) :
    (Shape.ofTuple xs).key = (Atom.tuple es).key := by
  rw [Atom.key, Ty.slotKeys_eq_map, ← h]
  rfl

/-- The text of a field that is stored. -/
def shownField (x : String × Slot Interned) : String :=
  x.1 ++ optionalMark x.2.optional "?" ++ ":" ++ x.2.type.key

theorem key_ofRecord {es : List (String × Slot Ty)} (hsorted : es.Pairwise fun a b => ¬ b.1 < a.1)
    {xs : List (String × Slot Interned)}
    (h : xs.map (fun x => (x.1, shownField x)) = es.map fun e => (e.1, fieldText e)) :
    (Shape.ofRecord xs).key = (Atom.record es).key := by
  have hnames : xs.map (·.1) = es.map (·.1) := by
    simpa [Function.comp_def] using congrArg (List.map (·.1)) h
  have htexts : xs.map shownField = es.map fieldText := by
    simpa [Function.comp_def] using congrArg (List.map (·.2)) h
  have hxs : xs.Pairwise fun x y => ¬ y.1 < x.1 := by
    have hes : (es.map (·.1)).Pairwise fun m n => ¬ n < m := List.pairwise_map.mpr hsorted
    rw [← hnames] at hes
    exact List.pairwise_map.mp hes
  rw [Shape.ofRecord, Listing.sortBy_eq_self hxs, Atom.key, Ty.fieldKeys_eq_map, ← htexts]
  rfl

theorem key_ofEphemeral {ts : List Ty} {xs : List Interned}
    (h : xs.map Interned.key = ts.map Ty.key) :
    (Shape.ofEphemeral xs).key = (Atom.ephemeral ts).key := by
  rw [Atom.key, Ty.keys_eq_map, ← h]
  rfl

/-! ## Types -/

/-- Of options with shorter keys the union is stored under its own. -/
theorem leaves_union {os : List Atom} (ht : (Ty.union os).Made p)
    (h : Leaves p (Ty.union os).key.length (internAtoms os)
      fun _ xs _ => xs.map Shape.key = os.map Atom.key) :
    Leaves p ((Ty.union os).key.length + 1) (internAtoms os >>= storeUnion)
      (Files id (Ty.union os).key) :=
  h.bind_files (Nat.le_refl _) fun _ hxs => leaves_storeUnion (key_ofShapes ht.sorted hxs)

mutual

/-- **A type made is answered, under its key, and stands there from then on**; whatever else is
stored has a shorter key. -/
theorem leaves_intern (hplaced : p.Placed) :
    (t : Ty) → t.Made p → Leaves p (t.key.length + 1) (intern t) (Holding t.key)
  | .union [], ht => by
    rw [intern]
    exact .internUnder (leaves_union ht (leaves_internAtoms hplaced [] _ (List.forall_mem_nil _)))
  | .union [a], ht => by
    have halone := (leaves_internAtom hplaced a ht).alone
    have hkey : (Ty.union [a]).key = a.key := Ty.key_single a
    rw [intern, hkey]
    refine .internUnder ?_
    simpa only [internAtoms, bind_assoc, pure_bind] using halone
  | .union (a :: b :: os), ht => by
    rw [intern]
    exact .internUnder <| leaves_union ht <| leaves_internAtoms hplaced _ _ fun c hc =>
      ⟨ht.single hc, Ty.key_option_lt (by simp) hc⟩

theorem leaves_internAtom (hplaced : p.Placed) : (a : Atom) → (Ty.single a).Made p →
    Leaves p (a.key.length + 1) (internAtom a) (Files .single a.key)
  | .entity q, ha => by
    rw [internAtom]
    exact (leaves_internPart hplaced (ha.option List.mem_cons_self).1).bind_files (Nat.zero_le _)
      fun k hk => leaves_storeShape hk
  | .concept qs, ha => by
    obtain ⟨hsorted, hparts⟩ := (ha.option List.mem_cons_self).1
    have hkeys := Leaves.mapM id fun q hq => leaves_internPart hplaced (hparts q hq)
    have hall := hkeys.bind_files (Nat.zero_le _) fun ks hks =>
      leaves_storeShape (key_ofConcepts hsorted (ks.map_id ▸ hks))
    rw [internAtom]
    split
    case isTrue hmany =>
      refine Leaves.bind_files (.mapM Interned.key fun q hq => ?_) (Nat.le_refl _)
        fun _ _ => hall
      exact (leaves_internConcept hplaced (hparts q hq)).mono (Atom.key_part_lt hmany hq)
        fun _ _ _ hx => hx.1
    case isFalse => exact hall
  | .tuple es, ha => by
    have hinner := (ha.option List.mem_cons_self).2
    rw [internAtom]
    refine (leaves_internSlots hplaced es _ fun e he => ?_).bind_files (Nat.le_refl _)
      fun xs hxs => leaves_storeShape (key_ofTuple hxs)
    exact ⟨hinner _ (List.mem_map_of_mem he), Atom.key_entry_lt (List.mem_map_of_mem he)⟩
  | .record es, ha => by
    obtain ⟨hsorted, hinner⟩ := ha.option List.mem_cons_self
    rw [internAtom]
    refine (leaves_internFields hplaced es _ fun e he => ?_).bind_files (Nat.le_refl _)
      fun xs hxs => leaves_storeShape (key_ofRecord hsorted hxs)
    exact ⟨hinner _ (List.mem_map_of_mem he), Atom.key_entry_lt (List.mem_map_of_mem he)⟩
  | .ephemeral ts, ha => by
    have hinner := (ha.option List.mem_cons_self).2
    rw [internAtom]
    refine (leaves_internAll hplaced ts _ fun t ht => ?_).bind_files (Nat.le_refl _)
      fun xs hxs => leaves_storeShape (key_ofEphemeral hxs)
    exact ⟨hinner t ht, Atom.key_entry_lt (a := .ephemeral ts) ht⟩

theorem leaves_internAtoms (hplaced : p.Placed) : (os : List Atom) → (n : Nat) →
    (∀ a ∈ os, (Ty.single a).Made p ∧ a.key.length < n) →
      Leaves p n (internAtoms os) fun _ xs _ => xs.map Shape.key = os.map Atom.key
  | [], _, _ => by
    rw [internAtoms]
    exact .pure rfl
  | a :: r, n, h => by
    obtain ⟨⟨ha, hn⟩, hr⟩ := List.forall_mem_cons.mp h
    rw [internAtoms]
    refine ((leaves_internAtom hplaced a ha).mono hn fun _ _ _ hx => hx.1).bind fun x hx =>
      (leaves_internAtoms hplaced r n hr).bind fun xs hxs => .pure ?_
    rw [List.map_cons, List.map_cons, hxs, ← hx, key_singleShape]

theorem leaves_internAll (hplaced : p.Placed) : (ts : List Ty) → (n : Nat) →
    (∀ t ∈ ts, t.Made p ∧ t.key.length < n) →
      Leaves p n (internAll ts) fun _ xs _ => xs.map Interned.key = ts.map Ty.key
  | [], _, _ => by
    rw [internAll]
    exact .pure rfl
  | t :: r, n, h => by
    obtain ⟨⟨ht, hn⟩, hr⟩ := List.forall_mem_cons.mp h
    rw [internAll]
    refine ((leaves_intern hplaced t ht).mono hn fun _ _ _ hx => hx.1).bind fun x hx =>
      (leaves_internAll hplaced r n hr).bind fun xs hxs => .pure ?_
    rw [List.map_cons, List.map_cons, hxs, hx]

theorem leaves_internSlots (hplaced : p.Placed) : (es : List (Slot Ty)) → (n : Nat) →
    (∀ e ∈ es, e.type.Made p ∧ e.type.key.length < n) →
      Leaves p n (internSlots es) fun _ xs _ => xs.map slotText = es.map Slot.text
  | [], _, _ => by
    rw [internSlots]
    exact .pure rfl
  | ⟨t, o⟩ :: r, n, h => by
    obtain ⟨⟨ht, hn⟩, hr⟩ := List.forall_mem_cons.mp h
    rw [internSlots]
    refine ((leaves_intern hplaced t ht).mono hn fun _ _ _ hx => hx.1).bind fun x hx =>
      (leaves_internSlots hplaced r n hr).bind fun xs hxs => .pure ?_
    rw [List.map_cons, List.map_cons, hxs, slotText, hx, Slot.text]

theorem leaves_internFields (hplaced : p.Placed) : (es : List (String × Slot Ty)) → (n : Nat) →
    (∀ e ∈ es, e.2.type.Made p ∧ e.2.type.key.length < n) →
      Leaves p n (internFields es) fun _ xs _ =>
        xs.map (fun x => (x.1, shownField x)) = es.map fun e => (e.1, fieldText e)
  | [], _, _ => by
    rw [internFields]
    exact .pure rfl
  | (l, ⟨t, o⟩) :: r, n, h => by
    obtain ⟨⟨ht, hn⟩, hr⟩ := List.forall_mem_cons.mp h
    rw [internFields]
    refine ((leaves_intern hplaced t ht).mono hn fun _ _ _ hx => hx.1).bind fun x hx =>
      (leaves_internFields hplaced r n hr).bind fun xs hxs => .pure ?_
    rw [List.map_cons, List.map_cons, hxs, shownField, hx, fieldText]

end

/-! ## What comes after -/

/-- An assembly that holds what another did, and the same types. -/
structure Extends (m m' : Assembly) : Prop where
  types : m'.types = m.types
  finished : ∀ l k, m.isFinished l k = true → m'.isFinished l k = true

/-- A concept entered in the assembly is finished, and what was finished is. -/
theorem extends_insert_concept (m : Assembly) (k : String) (d : ConceptDecl) :
    Extends m { m with concepts := m.concepts.insert k d } := by
  refine ⟨rfl, fun l k' h => ?_⟩
  cases l with
  | types => grind [Assembly.isFinished, Assembly.hasNominal, Table.contains_insert]
  | globals | consts | functions | lambdas | statics | methods => exact h

/-- **What a session may lead to**: through registrations of any work, calls and types made, as work
is taken off a queue and what is finished is entered in the assembly. -/
inductive Leads (p : Program) (s : Session) : Session → Prop
  | refl : Leads p s s
  | event {s' s'' : Session} {e : Event} (h : Leads p s s') (hpass : Passes s' e s'')
      (hmade : ∀ t, e.registration? = some (.type t) → t.Made p)
      (hchange : ∀ m m', e = .changed m m' → Extends m m') : Leads p s s''
  | pop {s' : Session} {ls : List Lane} {l : Lane} {i : Item} {queues : Queues}
      (h : Leads p s s') (hpop : s'.queues.popFirst? ls = some (l, i, queues)) :
      Leads p s { s' with queues }

/-- Work under a key is done, or was taken on in its lane. -/
def UnderWay (s : Session) (l : Lane) (k : String) : Prop :=
  s.assembly.isFinished l k = true ∨ k ∈ (s.queues.get l).seen

/-- No mark of a registration is lost. -/
structure Marked (s s' : Session) : Prop where
  kept : ∀ k x, s.typeAt k = some x → s'.typeAt k = some x
  underWay : ∀ l k, s.UnderWay l k → s'.UnderWay l k
  calls : s.calls <+: s'.calls

variable {s s' s'' : Session} {e : Event}

theorem Marked.refl (s : Session) : Marked s s :=
  ⟨fun _ _ => id, fun _ _ => id, List.prefix_rfl⟩

theorem Marked.trans (h : Marked s s') (h' : Marked s' s'') : Marked s s'' :=
  ⟨fun k x hx => h'.kept k x (h.kept k x hx), fun l k hk => h'.underWay l k (h.underWay l k hk),
    h.calls.trans h'.calls⟩

/-- The types stored stay, each under its own key. -/
theorem Passes.filed (hplaced : p.Placed) (h : Passes s e s') (hs : Filed p s)
    (hmade : ∀ t, e.registration? = some (.type t) → t.Made p)
    (hchange : ∀ m m', e = .changed m m' → Extends m m') :
    Filed p s' ∧ ∀ k x, s.typeAt k = some x → s'.typeAt k = some x := by
  have hsame : s'.assembly.types = s.assembly.types →
      Filed p s' ∧ ∀ k x, s.typeAt k = some x → s'.typeAt k = some x := fun htypes => by
    have hat : s'.typeAt = s.typeAt := funext fun k => congrArg (·.get? k) htypes
    exact ⟨⟨h.program.trans hs.program, hat ▸ hs.key⟩, hat ▸ fun _ _ => id⟩
  cases h with
  | requested h =>
    obtain ⟨-, rfl⟩ := request_eq_ok h
    refine hsame ?_
    split <;> rfl
  | @interned s' t x h =>
    obtain ⟨_, s₁, hrun, hs₁, hgrown, -⟩ := leaves_intern hplaced t (hmade t rfl) s hs
    obtain ⟨-, rfl⟩ := Prod.mk.inj (Except.ok.inj (hrun.symm.trans h))
    exact ⟨hs₁, hgrown.kept⟩
  | noted c =>
    refine hsame ?_
    rw [noteCall]
    split <;> rfl
  | changed m => exact hsame (hchange _ _ rfl).types
  | built => exact hsame rfl

theorem Passes.marked (hplaced : p.Placed) (h : Passes s e s') (hs : Filed p s)
    (hmade : ∀ t, e.registration? = some (.type t) → t.Made p)
    (hchange : ∀ m m', e = .changed m m' → Extends m m') : Marked s s' := by
  refine ⟨(h.filed hplaced hs hmade hchange).2,
    fun l k hk => hk.imp (fun hk => ?_) fun hk => ?_, ?_⟩
  · rcases h.assembly with ⟨m, he, hm⟩ | hsame
    · exact hm ▸ (hchange _ _ he).finished l k hk
    · rw [hsame]
      cases l <;> exact hk
  · have hseen := Agenda.seen_takeAll (g := s.agenda) hk e.asks
    rwa [← h.agenda] at hseen
  · rw [h.calls]
    cases e.call? with
    | none => exact List.prefix_rfl
    | some c => exact Path.withCall_grows _ c

/-- **Whatever a session leads to, types stand under their keys and no mark is lost.** -/
theorem Leads.keeps (hplaced : p.Placed) (h : Leads p s s') (hs : Filed p s) :
    Filed p s' ∧ Marked s s' := by
  induction h with
  | refl => exact ⟨hs, .refl s⟩
  | event _ hpass hmade hchange ih =>
    obtain ⟨hs', hmarked⟩ := ih
    exact ⟨(hpass.filed hplaced hs' hmade hchange).1,
      hmarked.trans (hpass.marked hplaced hs' hmade hchange)⟩
  | @pop s₁ _ _ _ queues _ hpop ih =>
    obtain ⟨hs', hmarked⟩ := ih
    have hseen : ∀ l k, s₁.UnderWay l k → UnderWay { s₁ with queues } l k := fun l k hk =>
      hk.imp_right fun hk => Queues.seen_popFirst? hpop l ▸ hk
    exact ⟨⟨hs'.program, hs'.key⟩, hmarked.trans ⟨fun _ _ => id, hseen, List.prefix_rfl⟩⟩

theorem filed_new (p : Program) (core : String) : Filed p (.new p core) :=
  ⟨rfl, fun _ _ h => by cases h⟩

/-! ## Registering again -/

/-- Work that is done or taken on is not taken on again. -/
theorem UnderWay.request {w : Work} {k : String} (hkey : w.key s.program = .ok k)
    (h : s.UnderWay w.lane k) : s.request w = .ok (k, s) := by
  rw [request_of_key hkey]
  split
  case isTrue => rfl
  case isFalse hheld =>
    have hseen := h.resolve_left hheld
    have hqueues : s.queues.push { key := k, work := w } = s.queues := Queues.push_of_mem hseen
    have hcontains : (s.queues.get w.lane).contains k = true := WorkQueue.contains_iff.mpr hseen
    rw [enqueue, hqueues]
    cases w <;> simp [hcontains]

theorem underWay_of_request {w : Work} {k : String} (h : s.request w = .ok (k, s')) :
    s'.UnderWay w.lane k := by
  obtain ⟨-, rfl⟩ := request_eq_ok h
  split
  case isTrue hheld => exact .inl hheld
  case isFalse => exact .inr (Queues.mem_seen_push.mpr (.inl ⟨rfl, rfl⟩))

/-- A call through a slot at a receiver is written down once. -/
theorem noteCall_of_mem {c d : VirtualCall} (hd : d ∈ s.calls) (hslot : d.slot = c.slot)
    (hreceiver : d.receiver.key = c.receiver.key) : s.noteCall c = (c.slot, s) := by
  rw [noteCall, if_pos]
  exact List.any_eq_true.mpr ⟨d, hd, by simp [hslot, hreceiver]⟩

/-- **A registration is answered, and made again, at once or whatever it has led to, it is answered
the same and changes nothing**: no lane, no type or call on record, nothing in the assembly. -/
theorem Leads.registered_again {σ : Type} {core : String} {r : Registration} (hplaced : p.Placed)
    (hs : Leads p (.new p core) s) (hr : r.Made p) (st : σ) :
    ∃ x s₁, r.action.run st s = (.ok x, st, s₁) ∧
      ∀ s₂, Leads p s₁ s₂ → ∀ st' : σ, r.action.run st' s₂ = (.ok x, st', s₂) := by
  obtain ⟨hfiled, -⟩ := hs.keeps hplaced (filed_new p core)
  cases r with
  | work w =>
    obtain ⟨k, hkey⟩ := hr
    rw [← hfiled.program] at hkey
    have hrun := request_of_key hkey
    generalize (if s.assembly.isFinished w.lane k then s
      else s.enqueue { key := k, work := w }) = s₁ at hrun
    have hpass : Passes s (.requested w (s.asks w)) s₁ := .requested hrun
    refine ⟨.key k, s₁, by simp [Registration.action, Action.run, hrun], fun s₂ hlater st' => ?_⟩
    obtain ⟨hfiled₂, hmarked⟩ := hlater.keeps hplaced
      (hpass.filed hplaced hfiled (fun _ h => by cases h) fun _ _ h => by cases h).1
    have hagain := (hmarked.underWay _ _ (underWay_of_request hrun)).request
      (hfiled₂.program.trans hfiled.program.symm ▸ hkey)
    simp [Registration.action, Action.run, hagain]
  | type t =>
    obtain ⟨x, s₁, hrun, hfiled₁, -, -, hx⟩ := leaves_intern hplaced t hr s hfiled
    refine ⟨.type x, s₁, by simp [Registration.action, Action.run, hrun], fun s₂ hlater st' => ?_⟩
    have hstored := (hlater.keeps hplaced hfiled₁).2.kept _ _ hx
    simp [Registration.action, Action.run, intern_of_typeAt hstored]
  | call c =>
    obtain ⟨d, hd, hslot, hreceiver⟩ := exists_mem_withCall s.calls c
    rw [← calls_noteCall] at hd
    have hpass := Passes.noted s c
    refine ⟨.key c.slot, (s.noteCall c).2, rfl, fun s₂ hlater st' => ?_⟩
    obtain ⟨-, hmarked⟩ := hlater.keeps hplaced
      (hpass.filed hplaced hfiled (fun _ h => by cases h) fun _ _ h => by cases h).1
    have hagain := noteCall_of_mem (hmarked.calls.subset hd) hslot hreceiver
    simp [Registration.action, Action.run, hagain]

/-- A tuple is registered, a concept inside it is taken off its queue and entered in the assembly,
and the tuple is registered again. -/
theorem both_registered_again : ∃ x s₁ i queues,
    (Registration.type Program.both).action.run () (.new Program.shelf "Core") =
      (.ok x, (), s₁) ∧
    s₁.queues.popFirst? Lane.all = some (.types, i, queues) ∧ i.key = "Core::Any" ∧
    ∀ d : ConceptDecl,
      let s₂ := { s₁ with queues, assembly.concepts := s₁.assembly.concepts.insert i.key d }
      (Registration.type Program.both).action.run () s₂ = (.ok x, (), s₂) := by
  have hmade : Program.both.Made Program.shelf := by
    refine .tuple (List.forall_mem_singleton.mpr ?_)
    exact @Ty.Made.concept Program.shelf ((Program.shelf.types.take 2).map (.ofDecl · ∅))
      (List.forall_mem_map.mpr fun d hd => ⟨d, List.mem_of_mem_take hd, ∅, rfl⟩)
  obtain ⟨x, s₁, hrun, hagain⟩ :=
    @Leads.registered_again _ _ Unit "Core" (.type Program.both) Program.placed_shelf .refl hmade ()
  have hfirst : (((Registration.type Program.both).action.run ()
      (.new Program.shelf "Core")).2.2.queues.popFirst? Lane.all).map (fun e => (e.1, e.2.1.key)) =
        some (.types, "Core::Any") := by
    decide +kernel
  rw [hrun] at hfirst
  obtain ⟨⟨l, i, queues⟩, hpop, hitem⟩ := Option.map_eq_some_iff.mp hfirst
  obtain ⟨rfl, hkey⟩ := Prod.mk.inj hitem
  refine ⟨x, s₁, i, queues, hrun, hpop, hkey, fun d => hagain _ ?_ ()⟩
  refine .event (.pop .refl hpop) (.changed _ _) nofun fun m m' he => ?_
  obtain ⟨rfl, rfl⟩ := Event.changed.inj he
  exact extends_insert_concept _ i.key d

end Session

end Monomorph
