import Monomorph.Proofs.Session.Registry
import Monomorph.Proofs.Union.Laws

/-!
# Union/Canonical — a union is its options, whichever way it was formed

Two inputs.  **A type built is known by the keys of its options** (`Ty.knownByKeys`): they stand
in order, and a key is the key of one option.  **A stored type is known by the keys of its options**
where these tell apart the options it is made of (`Interned.knownByKeys`).  Hence both kinds of
types have all the laws of a union; and since the copy of an option stands under the key of the
option, storing a union of types stores the union of what is stored for them (`Ty.mirror_join`,
`unions_canonical`).
-/

namespace Monomorph

/-! ## Unions of types -/

namespace Ty

variable {p : Program}

theorem Built.options_ne_nil {t : Ty} (h : t.Built p) : t.options ≠ [] := by
  cases h.proper with
  | union hne => exact hne

/-- Options of types built that have one key are one option. -/
theorem Built.option_eq_of_key (hp : p.PlainlyNamed) {t u : Ty} (ht : t.Built p) (hu : u.Built p)
    {a b : Atom} (ha : a ∈ t.options) (hb : b ∈ u.options) (h : a.key = b.key) : a = b := by
  have hsingle : Ty.single a = Ty.single b :=
    (ht.single ha).proper.key_inj hp (hu.single hb).proper (by rw [key_single, key_single, h])
  simpa [Ty.single] using hsingle

/-- **Types built are known by the keys of their options.** -/
theorem Built.ext_keys (hp : p.PlainlyNamed) {t u : Ty} (ht : t.Built p) (hu : u.Built p)
    (h : ∀ k, k ∈ t.options.map Atom.key ↔ k ∈ u.options.map Atom.key) : t = u := by
  have hoptions : t.options = u.options := Listing.eq_of_keys ht.sorted hu.sorted
    (fun a ha b hb => ht.option_eq_of_key hp hu ha hb) h
  cases t
  cases u
  exact congrArg Ty.union hoptions

theorem exists_join {ts : List Ty} (hne : ts ≠ []) (hts : ∀ t ∈ ts, t.Built p) :
    ∃ t, Ty.join ts = .ok t := by
  have hoptions : ts.flatMap options ≠ [] := by
    obtain ⟨t, ts, rfl⟩ := List.exists_cons_of_ne_nil hne
    simp [(hts t List.mem_cons_self).options_ne_nil]
  rw [Ty.join]
  cases h : ts.flatMap options with
  | nil => exact absurd h hoptions
  | cons a os => exact ⟨_, rfl⟩

theorem mem_keys_join {ts : List Ty} {t : Ty} (h : Ty.join ts = .ok t) (k : String) :
    k ∈ t.options.map Atom.key ↔ ∃ u ∈ ts, k ∈ u.options.map Atom.key := by
  rw [options_of_ofAtoms h, Listing.mem_map_distinctBy, List.map_flatMap, List.mem_flatMap]

theorem knownByKeys (hp : p.PlainlyNamed) :
    KnownByKeys Ty.join Ty.options Atom.key (Ty.Built p) where
  exists_join _ hne hts := exists_join hne hts
  good_join _ _ hts h := .join hts h
  mem_keys _ _ h := mem_keys_join h
  sorted _ h := h.sorted
  ext _ _ ht hu h := ht.ext_keys hp hu h

end Ty

/-! ## Unions of stored types -/

namespace Interned

/-- The union of the options of types. -/
def join (xs : List Interned) : Interned :=
  .ofShapes (xs.flatMap options)

/-- A union of options of one sort. -/
def Of (sort : Shape → Prop) (x : Interned) : Prop :=
  ∃ os, (∀ o ∈ os, sort o) ∧ x = .ofShapes os

/-- A union of options is a union of types, one for each option. -/
theorem join_single (os : List Shape) : join (os.map single) = .ofShapes os := by
  rw [join, List.flatMap_map]
  exact congrArg ofShapes (List.flatMap_singleton' os)

variable {sort : Shape → Prop}

theorem Of.option {x : Interned} (h : x.Of sort) {o : Shape} (ho : o ∈ x.options) : sort o := by
  obtain ⟨os, hos, rfl⟩ := h
  exact hos o (Listing.mem_of_mem_distinctBy ho)

theorem Of.sorted {x : Interned} (h : x.Of sort) :
    x.options.Pairwise fun a b => a.key < b.key := by
  obtain ⟨os, -, rfl⟩ := h
  exact Listing.distinctBy_sorted ..

/-- What a union of options is can be read off its options. -/
theorem Of.eq_mk {x : Interned} (h : x.Of sort) :
    x = .mk (String.intercalate " | " (x.options.map Shape.key)) x.options := by
  obtain ⟨os, -, rfl⟩ := h
  rfl

theorem Of.join {xs : List Interned} (h : ∀ x ∈ xs, x.Of sort) : (join xs).Of sort := by
  refine ⟨xs.flatMap options, fun o ho => ?_, rfl⟩
  obtain ⟨x, hx, ho⟩ := List.mem_flatMap.mp ho
  exact (h x hx).option ho

/-- **Where keys tell options apart, unions of them are known by the keys.** -/
theorem knownByKeys (hsort : ∀ a b, sort a → sort b → a.key = b.key → a = b) :
    KnownByKeys (fun xs => .ok (join xs)) options Shape.key (Of sort) where
  exists_join xs _ _ := ⟨join xs, rfl⟩
  good_join xs x hxs h := Except.ok.inj h ▸ .join hxs
  mem_keys xs x h k := by
    obtain rfl := Except.ok.inj h
    change k ∈ (Listing.distinctBy _ _).map _ ↔ _
    rw [Listing.mem_map_distinctBy, List.map_flatMap, List.mem_flatMap]
  sorted _ h := h.sorted
  ext x y hx hy h := by
    have hoptions : x.options = y.options := Listing.eq_of_keys hx.sorted hy.sorted
      (fun a ha b hb => hsort a b (hx.option ha) (hy.option hb)) h
    rw [hx.eq_mk, hy.eq_mk, hoptions]

end Interned

/-! ## Storing a union -/

/-- **The copy of a union is the union of the copies.** -/
theorem Ty.mirror_join {ts : List Ty} {t : Ty} (h : Ty.join ts = .ok t) :
    t.mirror = Interned.join (ts.map Ty.mirror) := by
  have hoptions : (ts.map Ty.mirror).flatMap Interned.options =
      (ts.flatMap Ty.options).map Atom.mirror := by
    rw [List.flatMap_map, List.map_flatMap]
    exact List.flatMap_congr fun u _ => u.options_mirror
  have hkept : Listing.distinctBy Shape.key ((ts.flatMap Ty.options).map Atom.mirror) =
      t.options.map Atom.mirror := by
    rw [Listing.distinctBy_map, options_of_ofAtoms h]
    simp only [Atom.key_mirror]
  rw [Interned.join, hoptions, Interned.ofShapes, hkept]
  obtain ⟨os⟩ := t
  simp [Ty.mirror, Ty.key, Ty.options, Atom.mirrors_eq_map, Atom.keys_eq_map, Function.comp_def]

/-- **Unions are canonical.**  The types built of the declarations of a program have all the laws of
a union, and so have stored types made of options that their keys tell apart, whether these come as
types or as options.  Storing keeps unions: in any session reached the union of types is answered
with the union of what is answered for the types. -/
theorem unions_canonical {p : Program} (hp : p.PlainlyNamed) :
    UnionLaws Ty.join Ty.options Atom.key (Ty.Built p) ∧
      (∀ sort : Shape → Prop, (∀ a b, sort a → sort b → a.key = b.key → a = b) →
        UnionLaws (fun xs => .ok (Interned.join xs)) Interned.options Shape.key
          (Interned.Of sort)) ∧
      (∀ os, Interned.join (os.map .single) = .ofShapes os) ∧
      (p.Placed → ∀ ts t, (∀ u ∈ ts, u.Built p) → Ty.join ts = .ok t →
        ∃ xs, ∀ core s, Session.Reached p core s →
          (∃ s', (Session.internAll ts).run s = .ok (xs, s')) ∧
            ∃ s', (Session.intern t).run s = .ok (Interned.join xs, s')) := by
  refine ⟨(Ty.knownByKeys hp).laws, fun sort hsort => (Interned.knownByKeys hsort).laws,
    Interned.join_single, fun hplaced ts t hts ht => ⟨ts.map Ty.mirror, fun core s hs => ?_⟩⟩
  have hlayered := (hs.keeps hp hplaced).layered
  obtain ⟨s', hmembers, -⟩ :=
    Session.stores_internAll hp hplaced ts hts s hlayered (List.forall_mem_nil _)
  obtain ⟨s'', hunion, -⟩ :=
    Session.stores_intern hp hplaced t (.join hts ht) s hlayered (List.forall_mem_nil _)
  rw [Ty.mirrors_eq_map] at hmembers
  rw [Ty.mirror_join ht] at hunion
  exact ⟨⟨s', hmembers⟩, s'', hunion⟩

namespace Shelf

/-- What is of the first concept. -/
def anything : Ty := .nominal ⟨⟨0⟩, "Core", "Any", .concept, [], [], [], "", {}⟩ ∅

def something : Ty := .nominal ⟨⟨1⟩, "Core", "Some", .concept, [], [], [], "", {}⟩ ∅

/-- The lists of anything. -/
def lists : Ty :=
  .nominal ⟨⟨2⟩, "Core", "List", .entity, ["T"], [], [], "", {}⟩ (Table.ofList [("T", anything)])

def members : List Ty := [anything, something, lists]

theorem built : ∀ t ∈ members, t.Built Program.shelf := by
  have hconcept : ∀ d ∈ Program.shelf.types, (Ty.nominal d ∅).Built Program.shelf := fun d hd =>
    .nominal hd (List.forall_mem_nil _) (List.forall_mem_nil _)
  have hanything : anything.Built Program.shelf := hconcept _ (by decide)
  have hlists : lists.Built Program.shelf := by
    refine .nominal (by decide) (fun n hn => ?_) fun u hu => ?_
    · obtain rfl : n = "T" := List.mem_singleton.mp hn
      decide +kernel
    · obtain rfl : u = anything := List.mem_singleton.mp hu
      exact hanything
  simp only [members, List.forall_mem_cons, List.not_mem_nil, false_imp_iff, implies_true, and_true]
  exact ⟨hanything, hconcept _ (by decide), hlists⟩

/-- Two unions with a member in common, joined. -/
def overlapping : Grouping Ty :=
  .group [.group [.one something, .one anything], .group [.one anything, .one lists]]

/-- The same members one inside the other. -/
def nested : Grouping Ty :=
  .group [.one lists, .group [.group [.one anything], .one something]]

theorem filled : overlapping.Filled ∧ nested.Filled := by
  simp [overlapping, nested, Grouping.Filled, Grouping.AllFilled]

theorem mem_overlapping (t : Ty) : t ∈ overlapping.members ↔ t ∈ members := by
  change t ∈ [something, anything, anything, lists] ↔ t ∈ [anything, something, lists]
  simp only [List.mem_cons, List.not_mem_nil, or_false]
  tauto

theorem mem_nested (t : Ty) : t ∈ nested.members ↔ t ∈ members := by
  change t ∈ [lists, anything, something] ↔ t ∈ [anything, something, lists]
  simp only [List.mem_cons, List.not_mem_nil, or_false]
  tauto

end Shelf

/-- Three types in two groupings are one union, which is stored as the union of what is stored for
the three; and two entities make one stored type in either order. -/
theorem unions_canonical_shelf :
    Program.shelf.PlainlyNamed ∧ Program.shelf.Placed ∧
      (∃ t, Shelf.overlapping.joined Ty.join = .ok t ∧ Shelf.nested.joined Ty.join = .ok t ∧
        t.key = "Core::Any | Core::List<T=Core::Any> | Core::Some" ∧
        ∃ xs s s', (Session.internAll Shelf.members).run (.new Program.shelf "Core") = .ok (xs, s) ∧
          (Session.intern t).run (.new Program.shelf "Core") = .ok (Interned.join xs, s')) ∧
      Interned.join [.single (.entity "B"), .single (.entity "A")] =
        .ofShapes [.entity "A", .entity "B"] := by
  have hp : Program.shelf.PlainlyNamed := ⟨by decide +kernel, by decide +kernel⟩
  have hplaced := Program.placed_shelf
  obtain ⟨htypes, hstored, hsingle, hanswered⟩ := unions_canonical hp
  obtain ⟨t, ht, -⟩ := htypes.exists_join Shelf.members (by simp [Shelf.members]) Shelf.built
  -- any grouping of the three is their union
  have hgrouped : ∀ g : Grouping Ty, g.Filled → (∀ u, u ∈ g.members ↔ u ∈ Shelf.members) →
      g.joined Ty.join = .ok t := by
    intro g hfilled hsame
    have hbuilt : ∀ u ∈ g.members, u.Built Program.shelf := fun u hu =>
      Shelf.built u ((hsame u).mp hu)
    obtain ⟨u, hu, -⟩ := htypes.exists_joined g hfilled hbuilt
    rw [hu, htypes.regroup g (.group (Shelf.members.map .one)) u t hbuilt hsame hu ht]
  have hoverlapping := hgrouped Shelf.overlapping Shelf.filled.1 Shelf.mem_overlapping
  have hnested := hgrouped Shelf.nested Shelf.filled.2 Shelf.mem_nested
  have hkey : (Ty.join Shelf.members).map Ty.key =
      .ok "Core::Any | Core::List<T=Core::Any> | Core::Some" := by decide +kernel
  rw [ht] at hkey
  obtain ⟨xs, hxs⟩ := hanswered hplaced Shelf.members t Shelf.built ht
  obtain ⟨⟨s, hs⟩, s', hs'⟩ := hxs "Core" _ .new
  refine ⟨hp, hplaced, ⟨t, hoverlapping, hnested, Except.ok.inj hkey, xs, s, s', hs, hs'⟩, ?_⟩
  have hentities := hstored (fun o => ∃ k, o = .entity k) (by
    rintro _ _ ⟨k, rfl⟩ ⟨l, rfl⟩ rfl
    rfl)
  have hentity : ∀ k, (Interned.single (.entity k)).Of fun o => ∃ k, o = .entity k := fun k =>
    ⟨[.entity k], by simp, rfl⟩
  rw [Except.ok.inj (hentities.comm _ _ (hentity "B") (hentity "A"))]
  exact hsingle [.entity "A", .entity "B"]

end Monomorph
