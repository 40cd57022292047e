import Mathlib.Logic.Relation
import Monomorph.Program.Provides

/-!
# Program/Supertypes — a search finds what a declaration reaches

The search expands a declaration when it comes off the stack for the first time.  What has been
expanded leads only to what has been expanded too or still waits (`Program.Searched`), and `sup` is
not among it; so a search that ends without `sup` has expanded all there is to reach.  At an id that
names nothing the search breaks off; the id was reached from where the search began
(`Program.Strays`).  So **the search ends with the truth, or has
met an unknown id other than `sup`** (`providesTransitively_reaches`).
-/

namespace Monomorph.Program

open Relation

/-- The declaration at `u` names the one at `v` as a supertype. -/
def Extends (p : Program) (u v : TypeId) : Prop :=
  ∃ d, p.type? u = some d ∧ v ∈ d.provides

/-- Every id that a declaration names is that of a declaration. -/
def Known (p : Program) : Prop :=
  ∀ u v, p.Extends u v → (p.type? v).isSome = true

variable {p : Program} {sup : TypeId} {fresh stack : List TypeId}

theorem mem_typeIds {t : TypeId} (h : (p.type? t).isSome = true) : t ∈ p.typeIds := by
  obtain ⟨d, hd⟩ := Option.isSome_iff_exists.mp h
  obtain ⟨hlt, -⟩ := List.getElem?_eq_some_iff.mp hd
  refine List.mem_map.mpr ⟨t.index.toNat, List.mem_range.mpr hlt, ?_⟩
  rw [UInt32.ofNat_toNat]

/-- What a search under way has expanded: all that is not fresh any more. -/
structure Searched (p : Program) (sup : TypeId) (fresh stack : List TypeId)
    (expanded : TypeId → Prop) : Prop where
  stale : ∀ t, (p.type? t).isSome = true → t ∉ fresh → expanded t
  missed : ∀ t, expanded t → t ≠ sup
  leads : ∀ u v, expanded u → p.Extends u v → expanded v ∨ v ∈ stack

/-- An id that names nothing is reached, and is not the one looked for. -/
def Strays (p : Program) (sup t : TypeId) : Prop :=
  ∃ u, ReflTransGen p.Extends t u ∧ u ≠ sup ∧ p.type? u = none

theorem Strays.head {t u : TypeId} (hway : ReflTransGen p.Extends t u) (h : p.Strays sup u) :
    p.Strays sup t := by
  obtain ⟨v, hv, hne, hnone⟩ := h
  exact ⟨v, hway.trans hv, hne, hnone⟩

/-- What a search says of what waits and of what has been expanded: `sup` is reached from what
waits, or from neither, or the search has strayed. -/
def Answers (p : Program) (sup : TypeId) (stack : List TypeId) (expanded : TypeId → Prop) :
    Except Fault Bool → Prop
  | .ok true => ∃ t ∈ stack, ReflTransGen p.Extends t sup
  | .ok false => ∀ t, expanded t ∨ t ∈ stack → ¬ ReflTransGen p.Extends t sup
  | .error f => f = .unknownId ∧ ∃ t ∈ stack, p.Strays sup t

/-- An answer is passed on to a stack from which all that waits later is reached, if nothing is lost
on the way. -/
theorem Answers.pass {stack' : List TypeId} {expanded expanded' : TypeId → Prop}
    {answer : Except Fault Bool} (h : p.Answers sup stack' expanded' answer)
    (hreached : ∀ u ∈ stack', ∃ t ∈ stack, ReflTransGen p.Extends t u)
    (hkept : ∀ t, expanded t ∨ t ∈ stack → expanded' t ∨ t ∈ stack') :
    p.Answers sup stack expanded answer := by
  match answer with
  | .ok true =>
    obtain ⟨u, hu, hway⟩ := h
    obtain ⟨t, ht, hwait⟩ := hreached u hu
    exact ⟨t, ht, hwait.trans hway⟩
  | .ok false => exact fun t ht => h t (hkept t ht)
  | .error f =>
    obtain ⟨hf, u, hu, hstrays⟩ := h
    obtain ⟨t, ht, hwait⟩ := hreached u hu
    exact ⟨hf, t, ht, hstrays.head hwait⟩

namespace Searched

variable {expanded : TypeId → Prop}

/-- A declaration that comes off the stack is expanded. -/
theorem expand {t : TypeId} {d : TypeDecl} (h : p.Searched sup fresh (t :: stack) expanded)
    (hd : p.type? t = some d) (ht : t ≠ sup) :
    p.Searched sup (fresh.erase t) (d.provides.reverse ++ stack) fun u => expanded u ∨ u = t := by
  refine ⟨fun u hu hfresh => ?_, ?_, ?_⟩
  · by_cases heq : u = t
    · exact .inr heq
    · exact .inl (h.stale u hu fun hmem => hfresh ((List.mem_erase_of_ne heq).mpr hmem))
  · rintro u (hu | rfl)
    · exact h.missed u hu
    · exact ht
  · rintro u v (hu | rfl) e
    · rcases h.leads u v hu e with hv | hv
      · exact .inl (.inl hv)
      · rcases List.mem_cons.mp hv with rfl | hv
        · exact .inl (.inr rfl)
        · exact .inr (List.mem_append_right _ hv)
    · obtain ⟨d', hd', hv⟩ := e
      obtain rfl := Option.some.inj (hd.symm.trans hd')
      exact .inr (List.mem_append_left _ (List.mem_reverse.mpr hv))

/-- A declaration expanded before is dropped. -/
theorem drop {t : TypeId} {d : TypeDecl} (h : p.Searched sup fresh (t :: stack) expanded)
    (hd : p.type? t = some d) (ht : t ∉ fresh) : p.Searched sup fresh stack expanded := by
  refine ⟨h.stale, h.missed, fun u v hu e => ?_⟩
  rcases h.leads u v hu e with hv | hv
  · exact .inl hv
  · rcases List.mem_cons.mp hv with rfl | hv
    · exact .inl (h.stale v (Option.isSome_of_eq_some hd) ht)
    · exact .inr hv

/-- Where nothing waits, `sup` is out of reach of all that was expanded. -/
theorem not_reaches (h : p.Searched sup fresh [] expanded) {u : TypeId} (hu : expanded u) :
    ¬ ReflTransGen p.Extends u sup := by
  intro hway
  have hall : ∀ {v}, ReflTransGen p.Extends u v → expanded v := by
    intro v hv
    induction hv with
    | refl => exact hu
    | tail _ e ih => exact (h.leads _ _ ih e).resolve_right List.not_mem_nil
  exact h.missed sup (hall hway) rfl

/-- **A search says the truth**, whatever ids it meets. -/
theorem run (h : p.Searched sup fresh stack expanded) :
    p.Answers sup stack expanded (p.searchProvides sup fresh stack) := by
  fun_induction searchProvides p sup fresh stack generalizing expanded with
  | case1 fresh => exact fun t ht => h.not_reaches (ht.resolve_right List.not_mem_nil)
  | case2 fresh stack => exact ⟨sup, List.mem_cons_self, .refl⟩
  | case3 fresh t stack ht hnone => exact ⟨rfl, t, List.mem_cons_self, t, .refl, ht, hnone⟩
  | case4 fresh t stack ht d hd hfresh hlt ih =>
    refine (ih (h.expand hd ht)).pass (fun u hu => ?_) fun u hu => ?_
    · rcases List.mem_append.mp hu with hu | hu
      · exact ⟨t, List.mem_cons_self, .single ⟨d, hd, List.mem_reverse.mp hu⟩⟩
      · exact ⟨u, List.mem_cons_of_mem _ hu, .refl⟩
    · rcases hu with hu | hu
      · exact .inl (.inl hu)
      · rcases List.mem_cons.mp hu with rfl | hu
        · exact .inl (.inr rfl)
        · exact .inr (List.mem_append_right _ hu)
  | case5 fresh t stack ht d hd hfresh ih =>
    refine (ih (h.drop hd hfresh)).pass (fun u hu => ⟨u, List.mem_cons_of_mem _ hu, .refl⟩)
      fun u hu => ?_
    rcases hu with hu | hu
    · exact .inl hu
    · rcases List.mem_cons.mp hu with rfl | hu
      · exact .inl (h.stale u (Option.isSome_of_eq_some hd) hfresh)
      · exact .inr hu

end Searched

/-! ## What the search finds -/

/-- **The whole search says the truth.** -/
theorem answers_providesTransitively (p : Program) (sub sup : TypeId) :
    p.Answers sup [sub] (fun _ => False) (p.providesTransitively sub sup) :=
  Searched.run ⟨fun _ ht hfresh => hfresh (mem_typeIds ht), nofun, nofun⟩

/-- An answer is right. -/
theorem found_iff {sub : TypeId} {found : Bool}
    (h : p.providesTransitively sub sup = .ok found) :
    found = true ↔ ReflTransGen p.Extends sub sup := by
  have hanswer := p.answers_providesTransitively sub sup
  rw [h] at hanswer
  cases found with
  | true =>
    obtain ⟨t, ht, hway⟩ := hanswer
    obtain rfl := List.mem_singleton.mp ht
    exact iff_of_true rfl hway
  | false => exact iff_of_false Bool.false_ne_true (hanswer sub (.inr List.mem_cons_self))

/-- A search that breaks off has strayed. -/
theorem strays_of_error {sub : TypeId} {f : Fault}
    (h : p.providesTransitively sub sup = .error f) : f = .unknownId ∧ p.Strays sup sub := by
  have hanswer := p.answers_providesTransitively sub sup
  rw [h] at hanswer
  obtain ⟨hf, t, ht, hstrays⟩ := hanswer
  obtain rfl := List.mem_singleton.mp ht
  exact ⟨hf, hstrays⟩

/-- Where all ids are known, only known ids are reached from a declaration. -/
theorem Known.not_strays (hp : p.Known) {sub : TypeId} (hsub : (p.type? sub).isSome = true) :
    ¬ p.Strays sup sub := by
  rintro ⟨u, hway, -, hnone⟩
  have hsome : (p.type? u).isSome = true := by
    cases hway with
    | refl => exact hsub
    | tail _ e => exact hp _ _ e
  rw [hnone] at hsome
  cases hsome

/-- **What a declaration provides at any distance is what it reaches.** -/
theorem providesTransitively_eq (hp : p.Known) (sub : TypeId)
    (hsub : (p.type? sub).isSome = true) (sup : TypeId) :
    ∃ found, p.providesTransitively sub sup = .ok found ∧
      (found = true ↔ ReflTransGen p.Extends sub sup) := by
  cases h : p.providesTransitively sub sup with
  | ok found => exact ⟨found, rfl, found_iff h⟩
  | error f => exact absurd (strays_of_error h).2 (hp.not_strays hsub)

/-- **A search ends, and says whether `sup` is reached**, on a graph of any shape, if all ids are
those of declarations.  On other graphs it may break off, and does so only where an id that names
nothing is reached, other than `sup`; what it says is right there as well. -/
theorem providesTransitively_reaches (p : Program) (sub sup : TypeId) :
    (p.Known → (p.type? sub).isSome = true → ∃ found,
      p.providesTransitively sub sup = .ok found ∧
        (found = true ↔ ReflTransGen p.Extends sub sup)) ∧
    (∀ found, p.providesTransitively sub sup = .ok found →
      (found = true ↔ ReflTransGen p.Extends sub sup)) ∧
    ∀ f, p.providesTransitively sub sup = .error f →
      f = .unknownId ∧ ∃ u, ReflTransGen p.Extends sub u ∧ u ≠ sup ∧ p.type? u = none :=
  ⟨fun hp hsub => providesTransitively_eq hp sub hsub sup, fun _ => found_iff,
    fun _ => strays_of_error⟩

/-! ## A ring with a chord, and a type beside it that names an unknown one -/

/-- Types one to three stand in a ring, type zero provides two of them, and type four a type that
there is not. -/
def ring : Program where
  types := [
    { id := ⟨0⟩, ns := "Main", name := "Top", kind := .entity, provides := [⟨1⟩, ⟨2⟩] },
    { id := ⟨1⟩, ns := "Main", name := "Left", kind := .concept, provides := [⟨2⟩] },
    { id := ⟨2⟩, ns := "Main", name := "Right", kind := .concept, provides := [⟨3⟩, ⟨2⟩] },
    { id := ⟨3⟩, ns := "Main", name := "Back", kind := .concept, provides := [⟨1⟩] }]

/-- The same beside a type that provides one that there is not. -/
def stray : Program :=
  ring.addType { id := ⟨4⟩, ns := "Main", name := "Stray", kind := .entity, provides := [⟨9⟩, ⟨3⟩] }

theorem ring_known : ring.Known := by
  rintro u v ⟨d, hd, hv⟩
  have hall : ∀ d ∈ ring.types, ∀ v ∈ d.provides, (ring.type? v).isSome = true := by decide +kernel
  exact hall d (List.mem_of_getElem? hd) v hv

/-- From the top the ring is reached and the top is not reached from it; the search from the stray
type breaks off, unless it is for the id that names nothing. -/
theorem ring_reaches : ring.Known ∧
    ring.providesTransitively ⟨0⟩ ⟨3⟩ = .ok true ∧
    ¬ ReflTransGen ring.Extends ⟨3⟩ ⟨0⟩ ∧
    stray.providesTransitively ⟨4⟩ ⟨0⟩ = .error .unknownId ∧
    ReflTransGen stray.Extends ⟨4⟩ ⟨9⟩ := by
  have hdown : ReflTransGen ring.Extends ⟨0⟩ ⟨3⟩ :=
    .head (b := ⟨2⟩) ⟨_, rfl, by decide⟩ (.single ⟨_, rfl, by decide⟩)
  obtain ⟨hfound, -, -⟩ := providesTransitively_reaches ring ⟨0⟩ ⟨3⟩
  obtain ⟨found, hrun, hiff⟩ := hfound ring_known rfl
  obtain ⟨-, hup, -⟩ := providesTransitively_reaches ring ⟨3⟩ ⟨0⟩
  obtain ⟨-, hself, -⟩ := providesTransitively_reaches stray ⟨4⟩ ⟨9⟩
  refine ⟨ring_known, by rw [hrun, hiff.mpr hdown], fun hway => ?_, by cbv,
    (hself true (by cbv)).mp rfl⟩
  exact Bool.false_ne_true ((hup false (by cbv)).mpr hway)

end Monomorph.Program
