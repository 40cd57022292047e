import Monomorph.Failure
import Monomorph.Proofs.Result

/-!
# Union/Laws — unions that are known by the keys of their options

A union has the keys of its members' options and no others, and is known by them (`KnownByKeys`).
So nothing else can show in it: not in which order the members came, nor how often, nor which of
them were joined before the others (`Grouping`).  **The laws of a union** (`UnionLaws`) all come
from this (`KnownByKeys.laws`), whatever its options are.
-/

namespace Monomorph

/-! ## Groups -/

/-- Members of a union, some of them joined beforehand: in groups, and groups in groups. -/
inductive Grouping (τ : Type)
  | one (t : τ)
  | group (gs : List (Grouping τ))

namespace Grouping

variable {τ : Type}

mutual

/-- The members, from left to right. -/
def members : Grouping τ → List τ
  | .one t => [t]
  | .group gs => allMembers gs

def allMembers : List (Grouping τ) → List τ
  | [] => []
  | g :: gs => g.members ++ allMembers gs

end

mutual

/-- There is something in every group. -/
def Filled : Grouping τ → Prop
  | .one _ => True
  | .group gs => gs ≠ [] ∧ AllFilled gs

def AllFilled : List (Grouping τ) → Prop
  | [] => True
  | g :: gs => g.Filled ∧ AllFilled gs

end

mutual

/-- The union of the unions of the groups, from the inside out. -/
def joined (join : List τ → Except Fault τ) : Grouping τ → Except Fault τ
  | .one t => .ok t
  | .group gs => do join (← joinedAll join gs)

def joinedAll (join : List τ → Except Fault τ) : List (Grouping τ) → Except Fault (List τ)
  | [] => .ok []
  | g :: gs => do return (← g.joined join) :: (← joinedAll join gs)

end

end Grouping

/-! ## The laws -/

section

variable {τ ω : Type} (join : List τ → Except Fault τ) (options : τ → List ω) (key : ω → String)
  (good : τ → Prop)

/-- **The laws of a union** of members of one sort. -/
structure UnionLaws : Prop where
  /-- There is a union of all members given, unless there are none, and it can be joined again. -/
  exists_join : ∀ ts, ts ≠ [] → (∀ t ∈ ts, good t) → ∃ t, join ts = .ok t ∧ good t
  comm : ∀ t u, good t → good u → join [t, u] = join [u, t]
  assoc : ∀ t u v, good t → good u → good v →
    (do join [← join [t, u], v]) = (do join [t, ← join [u, v]])
  idem : ∀ t, good t → join [t, t] = .ok t
  /-- Groups can be formed at will. -/
  exists_joined : ∀ g : Grouping τ, g.Filled → (∀ t ∈ g.members, good t) →
    ∃ t, g.joined join = .ok t ∧ good t
  /-- In any groups, any order and any number the same members have one union. -/
  regroup : ∀ (g g' : Grouping τ) (t t' : τ), (∀ u ∈ g.members, good u) →
    (∀ u, u ∈ g.members ↔ u ∈ g'.members) → g.joined join = .ok t → g'.joined join = .ok t' → t = t'
  /-- A union has the keys of its members' options and no others. -/
  mem_keys : ∀ ts t, join ts = .ok t →
    ∀ k, k ∈ (options t).map key ↔ ∃ u ∈ ts, k ∈ (options u).map key
  /-- The options stand in the order of their keys, each key once. -/
  increasing : ∀ ts t, (∀ u ∈ ts, good u) → join ts = .ok t →
    (options t).Pairwise fun a b => key a < key b
  /-- Unions are told apart by the keys of their options. -/
  eq_iff : ∀ ts us t u, (∀ v ∈ ts, good v) → (∀ v ∈ us, good v) → join ts = .ok t →
    join us = .ok u → (t = u ↔ ∀ k, k ∈ (options t).map key ↔ k ∈ (options u).map key)

/-- **What the laws come from**: a union of members of one sort is of this sort, has the keys of its
members' options, in order, and is known by them. -/
structure KnownByKeys : Prop where
  exists_join : ∀ ts, ts ≠ [] → (∀ t ∈ ts, good t) → ∃ t, join ts = .ok t
  good_join : ∀ ts t, (∀ u ∈ ts, good u) → join ts = .ok t → good t
  mem_keys : ∀ ts t, join ts = .ok t →
    ∀ k, k ∈ (options t).map key ↔ ∃ u ∈ ts, k ∈ (options u).map key
  sorted : ∀ t, good t → (options t).Pairwise fun a b => key a < key b
  ext : ∀ t u, good t → good u →
    (∀ k, k ∈ (options t).map key ↔ k ∈ (options u).map key) → t = u

end

namespace KnownByKeys

variable {τ ω : Type} {join : List τ → Except Fault τ} {options : τ → List ω} {key : ω → String}
  {good : τ → Prop}

/-- Members with the same keys have one union. -/
theorem join_congr (h : KnownByKeys join options key good) {ts us : List τ} (hts : ts ≠ [])
    (hus : us ≠ []) (ht : ∀ t ∈ ts, good t) (hu : ∀ u ∈ us, good u)
    (hkeys : ∀ k, (∃ t ∈ ts, k ∈ (options t).map key) ↔ ∃ u ∈ us, k ∈ (options u).map key) :
    join ts = join us := by
  obtain ⟨t, hjoin⟩ := h.exists_join ts hts ht
  obtain ⟨u, hjoin'⟩ := h.exists_join us hus hu
  rw [hjoin, hjoin', h.ext t u (h.good_join ts t ht hjoin) (h.good_join us u hu hjoin') fun k => by
    rw [h.mem_keys ts t hjoin, h.mem_keys us u hjoin', hkeys]]

/-! ### Groups -/

mutual

/-- **The union of groups has the keys of all the members.** -/
theorem joined (h : KnownByKeys join options key good) : (g : Grouping τ) →
    (∀ u ∈ g.members, good u) → ∀ t, g.joined join = .ok t → good t ∧
      ∀ k, k ∈ (options t).map key ↔ ∃ u ∈ g.members, k ∈ (options u).map key
  | .one u, hu, t, ht => by
    obtain rfl := Except.ok.inj ht
    simpa [Grouping.members] using hu
  | .group gs, hgs, t, ht => by
    obtain ⟨ts, hts, hjoin⟩ := bind_eq_ok.mp ht
    obtain ⟨hgood, hkeys⟩ := joinedAll h gs hgs ts hts
    exact ⟨h.good_join ts t hgood hjoin, fun k => (h.mem_keys ts t hjoin k).trans (hkeys k)⟩

theorem joinedAll (h : KnownByKeys join options key good) : (gs : List (Grouping τ)) →
    (∀ u ∈ Grouping.allMembers gs, good u) → ∀ ts, Grouping.joinedAll join gs = .ok ts →
      (∀ t ∈ ts, good t) ∧ ∀ k, (∃ t ∈ ts, k ∈ (options t).map key) ↔
        ∃ u ∈ Grouping.allMembers gs, k ∈ (options u).map key
  | [], _, ts, hts => by
    obtain rfl := Except.ok.inj hts
    simp [Grouping.allMembers]
  | g :: gs, hgs, ts, hts => by
    obtain ⟨t, ht, hrest⟩ := bind_eq_ok.mp hts
    obtain ⟨rest, hall, hcons⟩ := bind_eq_ok.mp hrest
    obtain rfl := Except.ok.inj hcons
    rw [Grouping.allMembers] at hgs ⊢
    obtain ⟨hg, hgs⟩ := List.forall_mem_append.mp hgs
    obtain ⟨hgood, hkeys⟩ := joined h g hg t ht
    obtain ⟨hgoods, hkeys'⟩ := joinedAll h gs hgs rest hall
    refine ⟨List.forall_mem_cons.mpr ⟨hgood, hgoods⟩, fun k => ?_⟩
    simp only [List.exists_mem_cons_iff, List.mem_append, or_and_right, exists_or, hkeys k,
      hkeys' k]

end

mutual

/-- Groups with something in each have a union. -/
theorem exists_joined (h : KnownByKeys join options key good) : (g : Grouping τ) → g.Filled →
    (∀ u ∈ g.members, good u) → ∃ t, g.joined join = .ok t
  | .one t, _, _ => ⟨t, rfl⟩
  | .group gs, hfilled, hgs => by
    obtain ⟨ts, hts, hne⟩ := exists_joinedAll h gs hfilled.2 hgs
    obtain ⟨t, ht⟩ := h.exists_join ts (hne hfilled.1) (joinedAll h gs hgs ts hts).1
    exact ⟨t, bind_eq_ok.mpr ⟨ts, hts, ht⟩⟩

theorem exists_joinedAll (h : KnownByKeys join options key good) : (gs : List (Grouping τ)) →
    Grouping.AllFilled gs → (∀ u ∈ Grouping.allMembers gs, good u) →
      ∃ ts, Grouping.joinedAll join gs = .ok ts ∧ (gs ≠ [] → ts ≠ [])
  | [], _, _ => ⟨[], rfl, fun hne => absurd rfl hne⟩
  | g :: gs, hfilled, hgs => by
    rw [Grouping.allMembers] at hgs
    obtain ⟨hg, hgs⟩ := List.forall_mem_append.mp hgs
    obtain ⟨t, ht⟩ := exists_joined h g hfilled.1 hg
    obtain ⟨ts, hts, -⟩ := exists_joinedAll h gs hfilled.2 hgs
    exact ⟨t :: ts, bind_eq_ok.mpr ⟨t, ht, bind_eq_ok.mpr ⟨ts, hts, rfl⟩⟩,
      fun _ => List.cons_ne_nil t ts⟩

end

/-! ### All laws from one -/

theorem assoc (h : KnownByKeys join options key good) {t u v : τ} (ht : good t) (hu : good u)
    (hv : good v) : (do join [← join [t, u], v]) = (do join [t, ← join [u, v]]) := by
  have hleft : ∀ w ∈ [t, u], good w := by simp [ht, hu]
  have hright : ∀ w ∈ [u, v], good w := by simp [hu, hv]
  obtain ⟨x, hx⟩ := h.exists_join [t, u] (by simp) hleft
  obtain ⟨y, hy⟩ := h.exists_join [u, v] (by simp) hright
  have hgood : good x ∧ good y := ⟨h.good_join _ x hleft hx, h.good_join _ y hright hy⟩
  rw [hx, hy]
  refine h.join_congr (by simp) (by simp) (by simp [hgood, hv]) (by simp [hgood, ht]) fun k => ?_
  simp only [List.exists_mem_cons_iff, List.not_mem_nil, false_and, exists_false, or_false,
    h.mem_keys _ x hx, h.mem_keys _ y hy, or_assoc]

/-- **A union known by the keys of its options has all the laws of a union.** -/
theorem laws (h : KnownByKeys join options key good) : UnionLaws join options key good where
  exists_join ts hne hts := by
    obtain ⟨t, ht⟩ := h.exists_join ts hne hts
    exact ⟨t, ht, h.good_join ts t hts ht⟩
  comm t u ht hu := by
    refine h.join_congr (by simp) (by simp) (by simp [ht, hu]) (by simp [ht, hu]) fun k => ?_
    simp [or_comm]
  assoc _ _ _ := h.assoc
  idem t ht := by
    obtain ⟨u, hu⟩ := h.exists_join [t, t] (by simp) (by simp [ht])
    rw [hu, h.ext u t (h.good_join _ u (by simp [ht]) hu) ht fun k => by simp [h.mem_keys _ u hu]]
  exists_joined g hg hts := by
    obtain ⟨t, ht⟩ := h.exists_joined g hg hts
    exact ⟨t, ht, (h.joined g hts t ht).1⟩
  regroup g g' t t' hts hsame ht ht' := by
    obtain ⟨hgood, hkeys⟩ := h.joined g hts t ht
    obtain ⟨hgood', hkeys'⟩ := h.joined g' (fun u hu => hts u ((hsame u).mpr hu)) t' ht'
    exact h.ext t t' hgood hgood' fun k => by simp only [hkeys k, hkeys' k, hsame]
  mem_keys := h.mem_keys
  increasing ts t hts ht := h.sorted t (h.good_join ts t hts ht)
  eq_iff ts us t u hts hus ht hu :=
    ⟨fun heq => heq ▸ fun _ => Iff.rfl,
      h.ext t u (h.good_join ts t hts ht) (h.good_join us u hus hu)⟩

end KnownByKeys

end Monomorph
