import Mathlib.Logic.Relation
import Monomorph.Assembly.Vtables
import Monomorph.Proofs.Table.Lookup

/-!
# Assembly/Provides — the order in which concepts are completed

A concept is open from the moment it is expanded until it is done.  Above an open concept on the
stack stands only what it leads to, and among that everything it provides that is still fresh
(`Searching`).  So a concept is done after all it provides, except for what leads back to it
(`Completes.after`); where `provides` has no cycle, every provider comes first
(`Completes.provider_mem`), and what passes from providers to those that name them holds of all
concepts (`Acyclic.concept_induction`).
-/

namespace Monomorph.Assembly

open Relation

/-- The supertypes a concept names. -/
def providers (m : Assembly) (key : String) : List String :=
  ((m.concepts.get? key).map (·.provides)).getD []

/-- The concept `u` names `v` as a supertype. -/
def Provides (m : Assembly) (u v : String) : Prop :=
  v ∈ m.providers u

/-- Whatever a concept names as a supertype is a concept. -/
def ProvidesConcepts (m : Assembly) : Prop :=
  ∀ u v, m.Provides u v → m.concepts.contains v = true

/-- No concept is among its own supertypes, at any distance. -/
def Acyclic (m : Assembly) : Prop :=
  ∀ u, ¬ TransGen m.Provides u u

variable {m : Assembly} {fresh done : List String} {stack : List (String × Bool)}

theorem providers_of_get? {u : String} {d : ConceptDecl} (h : m.concepts.get? u = some d) :
    m.providers u = d.provides := by
  rw [providers, h, Option.map_some, Option.getD_some]

theorem Provides.contains {u v : String} (h : m.Provides u v) : m.concepts.contains u = true := by
  rw [Provides, providers] at h
  cases hu : m.concepts.get? u with
  | none => simp [hu] at h
  | some d => exact Table.contains_of_get? hu

/-- What is provided can be read off the table of concepts. -/
theorem forall_provides {P : String → String → Prop} :
    (∀ u v, m.Provides u v → P u v) ↔
      ∀ e ∈ m.concepts.entries, ∀ v ∈ e.2.provides, P e.1 v := by
  constructor
  · intro h e he v hv
    refine h e.1 v ?_
    rwa [Provides, providers_of_get? (Table.mem_entries.mp he)]
  · intro h u v e
    obtain ⟨d, hd⟩ := Table.contains_iff.mp e.contains
    rw [Provides, providers_of_get? hd] at e
    exact h (u, d) (Table.mem_entries.mpr hd) v e

/-- What ranks above all it leads to is on no cycle. -/
theorem not_transGen_of_rank {α : Type} {edge : α → α → Prop} (rank : α → Nat)
    (h : ∀ u v, edge u v → rank v < rank u) (u : α) : ¬ TransGen edge u u := by
  intro hcycle
  have hlt : ∀ {v w}, TransGen edge v w → rank w < rank v := by
    intro v w hway
    induction hway with
    | single e => exact h _ _ e
    | tail _ e ih => exact Nat.lt_trans (h _ _ e) ih
  exact Nat.lt_irrefl _ (hlt hcycle)

theorem acyclic_of_rank (rank : String → Nat) (h : ∀ u v, m.Provides u v → rank v < rank u) :
    m.Acyclic :=
  not_transGen_of_rank rank h

/-! ## A step of the search -/

/-- **Providers are pushed if all of them are concepts**: those still fresh, the first on top. -/
theorem pushProviders_eq_ok {key : String} {ps : List String} {stack' : List (String × Bool)} :
    m.pushProviders fresh key ps stack = .ok stack' ↔
      (∀ p ∈ ps, m.concepts.contains p = true) ∧
        stack' = (ps.reverse.filter fun p => decide (p ∈ fresh)).map (·, false) ++ stack := by
  induction ps generalizing stack with
  | nil =>
    rw [pushProviders, Except.ok.injEq, eq_comm]
    simp
  | cons p ps ih =>
    rw [pushProviders]
    by_cases hp : m.concepts.contains p = true
    · have hcond : ¬ (!m.concepts.contains p) = true := by rw [hp]; decide
      rw [if_neg hcond, ih, List.forall_mem_cons, List.reverse_cons, List.filter_append]
      by_cases hf : p ∈ fresh <;> simp [hf, hp]
    · have hcond : (!m.concepts.contains p) = true := by simpa using hp
      rw [if_pos hcond]
      constructor
      · intro h
        cases h
      · rintro ⟨hall, -⟩
        exact absurd (hall p (by simp)) hp

/-- The concepts under way, the innermost first. -/
def opened (stack : List (String × Bool)) : List String :=
  (stack.filter (·.2)).map (·.1)

@[simp] theorem opened_cons_true (k : String) (stack : List (String × Bool)) :
    opened ((k, true) :: stack) = k :: opened stack := rfl

@[simp] theorem opened_cons_false (k : String) (stack : List (String × Bool)) :
    opened ((k, false) :: stack) = opened stack := rfl

@[simp] theorem opened_waiting (ks : List String) (stack : List (String × Bool)) :
    opened (ks.map (·, false) ++ stack) = opened stack := by
  induction ks with
  | nil => rfl
  | cons k ks ih => rw [List.map_cons, List.cons_append, opened_cons_false, ih]

theorem mem_opened {k : String} : k ∈ opened stack ↔ (k, true) ∈ stack := by
  simp [opened]

/-- What holds at every step of the search. -/
structure Searching (m : Assembly) (fresh done : List String) (stack : List (String × Bool)) :
    Prop where
  nodup : (done ++ (opened stack ++ fresh)).Nodup
  concepts : ∀ k, k ∈ done ++ (opened stack ++ fresh) ↔ m.concepts.contains k = true
  /-- What has been expanded names only concepts. -/
  known : ∀ u ∈ done ++ opened stack, ∀ v, m.Provides u v → m.concepts.contains v = true
  /-- An open concept leads to whatever stands above it. -/
  way : stack.Pairwise fun a b => b.2 = true → TransGen m.Provides b.1 a.1
  /-- What an open concept provides waits above it as long as it is fresh. -/
  waits : ∀ above u below, stack = above ++ (u, true) :: below →
    ∀ v, m.Provides u v → v ∈ fresh → (v, false) ∈ above
  finished : ∀ newer u older, done = newer ++ u :: older →
    ∀ v, m.Provides u v → v ∈ older ∨ ReflTransGen m.Provides v u

namespace Searching

/-- The top of the stack is done with. -/
theorem finish {u : String} (h : Searching m fresh done ((u, true) :: stack)) :
    Searching m fresh (u :: done) stack := by
  have perm : (u :: done ++ (opened stack ++ fresh)).Perm
      (done ++ (opened ((u, true) :: stack) ++ fresh)) := List.perm_middle.symm
  have hway := List.pairwise_cons.mp h.way
  have hknown : ∀ w ∈ u :: done ++ opened stack, ∀ v, m.Provides w v →
      m.concepts.contains v = true := by
    intro w hw
    exact h.known w (by simpa [or_left_comm] using hw)
  refine ⟨perm.nodup_iff.mpr h.nodup, fun k => perm.mem_iff.trans (h.concepts k), hknown, hway.2,
    fun above w below hs v e hv => ?_, ?_⟩
  · have := h.waits ((u, true) :: above) w below (by rw [hs, List.cons_append]) v e hv
    simpa using this
  · rintro newer w older heq v e
    rcases List.cons_eq_append_iff.mp heq with ⟨rfl, hw⟩ | ⟨newer, rfl, hd⟩
    · obtain ⟨rfl, rfl⟩ := List.cons.inj hw
      -- what it provides is done, or open below it, or would still wait above it
      have hv := (h.concepts v).mpr (hknown w (by simp) v e)
      rw [List.mem_append, List.mem_append, opened_cons_true, List.mem_cons] at hv
      rcases hv with hv | (rfl | hv) | hv
      · exact .inl hv
      · exact .inr .refl
      · exact .inr (hway.1 (v, true) (mem_opened.mp hv) rfl).to_reflTransGen
      · simpa using h.waits [] w stack rfl v e hv
    · exact h.finished newer w older hd v e

/-- A concept met before is passed over. -/
theorem skip {u : String} (h : Searching m fresh done ((u, false) :: stack)) (hu : u ∉ fresh) :
    Searching m fresh done stack where
  nodup := h.nodup
  concepts := h.concepts
  known := h.known
  way := (List.pairwise_cons.mp h.way).2
  waits above w below hs v e hv := by
    have := h.waits ((u, false) :: above) w below (by rw [hs, List.cons_append]) v e hv
    rcases List.mem_cons.mp this with heq | hmem
    · obtain rfl := (Prod.mk.inj heq).1
      exact absurd hv hu
    · exact hmem
  finished := h.finished

/-- A fresh concept is opened, and what it provides waits above it. -/
theorem expand {u : String} (h : Searching m fresh done ((u, false) :: stack)) (hu : u ∈ fresh)
    (hknown : ∀ v, m.Provides u v → m.concepts.contains v = true) :
    Searching m (fresh.erase u) done
      (((m.providers u).filter fun p => decide (p ∈ fresh.erase u)).map (·, false)
        ++ (u, true) :: stack) := by
  have perm : (done ++ ((u :: opened stack) ++ fresh.erase u)).Perm
      (done ++ (opened stack ++ fresh)) := by
    refine List.Perm.append_left done ?_
    exact List.perm_middle.symm.trans ((List.perm_cons_erase hu).symm.append_left _)
  have hway := List.pairwise_cons.mp h.way
  have sub : ∀ {v}, v ∈ fresh.erase u → v ∈ fresh := List.mem_of_mem_erase
  refine ⟨?_, fun k => ?_, ?_, ?_, ?_, h.finished⟩
  · rw [opened_waiting, opened_cons_true]
    exact perm.nodup_iff.mpr h.nodup
  · rw [opened_waiting, opened_cons_true]
    exact perm.mem_iff.trans (h.concepts k)
  · intro w hw v e
    rw [opened_waiting, opened_cons_true, List.mem_append, List.mem_cons] at hw
    rcases hw with hw | rfl | hw
    · exact h.known w (List.mem_append_left _ hw) v e
    · exact hknown v e
    · exact h.known w (List.mem_append_right _ hw) v e
  · have hopen : ((u, true) :: stack).Pairwise fun a b =>
        b.2 = true → TransGen m.Provides b.1 a.1 :=
      List.pairwise_cons.mpr hway
    refine List.pairwise_append.mpr ⟨?_, hopen, ?_⟩
    · rw [List.pairwise_map]
      exact List.pairwise_of_forall fun _ _ hf => absurd hf Bool.false_ne_true
    · rintro a ha b hb hopened
      obtain ⟨v, hv, rfl⟩ := List.mem_map.mp ha
      have e : m.Provides u v := (List.mem_filter.mp hv).1
      rcases List.mem_cons.mp hb with rfl | hb
      · exact .single e
      · exact (hway.1 b hb hopened).tail e
  · intro above w below hs v e hv
    rcases List.append_eq_append_iff.mp hs with ⟨mid, rfl, hrest⟩ | ⟨mid, hwait, hrest⟩
    · rcases List.cons_eq_append_iff.mp hrest with ⟨rfl, hw⟩ | ⟨mid, rfl, hw⟩
      · obtain ⟨heq, -⟩ := List.cons.inj hw
        obtain rfl := (Prod.mk.inj heq).1
        rw [List.append_nil]
        exact List.mem_map.mpr ⟨v, List.mem_filter.mpr ⟨e, decide_eq_true hv⟩, rfl⟩
      · have := h.waits ((u, false) :: mid) w below (by rw [hw, List.cons_append]) v e (sub hv)
        rcases List.mem_cons.mp this with heq | hmem
        · obtain rfl := (Prod.mk.inj heq).1
          have hfresh := (List.nodup_append.mp (List.nodup_append.mp h.nodup).2.1).2.1
          exact absurd hv hfresh.not_mem_erase
        · exact List.mem_append_right _ (List.mem_cons_of_mem _ hmem)
    · -- nothing that waits is open
      cases mid with
      | nil =>
        obtain ⟨heq, -⟩ := List.cons.inj hrest
        obtain rfl := (Prod.mk.inj heq).1
        rw [List.append_nil] at hwait
        rw [← hwait]
        exact List.mem_map.mpr ⟨v, List.mem_filter.mpr ⟨e, decide_eq_true hv⟩, rfl⟩
      | cons x mid =>
        obtain ⟨rfl, -⟩ := List.cons.inj hrest
        have : (w, true) ∈ ((m.providers u).filter fun p => decide (p ∈ fresh.erase u)).map
            (·, false) := by rw [hwait]; simp
        obtain ⟨_, -, heq⟩ := List.mem_map.mp this
        cases heq

/-- **What a search ends with**: nothing that stood on the stack is fresh any more. -/
theorem run {fresh' done' : List String} (h : Searching m fresh done stack)
    (hres : m.searchConcepts fresh done stack = .ok (fresh', done')) :
    Searching m fresh' done' [] ∧ fresh' ⊆ fresh ∧ ∀ e ∈ stack, e.1 ∉ fresh' := by
  fun_induction searchConcepts m fresh done stack with
  | case1 =>
    obtain ⟨rfl, rfl⟩ := Prod.mk.inj (Except.ok.inj hres)
    exact ⟨h, fun _ hx => hx, by simp⟩
  | case2 fresh done u stack ih =>
    obtain ⟨hs, hsub, hgone⟩ := ih h.finish hres
    refine ⟨hs, hsub, fun e he => ?_⟩
    rcases List.mem_cons.mp he with rfl | he
    · intro hu
      have hnodup := h.nodup
      rw [opened_cons_true] at hnodup
      have := (List.nodup_append.mp hnodup).2.1
      rw [List.cons_append, List.nodup_cons] at this
      exact this.1 (List.mem_append_right _ (hsub hu))
    · exact hgone e he
  | case3 fresh done u stack hu hlt provides stack' hpush ih =>
    obtain ⟨hknown, rfl⟩ := pushProviders_eq_ok.mp hpush
    rw [List.reverse_reverse] at hpush ih hres
    obtain ⟨hs, hsub, hgone⟩ :=
      ih (h.expand hu fun v e => hknown v (List.mem_reverse.mpr e)) hres
    refine ⟨hs, fun x hx => List.mem_of_mem_erase (hsub hx), fun e he => ?_⟩
    rcases List.mem_cons.mp he with rfl | he
    · exact hgone (u, true) (by simp)
    · exact hgone e (by simp [he])
  | case4 => cases hres
  | case5 fresh done u stack hu ih =>
    obtain ⟨hs, hsub, hgone⟩ := ih (h.skip hu) hres
    refine ⟨hs, hsub, fun e he => ?_⟩
    rcases List.mem_cons.mp he with rfl | he
    · exact fun hmem => hu (hsub hmem)
    · exact hgone e he

/-- Search from each root in turn. -/
theorem runRoots {roots order : List String} (h : Searching m fresh done [])
    (hres : m.searchRoots fresh done roots = .ok order) :
    ∃ fresh', Searching m fresh' order [] ∧ fresh' ⊆ fresh ∧ ∀ k ∈ roots, k ∉ fresh' := by
  induction roots generalizing fresh done with
  | nil =>
    obtain rfl := Except.ok.inj hres
    exact ⟨fresh, h, fun _ hx => hx, by simp⟩
  | cons root roots ih =>
    rw [searchRoots] at hres
    cases hone : m.searchConcepts fresh done [(root, false)] with
    | error f =>
      rw [hone] at hres
      cases hres
    | ok found =>
      obtain ⟨fresh₁, done₁⟩ := found
      rw [hone] at hres
      -- a root on the stack is like no stack, as long as it is not expanded
      have hroot : Searching m fresh done [(root, false)] :=
        ⟨h.nodup, h.concepts, h.known, List.pairwise_singleton _ _,
          fun above u below hs => by
            rcases List.cons_eq_append_iff.mp hs with ⟨-, hu⟩ | ⟨rest, -, hu⟩
            · cases hu
            · simp at hu, h.finished⟩
      obtain ⟨hs₁, hsub₁, hgone₁⟩ := hroot.run hone
      obtain ⟨fresh', hs, hsub, hgone⟩ := ih hs₁ hres
      refine ⟨fresh', hs, fun x hx => hsub₁ (hsub hx), fun k hk => ?_⟩
      rcases List.mem_cons.mp hk with rfl | hk
      · exact fun hmem => hgone₁ (k, false) (by simp) (hsub hmem)
      · exact hgone k hk

end Searching

/-! ## The order of the concepts -/

/-- The concepts, each once, after all it provides but what leads back to it. -/
structure Completes (m : Assembly) (order : List String) : Prop where
  nodup : order.Nodup
  mem : ∀ k, k ∈ order ↔ m.concepts.contains k = true
  known : m.ProvidesConcepts
  after : ∀ before u rest, order = before ++ u :: rest →
    ∀ v, m.Provides u v → v ∈ before ∨ ReflTransGen m.Provides v u

/-- **The order found completes the concepts.** -/
theorem conceptOrder_completes {order : List String} (h : m.conceptOrder = .ok order) :
    m.Completes order := by
  rw [conceptOrder] at h
  cases hroots : m.searchRoots m.concepts.keys [] m.concepts.keys with
  | error f =>
    rw [hroots] at h
    cases h
  | ok done =>
    rw [hroots] at h
    obtain rfl := Except.ok.inj h
    have hstart : Searching m m.concepts.keys [] [] :=
      ⟨m.concepts.nodup_keys, fun k => Table.mem_keys, by simp [opened], .nil, by simp, by simp⟩
    obtain ⟨fresh, hs, hsub, hgone⟩ := hstart.runRoots hroots
    have hnone : fresh = [] := List.eq_nil_iff_forall_not_mem.mpr fun k hk => hgone k (hsub hk) hk
    subst hnone
    have hmem : ∀ k, k ∈ done ↔ m.concepts.contains k = true := fun k => by
      simpa [opened] using hs.concepts k
    refine ⟨List.nodup_reverse.mpr (by simpa [opened] using hs.nodup),
      fun k => List.mem_reverse.trans (hmem k), ?_, fun before u rest heq v e => ?_⟩
    · exact fun u v e => hs.known u (by simpa [opened] using (hmem u).mpr e.contains) v e
    · have hdone : done = rest.reverse ++ u :: before.reverse := by
        rw [← List.reverse_reverse done, heq]
        simp
      exact (hs.finished _ _ _ hdone v e).imp_left List.mem_reverse.mp

theorem searchConcepts_isOk (h : m.ProvidesConcepts) (fresh done : List String)
    (stack : List (String × Bool)) : ∃ r, m.searchConcepts fresh done stack = .ok r := by
  fun_induction searchConcepts m fresh done stack with
  | case1 => exact ⟨_, rfl⟩
  | case2 _ _ _ _ ih => exact ih
  | case3 _ _ _ _ _ _ _ _ _ ih => exact ih
  | case4 fresh done u stack hu hlt provides f hpush =>
    have hall : ∀ p ∈ provides.reverse, m.concepts.contains p = true := fun p hp =>
      h u p (List.mem_reverse.mp hp)
    rw [pushProviders_eq_ok.mpr ⟨hall, rfl⟩] at hpush
    cases hpush
  | case5 _ _ _ _ _ ih => exact ih

/-- **Where only concepts are provided, there is an order.** -/
theorem conceptOrder_isOk (h : m.ProvidesConcepts) : ∃ order, m.conceptOrder = .ok order := by
  have hroots : ∀ roots fresh done, ∃ order, m.searchRoots fresh done roots = .ok order := by
    intro roots
    induction roots with
    | nil => exact fun _ done => ⟨done, rfl⟩
    | cons root roots ih =>
      intro fresh done
      obtain ⟨⟨fresh₁, done₁⟩, hone⟩ := searchConcepts_isOk h fresh done [(root, false)]
      rw [searchRoots, hone]
      exact ih fresh₁ done₁
  obtain ⟨done, hdone⟩ := hroots m.concepts.keys m.concepts.keys []
  rw [conceptOrder, hdone]
  exact ⟨_, rfl⟩

/-- **Where nothing leads back, every provider comes first.** -/
theorem Completes.provider_mem {order before rest : List String} {u v : String}
    (h : m.Completes order) (ha : m.Acyclic) (heq : order = before ++ u :: rest)
    (e : m.Provides u v) : v ∈ before := by
  rcases h.after before u rest heq v e with hv | hback
  · exact hv
  · exact absurd (TransGen.head' e hback) (ha u)

/-- **What every concept takes over from its providers, all have.** -/
theorem Acyclic.concept_induction (ha : m.Acyclic) (hp : m.ProvidesConcepts)
    {motive : String → Prop}
    (step : ∀ u, m.concepts.contains u = true → (∀ v, m.Provides u v → motive v) → motive u)
    (u : String) (hu : m.concepts.contains u = true) : motive u := by
  obtain ⟨order, horder⟩ := conceptOrder_isOk hp
  have hc := conceptOrder_completes horder
  obtain ⟨before, rest, heq⟩ := List.append_of_mem ((hc.mem u).mpr hu)
  -- on the number of concepts done before
  induction hn : before.length using Nat.strongRecOn generalizing before rest u with
  | _ n ih =>
    refine step u hu fun v e => ?_
    obtain ⟨first, between, rfl⟩ := List.append_of_mem (hc.provider_mem ha heq e)
    refine ih first.length ?_ v (hp u v e) first (between ++ u :: rest) ?_ rfl
    · rw [← hn, List.length_append, List.length_cons]
      omega
    · rw [heq, List.append_assoc, List.cons_append]

end Monomorph.Assembly
