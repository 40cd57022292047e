import Monomorph.Proofs.Graph.Search
import Monomorph.Proofs.Ssa.Merges

/-!
# Ssa/Conversion — what a converted body is made of

Blocks are taken with every predecessor done, so a block within reach begins with what all its
predecessors end with (`Starts`), runs its own operations under those versions (`Row`), and hands
its last versions on.  That is all there is to a converted body (`Converted`): neither the counters
nor the order of the blocks are left in it.  **Conversion succeeds** wherever labels exist and
nothing within reach leads back (`toSsa_eq_ok`).
-/

namespace Monomorph

open Versions

namespace Blocks

/-! ## Bodies that can be converted -/

/-- A name a body uses: a parameter, or the base of a register. -/
def Mentions (bs : Blocks) (params : List String) (n : String) : Prop :=
  n ∈ params ∨ ∃ o ∈ bs.allOps, ∃ r ∈ o.reads ++ o.writes, r.base = n

/-- A body as it is written, before any name has a version. -/
structure Convertible (bs : Blocks) (params : List String) : Prop where
  noMerge : ∀ o ∈ bs.allOps, o.instr.isMerge = false
  unversioned : ∀ o ∈ bs.allOps, ∀ r ∈ o.reads ++ o.writes, r.name = r.base
  closed : bs.Closed
  acyclic : bs.Acyclic
  apart : Apart (bs.Mentions params)

variable {bs bs' : Blocks} {params : List String}

theorem Convertible.raw (h : bs.Convertible params) {o : Op} (ho : o ∈ bs.allOps) :
    o.Raw (bs.Mentions params) where
  noMerge := h.noMerge o ho
  unversioned := h.unversioned o ho
  known r hr := .inr ⟨o, ho, r, hr, rfl⟩

theorem Convertible.raw_opsAt (h : bs.Convertible params) {l : String} :
    ∀ o ∈ bs.opsAt l, o.Raw (bs.Mentions params) :=
  fun _ ho => h.raw (mem_allOps_of_opsAt ho)

/-! ## Versions between blocks -/

/-- The versions at `entry`: every parameter under its own name. -/
def seed (params : List String) : Versions :=
  Table.ofList (params.map fun p => (p, .var (.ofBase p)))

theorem get?_seed (params : List String) (b : String) :
    (seed params).get? b = if b ∈ params then some (.var (.ofBase b)) else none := by
  have hall : ∀ e ∈ params.map (fun p => (p, Register.var (.ofBase p))), e.1 = b →
      e.2 = .var (.ofBase b) := by
    rintro e he rfl
    obtain ⟨p, -, rfl⟩ := List.mem_map.mp he
    rfl
  rw [seed, Table.get?_ofList hall]
  simp [Function.comp_def]

theorem contains_seed {b : String} : (seed params).contains b = true ↔ b ∈ params := by
  rw [Table.contains, get?_seed]
  by_cases h : b ∈ params <;> simp [h]

theorem sound_seed : (seed params).Sound (bs.Mentions params) := by
  intro b w hw
  rw [get?_seed] at hw
  split at hw
  · obtain rfl := Option.some.inj hw
    exact ⟨.inl ‹_›, rfl, .self b⟩
  · cases hw

/-- What the predecessors within reach end with. -/
def incoming (bs : Blocks) (out : Table Versions) (l : String) : Incoming :=
  ((bs.predecessors l).filter fun p => decide (p ∈ bs.reversePostOrder)).filterMap fun p =>
    (out.get? p).map fun v => (p, v)

/-- The versions and the merges a block within reach begins with. -/
inductive Starts (bs : Blocks) (params : List String) (out : Table Versions) :
    String → Versions → List Op → Prop
  | entry : Starts bs params out entryLabel (seed params) []
  | merge {l : String} {start : Versions} {phis : List Op} (hl : l ≠ entryLabel)
      (h : Merged (bs.incoming out l) (bs.incoming out l).shared ∅ start phis) :
      Starts bs params out l start phis

/-- **A body and its conversion**: `out` are the versions the blocks end with. -/
structure Converted (bs bs' : Blocks) (params : List String) (out : Table Versions) : Prop where
  labels : ∀ l, bs'.contains l = bs.contains l
  sound : ∀ l v, out.get? l = some v → v.Sound (bs.Mentions params)
  block : ∀ l b, bs.get? l = some b → ∃ start phis ops atEnd,
    bs'.get? l = some { b with ops := phis ++ ops } ∧ (∀ o ∈ phis, o.instr.isMerge = true) ∧
      Row start b.ops ops atEnd ∧
      (bs.Reachable l → out.get? l = some atEnd ∧ bs.Starts params out l start phis)
  nodup : (bs'.keys.flatMap bs'.namesAt).Nodup
  notParam : ∀ n ∈ bs'.keys.flatMap bs'.namesAt, n ∉ params

/-! ## Predecessors of a block within reach -/

theorem mem_incoming {out : Table Versions} {l p : String} {v : Versions}
    (hl : bs.contains l = true) :
    (p, v) ∈ bs.incoming out l ↔ (bs.Reachable p ∧ bs.Edge p l) ∧ out.get? p = some v := by
  rw [incoming, List.mem_filterMap]
  simp only [List.mem_filter, decide_eq_true_eq, mem_reversePostOrder,
    mem_predecessors_iff_edge hl]
  constructor
  · rintro ⟨q, ⟨he, hr⟩, hq⟩
    obtain ⟨w, hw, hpair⟩ := Option.map_eq_some_iff.mp hq
    obtain ⟨rfl, rfl⟩ := Prod.mk.inj hpair
    exact ⟨⟨hr, he⟩, hw⟩
  · rintro ⟨⟨hr, he⟩, hv⟩
    exact ⟨p, ⟨he, hr⟩, by rw [hv]; rfl⟩

theorem distinct_incoming (bs : Blocks) (out : Table Versions) (l : String) :
    (bs.incoming out l).Distinct := by
  have key : ∀ ps : List String, ((ps.filterMap fun p =>
      (out.get? p).map fun v => (p, v)).map (·.1)).Sublist ps := by
    intro ps
    induction ps with
    | nil => exact .slnil
    | cons p ps ih =>
      rw [List.filterMap_cons]
      cases out.get? p with
      | none => exact ih.cons p
      | some v => exact ih.cons_cons p
  exact (bs.nodup_predecessors l).sublist ((key _).trans List.filter_sublist)

theorem incoming_congr {out out' : Table Versions} {l : String}
    (h : ∀ p, bs.Reachable p → l ∈ bs.successors p → out'.get? p = out.get? p) :
    bs.incoming out' l = bs.incoming out l := by
  refine List.filterMap_congr fun p hp => ?_
  obtain ⟨hp, hr⟩ := List.mem_filter.mp hp
  rw [h p (mem_reversePostOrder.mp (of_decide_eq_true hr)) (mem_predecessors.mp hp)]

theorem sound_start {out : Table Versions} {l : String} {start : Versions} {phis : List Op}
    (ho : ∀ p v, out.get? p = some v → v.Sound (bs.Mentions params)) (hl : bs.contains l = true)
    (h : bs.Starts params out l start phis) : start.Sound (bs.Mentions params) := by
  cases h with
  | entry => exact sound_seed
  | merge _ h =>
    refine h.sound (fun b w hw => by cases hw) fun b r hr => ?_
    obtain ⟨⟨⟨p, v⟩, hp, hv⟩, -⟩ := Incoming.shared_spec hr
    exact ho p v ((mem_incoming hl).mp hp).2 b r hv

/-! ## One block -/

theorem namesAt_insert_self (bs : Blocks) (l : String) (b : Block) :
    namesAt (bs.insert l b) l = (b.ops.flatMap Op.writes).map Register.name := by
  rw [namesAt, opsAt, Table.get?_insert_self]

/-- A block that is put in place changes no name of another. -/
theorem flatMap_namesAt_insert {done : List String} {l : String} (hl : l ∉ done) (bs : Blocks)
    (b : Block) : done.flatMap (namesAt (bs.insert l b)) = done.flatMap bs.namesAt := by
  refine List.flatMap_congr fun k hk => ?_
  rw [namesAt, namesAt, opsAt, opsAt, Table.get?_insert_ne _ _ (ne_of_mem_of_not_mem hk hl)]

/-- What holds while blocks are taken in turn, whatever the body. -/
structure Taking (bs : Blocks) (done : List String) (st : SsaState) : Prop where
  labels : ∀ l, st.blocks.contains l = bs.contains l
  out : ∀ l, bs.contains l = true → (st.out.contains l = true ↔ l ∈ done)

theorem taking_nil (bs : Blocks) (s : Naming) : bs.Taking [] ⟨bs, ∅, s⟩ where
  labels _ := rfl
  out l _ := by simp [Table.contains]

/-- One more block is taken. -/
theorem Taking.insert {done : List String} {st : SsaState} {l : String} {b : Block} {v : Versions}
    {s : Naming} (h : bs.Taking done st) (hl : bs.contains l = true) :
    bs.Taking (done ++ [l]) ⟨st.blocks.insert l b, st.out.insert l v, s⟩ where
  labels k := by
    rw [Table.contains_insert, h.labels]
    by_cases hk : k = l
    · simp [hk, hl]
    · simp [hk]
  out k hk := by
    rw [Table.contains_insert, Bool.or_eq_true, decide_eq_true_eq, h.out k hk, List.mem_append,
      List.mem_singleton, or_comm]

/-- The blocks still to come are as they were. -/
def Untouched (bs : Blocks) (done : List String) (st : SsaState) : Prop :=
  ∀ l, l ∉ done → st.blocks.get? l = bs.get? l

theorem Untouched.insert {done : List String} {st : SsaState} (h : bs.Untouched done st)
    (l : String) (b : Block) (out : Table Versions) (s : Naming) :
    bs.Untouched (done ++ [l]) ⟨st.blocks.insert l b, out, s⟩ := by
  intro k hk
  rw [List.mem_append, List.mem_singleton, not_or] at hk
  exact (Table.get?_insert_ne _ _ hk.2).trans (h k hk.1)

/-- What holds while the blocks of a body as it is written are converted. -/
structure Converting (bs : Blocks) (params done : List String) (st : SsaState) : Prop
    extends bs.Taking done st where
  untouched : ∀ l, l ∉ done → st.blocks.get? l = bs.get? l
  sound : ∀ l v, st.out.get? l = some v → v.Sound (bs.Mentions params)
  block : ∀ l ∈ done, ∀ b, bs.get? l = some b → ∃ start phis ops atEnd,
    st.blocks.get? l = some { b with ops := phis ++ ops } ∧ (∀ o ∈ phis, o.instr.isMerge = true) ∧
      Row start b.ops ops atEnd ∧ st.out.get? l = some atEnd ∧
      (bs.Reachable l → (∀ p, bs.Reachable p → l ∈ bs.successors p → p ∈ done) ∧
        bs.Starts params st.out l start phis)
  issued : Naming.Issues (bs.Mentions params) ⟨params, ∅, false⟩
    (done.flatMap (Blocks.namesAt st.blocks)) st.naming

theorem converting_nil (bs : Blocks) (params : List String) :
    bs.Converting params [] ⟨bs, ∅, ⟨params, ∅, false⟩⟩ where
  toTaking := bs.taking_nil _
  untouched _ _ := rfl
  sound l v h := by cases h
  block l h := by cases h
  issued := .done _

/-- The predecessors that count for a block: those within reach, for a block within reach. -/
def counted (bs : Blocks) (l : String) : List String :=
  (bs.predecessors l).filter fun p =>
    !decide (l ∈ bs.reversePostOrder) || decide (p ∈ bs.reversePostOrder)

theorem counted_of_reachable {l : String} (hl : bs.Reachable l) :
    bs.counted l = (bs.predecessors l).filter fun p => decide (p ∈ bs.reversePostOrder) := by
  rw [counted, decide_eq_true (mem_reversePostOrder.mpr hl)]
  rfl

/-- What the predecessors that count end with, as far as they are done. -/
def arriving (bs : Blocks) (out : Table Versions) (l : String) : Incoming :=
  (bs.counted l).filterMap fun p => (out.get? p).map fun v => (p, v)

theorem arriving_of_reachable {out : Table Versions} {l : String} (hl : bs.Reachable l) :
    bs.arriving out l = bs.incoming out l := by
  rw [arriving, incoming, counted_of_reachable hl]

/-- The versions and merges a block begins with, and the naming after them. -/
def begin (params : List String) (s : Naming) (inc : Incoming) (l : String) :
    Versions × List Op × Naming :=
  if l = entryLabel then (seed params, [], s) else s.merge inc

theorem begin_spec {s : Naming} {inc : Incoming} {l : String}
    (hinc : ∀ p ∈ inc, p.2.Sound (bs.Mentions params)) :
    (begin params s inc l).1.Sound (bs.Mentions params) ∧
      (∀ o ∈ (begin params s inc l).2.1, o.instr.isMerge = true) ∧
      Naming.Issues (bs.Mentions params) s
        (((begin params s inc l).2.1.flatMap Op.writes).map Register.name)
        (begin params s inc l).2.2 ∧
      (l ≠ entryLabel →
        Merged inc inc.shared ∅ (begin params s inc l).1 (begin params s inc l).2.1) := by
  by_cases hl : l = entryLabel
  · rw [begin, if_pos hl]
    exact ⟨sound_seed, by simp, .done _, fun h => absurd hl h⟩
  · have hk : ∀ b r, (b, r) ∈ inc.shared → bs.Mentions params b ∧ r.base = b ∧
        Versioned b r.name := by
      intro b r hr
      obtain ⟨⟨p, hp, hv⟩, -⟩ := Incoming.shared_spec hr
      exact hinc p hp b r hv
    obtain ⟨hm, hi⟩ := Naming.mergeAll_spec inc (fun e he => (hk e.1 e.2 he).1) s ∅
    rw [begin, if_neg hl, Naming.merge_eq]
    exact ⟨hm.sound (fun b w hw => by cases hw) hk, hm.isMerge, hi, fun _ => hm⟩

theorem ssaBlock_eq_match (st : SsaState) (l : String) :
    bs.ssaBlock params bs.reversePostOrder st l
      = match if decide (l ∈ bs.reversePostOrder) = true then
          (bs.counted l).find? fun p => !st.out.contains p else none with
        | some p => .error (.cyclicBlocks p l)
        | none =>
          let (versions, phis, naming) := begin params st.naming (bs.arriving st.out l) l
          match st.blocks.get? l with
          | none => .ok { st with naming }
          | some b =>
            let (ops, naming, versions) := naming.ops versions b.ops
            .ok ⟨st.blocks.insert l { b with ops := phis ++ ops },
              st.out.insert l versions, naming⟩ := rfl

/-- **A block whose predecessors are done is converted**: its merges, its operations, and the
versions it ends with. -/
theorem ssaBlock_eq {st : SsaState} {l : String} {b : Block} (hb : st.blocks.get? l = some b)
    (hp : bs.Reachable l → ∀ p ∈ bs.counted l, st.out.contains p = true) {start : Versions}
    {phis ops : List Op} {s t : Naming} {atEnd : Versions}
    (hs : begin params st.naming (bs.arriving st.out l) l = (start, phis, s))
    (ho : s.ops start b.ops = (ops, t, atEnd)) :
    bs.ssaBlock params bs.reversePostOrder st l
      = .ok ⟨st.blocks.insert l { b with ops := phis ++ ops }, st.out.insert l atEnd, t⟩ := by
  have hfind : (if decide (l ∈ bs.reversePostOrder) = true then
      (bs.counted l).find? fun p => !st.out.contains p else none) = none := by
    split
    · have hr := mem_reversePostOrder.mp (of_decide_eq_true ‹_›)
      exact List.find?_eq_none.mpr fun p hmem => by simp [hp hr p hmem]
    · rfl
  rw [ssaBlock_eq_match, hfind]
  simp only [hs, hb, ho]

/-- The state once one more block is converted. -/
theorem Converting.insert (hc : bs.Convertible params) {done : List String} {st : SsaState}
    {l : String} {b : Block} (h : bs.Converting params done st) (hb : bs.get? l = some b)
    (hd : l ∉ done) (hpred : bs.Reachable l → ∀ p, bs.Reachable p → l ∈ bs.successors p → p ∈ done)
    {start atEnd : Versions} {phis ops : List Op} {t : Naming}
    (hs : start.Sound (bs.Mentions params))
    (hphi : ∀ o ∈ phis, o.instr.isMerge = true) (hrow : Row start b.ops ops atEnd)
    (hst : bs.Reachable l → bs.Starts params st.out l start phis)
    (hi : Naming.Issues (bs.Mentions params) st.naming
      (((phis ++ ops).flatMap Op.writes).map Register.name) t) :
    bs.Converting params (done ++ [l])
      ⟨st.blocks.insert l { b with ops := phis ++ ops }, st.out.insert l atEnd, t⟩ := by
  have hget : ∀ k, k ≠ l → (st.blocks.insert l { b with ops := phis ++ ops }).get? k
      = st.blocks.get? k := fun k hk => Table.get?_insert_ne _ _ hk
  have hout : ∀ k, k ≠ l → (st.out.insert l atEnd).get? k = st.out.get? k :=
    fun k hk => Table.get?_insert_ne _ _ hk
  have hne : ∀ {k}, k ∈ done → k ≠ l := fun hk he => hd (he ▸ hk)
  -- what predecessors that are done end with stays what it is
  have hstarts : ∀ {k start phis}, (∀ p, bs.Reachable p → k ∈ bs.successors p → p ∈ done) →
      bs.Starts params st.out k start phis →
      bs.Starts params (st.out.insert l atEnd) k start phis := by
    intro k start phis hp hk
    have hsame : bs.incoming (st.out.insert l atEnd) k = bs.incoming st.out k :=
      incoming_congr fun p hpr e => hout p (hne (hp p hpr e))
    cases hk with
    | entry => exact .entry
    | merge hke hm => exact .merge hke (hsame ▸ hm)
  refine ⟨h.toTaking.insert (Table.contains_of_get? hb),
    Untouched.insert h.untouched l _ _ _, fun k v hv => ?_, fun k hk c hck => ?_, ?_⟩
  · rw [Table.get?_insert] at hv
    split at hv
    · obtain rfl := Option.some.inj hv
      exact hrow.sound hs fun o ho => hc.raw (mem_allOps.mpr ⟨l, b, hb, ho⟩)
    · exact h.sound k v hv
  · rcases List.mem_append.mp hk with hk | hk
    · obtain ⟨start, phis, ops, last, hk', hphis, hrow, hend, hr⟩ := h.block k hk c hck
      refine ⟨start, phis, ops, last, (hget k (hne hk)).trans hk', hphis, hrow,
        (hout k (hne hk)).trans hend, fun hkr => ?_⟩
      obtain ⟨hp, hst⟩ := hr hkr
      exact ⟨fun p hpr e => List.mem_append_left _ (hp p hpr e), hstarts hp hst⟩
    · obtain rfl := List.mem_singleton.mp hk
      obtain rfl := Option.some.inj (hck.symm.trans hb)
      refine ⟨start, phis, ops, atEnd, Table.get?_insert_self _ _ _, hphi, hrow,
        Table.get?_insert_self _ _ _, fun hkr => ?_⟩
      exact ⟨fun p hpr e => List.mem_append_left _ (hpred hkr p hpr e),
        hstarts (hpred hkr) (hst hkr)⟩
  · rw [List.flatMap_append, flatMap_namesAt_insert hd, List.flatMap_singleton,
      namesAt_insert_self]
    exact h.issued.append hi

/-- **One block is converted** once its predecessors within reach are. -/
theorem Converting.step (hc : bs.Convertible params) {done : List String} {st : SsaState}
    {l : String} (h : bs.Converting params done st) (hl : bs.contains l = true) (hd : l ∉ done)
    (hpred : bs.Reachable l → ∀ p, bs.Reachable p → bs.Edge p l → p ∈ done) :
    ∃ st', bs.ssaBlock params bs.reversePostOrder st l = .ok st' ∧
      bs.Converting params (done ++ [l]) st' := by
  obtain ⟨b, hb⟩ := Table.contains_iff.mp hl
  have harr : ∀ p ∈ bs.arriving st.out l, p.2.Sound (bs.Mentions params) := by
    intro p hp
    obtain ⟨q, -, hq⟩ := List.mem_filterMap.mp hp
    obtain ⟨v, hv, rfl⟩ := Option.map_eq_some_iff.mp hq
    exact h.sound q v hv
  have hcounted : bs.Reachable l → ∀ p ∈ bs.counted l, st.out.contains p = true := by
    intro hr p hp
    rw [counted_of_reachable hr, List.mem_filter, mem_predecessors_iff_edge hl] at hp
    have hpr := mem_reversePostOrder.mp (of_decide_eq_true hp.2)
    exact (h.out p hpr.contains).mpr (hpred hr p hpr hp.1)
  obtain ⟨hs, hphi, hi, hm⟩ := begin_spec (s := st.naming) (l := l) harr
  rcases hbegin : begin params st.naming (bs.arriving st.out l) l with ⟨start, phis, s⟩
  rw [hbegin] at hs hphi hi hm
  obtain ⟨hrow, hi'⟩ := Naming.ops_spec s start fun o ho => hc.raw (mem_allOps.mpr ⟨l, b, hb, ho⟩)
  rcases hops : s.ops start b.ops with ⟨ops, t, atEnd⟩
  rw [hops] at hrow hi'
  refine ⟨_, ssaBlock_eq ((h.untouched l hd).trans hb) hcounted hbegin hops, ?_⟩
  refine h.insert hc hb hd (fun hr p hpr e => hpred hr p hpr ⟨e, hl⟩) hs hphi hrow ?_ ?_
  · intro hr
    rw [arriving_of_reachable hr] at hbegin hm
    by_cases he : l = entryLabel
    · subst he
      rw [begin, if_pos rfl] at hbegin
      obtain ⟨rfl, hrest⟩ := Prod.mk.inj hbegin
      obtain ⟨rfl, -⟩ := Prod.mk.inj hrest
      exact .entry
    · exact .merge he (hm he)
  · rw [List.flatMap_append, List.map_append]
    exact hi.append hi'

/-! ## All blocks -/

/-- The predecessors within reach of a block come before it in the order of conversion. -/
theorem pred_mem_of_split (ha : bs.Acyclic) {done rest : List String} {l p : String}
    (h : bs.order = done ++ l :: rest) (hl : bs.Reachable l) (hp : bs.Reachable p)
    (e : bs.Edge p l) : p ∈ done :=
  (pred_mem_or_leads_of_split h hl hp e).resolve_right fun hback =>
    ha p hp (Relation.TransGen.head' e hback)

/-- **All blocks are converted in turn.** -/
theorem Converting.run (hc : bs.Convertible params) {done rest : List String} {st : SsaState}
    (h : bs.Converting params done st) (hr : bs.order = done ++ rest) :
    ∃ st', bs.ssaFrom params bs.reversePostOrder st rest = .ok st' ∧
      bs.Converting params bs.order st' := by
  induction rest generalizing done st with
  | nil =>
    rw [List.append_nil] at hr
    exact ⟨st, rfl, hr ▸ h⟩
  | cons l rest ih =>
    have hnodup := bs.nodup_order
    rw [hr, List.nodup_middle, List.nodup_cons, List.mem_append, not_or] at hnodup
    obtain ⟨st', hst', h'⟩ := h.step hc (mem_order.mp (by simp [hr])) hnodup.1.1
      fun hl p hp e => pred_mem_of_split hc.acyclic hr hl hp e
    obtain ⟨st'', hst'', h''⟩ := ih h' (by simp [hr])
    exact ⟨st'', by rw [ssaFrom, hst']; exact hst'', h''⟩

/-- What is left once every block is converted. -/
theorem Converting.converted (hc : bs.Convertible params) {st : SsaState}
    (h : bs.Converting params bs.order st) : bs.Converted st.blocks params st.out where
  labels := h.labels
  sound := h.sound
  block l b hb := by
    obtain ⟨start, phis, ops, atEnd, hl, hphi, hrow, hend, hr⟩ :=
      h.block l (mem_order.mpr (Table.contains_of_get? hb)) b hb
    exact ⟨start, phis, ops, atEnd, hl, hphi, hrow, fun hlr => ⟨hend, (hr hlr).2⟩⟩
  nodup := by
    have hkeys : st.blocks.keys = bs.keys := Table.keys_eq_of_contains h.labels
    rw [hkeys, ← (bs.order_perm_keys.flatMap_right _).nodup_iff]
    exact h.issued.nodup hc.apart
  notParam n hn := by
    have hkeys : st.blocks.keys = bs.keys := Table.keys_eq_of_contains h.labels
    rw [hkeys, ← (bs.order_perm_keys.flatMap_right _).mem_iff] at hn
    exact fun hp => h.issued.not_mem_of_defined hc.apart (.inl hp) hp hn

theorem undefinedTarget?_eq_none (h : bs.Closed) : bs.undefinedTarget? = none := by
  rw [undefinedTarget?, List.findSome?_eq_none_iff]
  intro b hb
  obtain ⟨l, hl⟩ := Table.mem_values.mp hb
  have hfind : b.successors.find? (fun l => !bs.contains l) = none :=
    List.find?_eq_none.mpr fun k hk => by
      simp [h l k (by rw [successors_of_get? hl]; exact hk)]
  rw [hfind]
  rfl

/-- **Conversion succeeds.** -/
theorem toSsa_eq_ok (hc : bs.Convertible params) :
    ∃ bs' changed out, bs.toSsa params = .ok (bs', changed) ∧ bs.Converted bs' params out := by
  obtain ⟨st, hst, h⟩ := (converting_nil bs params).run hc (List.nil_append _).symm
  refine ⟨st.blocks, st.naming.changed, st.out, ?_, h.converted hc⟩
  rw [toSsa, undefinedTarget?_eq_none hc.closed]
  simp only [hst]
  rfl

end Blocks

end Monomorph
