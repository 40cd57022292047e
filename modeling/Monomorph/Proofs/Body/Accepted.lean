import Monomorph.Proofs.Body.Finished

/-!
# Body/Accepted — what passing the checks means where control goes in circles

The checks take every block within reach once, in the depth-first order, and know at its start what
the predecessors **already taken** hand on.  So the names they know at a block are written on every
way that only goes onward in that order (`EndsOnward`, `useFaults_sound`), and of the other ways they
know nothing.

A way that goes back only to blocks it has been at passes through all the blocks of an onward way
(`Retraces.covers`), so nothing it reads comes too early; and where every loop is entered at its head
every way is of that kind (`Reducible.retraces`).  Whether a merge has an input for the block
control comes from is not looked at.  What passes is safe up to these two (`Body.accepted_safe`),
and both are real: a loop entered in its middle lets a read through that comes too early, and so
does a merge with too few inputs (`tangled_accepted`).
-/

namespace Monomorph

namespace Blocks

/-! ## Ways onward, and ways back -/

instance (bs : Blocks) (u v : String) : Decidable (bs.Edge u v) :=
  inferInstanceAs (Decidable (v ∈ bs.successors u ∧ bs.contains v = true))

/-- The checks take the block `u` before the block `v`. -/
def Before (bs : Blocks) (u v : String) : Prop :=
  ∃ newer older, bs.reversePostOrder = newer ++ v :: older ∧ u ∈ newer

/-- A way that only goes on to blocks taken later. -/
inductive Onward (bs : Blocks) : List String → String → Prop
  | entry (h : bs.contains entryLabel = true) : Onward bs [] entryLabel
  | step {before : List String} {u v : String} (h : Onward bs before u) (e : bs.Edge u v)
      (hb : bs.Before u v) : Onward bs (before ++ [u]) v

/-- A way that goes on to blocks taken later, or back to a block it has been at. -/
inductive Retraces (bs : Blocks) : List String → String → Prop
  | entry (h : bs.contains entryLabel = true) : Retraces bs [] entryLabel
  | onward {before : List String} {u v : String} (h : Retraces bs before u) (e : bs.Edge u v)
      (hb : bs.Before u v) : Retraces bs (before ++ [u]) v
  | back {before : List String} {u v : String} (h : Retraces bs before u) (e : bs.Edge u v)
      (hv : v ∈ before ++ [u]) : Retraces bs (before ++ [u]) v

/-- Every loop is entered at its head: where an edge does not lead onward, no way gets to its source
but by way of its target. -/
def Reducible (bs : Blocks) : Prop :=
  ∀ u v, bs.Edge u v → bs.Before u v ∨ ∀ before, bs.Path before u → v ∈ before ++ [u]

/-- Every merge within reach has an input for every block control can come from. -/
def MergesAll (bs : Blocks) : Prop :=
  ∀ l, ∀ o ∈ bs.opsAt l, ∀ inputs target, o.instr = .phi inputs target →
    ∀ p, bs.Reachable p → bs.Edge p l → inputs.contains p = true

/-- What the operation after others of its block reads has been written on the way there: by a merge
only what it takes from the block control comes from, if it takes anything. -/
def ReadsOn (bs : Blocks) (params before : List String) (earlier : List Op) (o : Op) : Prop :=
  match o.instr with
  | .phi inputs _ => ∀ p r, before.getLast? = some p → inputs.get? p = some r →
      bs.WrittenOn params before r.name
  | _ => ∀ r ∈ o.reads, bs.WrittenOn params before r.name ∨
      r.name ∈ (earlier.flatMap Op.writes).map Register.name

/-- A merge takes something from the block control comes from. -/
def TakesOn (before : List String) (o : Op) : Prop :=
  ∀ inputs target, o.instr = .phi inputs target → ∀ p, before.getLast? = some p →
    inputs.contains p = true

/-- **A block is safe on a way there**: every operation reads what has been written, and every merge
takes something from the block control comes from. -/
def SafeOn (bs : Blocks) (params before : List String) (l : String) : Prop :=
  ∀ earlier o later, bs.opsAt l = earlier ++ o :: later →
    bs.ReadsOn params before earlier o ∧ TakesOn before o

variable {bs : Blocks} {params : List String} {l : String}

theorem Before.mem {newer older : List String} {u v : String} (h : bs.Before u v)
    (hv : bs.reversePostOrder = newer ++ v :: older) : u ∈ newer := by
  obtain ⟨newer', older', hv', hu⟩ := h
  have hnodup := List.nodup_middle.mp (hv' ▸ bs.nodup_reversePostOrder)
  have hfresh : v ∉ newer' ++ older' := (List.nodup_cons.mp hnodup).1
  rw [List.mem_append, not_or] at hfresh
  obtain ⟨rfl, -⟩ :=
    (List.append_cons_inj_of_notMem hfresh.1 hfresh.2).mp (hv'.symm.trans hv)
  exact hu

/-- A block is taken before those at later places. -/
theorem before_of_idxOf_lt {u v : String} (hv : v ∈ bs.reversePostOrder)
    (h : bs.reversePostOrder.idxOf u < bs.reversePostOrder.idxOf v) : bs.Before u v := by
  obtain ⟨newer, older, hsplit⟩ := List.append_of_mem hv
  refine ⟨newer, older, hsplit, ?_⟩
  by_contra hu
  rw [hsplit, List.idxOf_append_of_notMem hu] at h
  have hv : (newer ++ v :: older).idxOf v ≤ newer.length := by
    by_cases hmem : v ∈ newer
    · rw [List.idxOf_append_of_mem hmem]
      exact List.idxOf_le_length
    · simp [List.idxOf_append_of_notMem hmem]
  omega

/-- Where nothing leads back, every edge within reach leads onward. -/
theorem Acyclic.edge_before (ha : bs.Acyclic) {u v : String} (hu : bs.Reachable u) (e : bs.Edge u v) :
    bs.Before u v := by
  obtain ⟨newer, older, h⟩ := List.append_of_mem (mem_reversePostOrder.mpr (hu.step e))
  exact ⟨newer, older, h, pred_mem_of_order ha h hu e⟩

theorem Acyclic.reducible (ha : bs.Acyclic) : bs.Reducible := by
  intro u v e
  by_cases hu : bs.Reachable u
  · exact .inl (ha.edge_before hu e)
  · exact .inr fun before h => absurd h.reachable hu

variable {before : List String}

theorem Retraces.path (h : bs.Retraces before l) : bs.Path before l := by
  induction h with
  | entry h => exact .entry h
  | onward _ e _ ih | back _ e _ ih => exact ih.step e

/-- **Every way through loops entered at their heads retraces itself.** -/
theorem Reducible.retraces (hr : bs.Reducible) (h : bs.Path before l) : bs.Retraces before l := by
  induction h with
  | entry h => exact .entry h
  | step h e ih =>
    rcases hr _ _ e with hb | hv
    · exact ih.onward e hb
    · exact ih.back e (hv _ h)

/-- **A way that retraces itself has an onward way in it**, to where it is and to every block it has
been at. -/
theorem Retraces.covers (h : bs.Retraces before l) :
    ∀ k ∈ before ++ [l], ∃ way, bs.Onward way k ∧ way ⊆ before := by
  induction h with
  | entry h =>
    intro k hk
    obtain rfl := List.mem_singleton.mp hk
    exact ⟨[], .entry h, List.Subset.refl _⟩
  | @onward before u v _ e hb ih =>
    intro k hk
    rcases List.mem_append.mp hk with hk | hk
    · obtain ⟨way, hway, hsub⟩ := ih k hk
      exact ⟨way, hway, List.subset_append_of_subset_left _ hsub⟩
    · obtain rfl := List.mem_singleton.mp hk
      obtain ⟨way, hway, hsub⟩ := ih u (by simp)
      exact ⟨way ++ [u], hway.step e hb, List.append_subset.mpr
        ⟨List.subset_append_of_subset_left _ hsub, List.subset_append_right _ _⟩⟩
  | @back before u v _ e hv ih =>
    intro k hk
    have hk : k ∈ before ++ [u] := by
      rcases List.mem_append.mp hk with hk | hk
      · exact hk
      · rwa [List.mem_singleton.mp hk]
    obtain ⟨way, hway, hsub⟩ := ih k hk
    exact ⟨way, hway, List.subset_append_of_subset_left _ hsub⟩

/-- Before a block there is the way to the one control comes from. -/
theorem Retraces.of_getLast? (h : bs.Retraces before l) {p : String}
    (hp : before.getLast? = some p) : ∃ way, before = way ++ [p] ∧ bs.Retraces way p := by
  cases h with
  | entry => simp at hp
  | onward h | back h =>
    rw [List.getLast?_concat] at hp
    obtain rfl := Option.some.inj hp
    exact ⟨_, rfl, h⟩

theorem WrittenOn.mono {way way' : List String} {n : String} (h : bs.WrittenOn params way n)
    (hsub : way ⊆ way') : bs.WrittenOn params way' n :=
  h.imp_right fun hn => by
    obtain ⟨l, hl, hn⟩ := List.mem_flatMap.mp hn
    exact List.mem_flatMap.mpr ⟨l, hsub hl, hn⟩

theorem writtenOn_concat {way : List String} {n : String} :
    bs.WrittenOn params (way ++ [l]) n ↔ bs.WrittenOn params way n ∨ n ∈ bs.namesAt l := by
  simp [WrittenOn, or_assoc]

/-! ## What the checks know -/

/-- The names known at the end of a block are written on every onward way to its end. -/
def EndsOnward (bs : Blocks) (params : List String) (l : String) (names : Names) : Prop :=
  ∀ n ∈ names, ∀ way, bs.Onward way l → bs.WrittenOn params (way ++ [l]) n

/-- **What an operation reads is written on every onward way**: to the end of the block the input is
from, for a merge, and to where it stands, for any other. -/
def ReadsOnward (bs : Blocks) (params : List String) (l : String) (earlier : List Op) (o : Op) :
    Prop :=
  match o.instr with
  | .phi inputs _ => ∀ p r, inputs.get? p = some r → bs.Reachable p → ∀ way, bs.Onward way p →
      bs.WrittenOn params (way ++ [p]) r.name
  | _ => ∀ r ∈ o.reads, ∀ way, bs.Onward way l → bs.WrittenOn params way r.name ∨
      r.name ∈ (earlier.flatMap Op.writes).map Register.name

variable {out : Table Names} {known : Names}

/-- The names known at the start of a block are written on every onward way to it. -/
theorem writtenOn_of_known (hout : ∀ p names, out.get? p = some names → bs.EndsOnward params p names)
    (hdone : ∀ p, bs.Before p l → out.contains p = true)
    (hknown : known = if l = entryLabel then params else
      bs.knownAtStart bs.reversePostOrder out l) {n : String} (hn : n ∈ known) {way : List String}
    (hway : bs.Onward way l) : bs.WrittenOn params way n := by
  by_cases he : l = entryLabel
  · rw [hknown, if_pos he] at hn
    exact .inl hn
  · rw [hknown, if_neg he, mem_knownAtStart] at hn
    cases hway with
    | entry => exact absurd rfl he
    | @step before u _ hu e hb =>
      obtain ⟨names, hnames⟩ := Table.contains_iff.mp (hdone u hb)
      have hreach : u ∈ bs.reversePostOrder := by
        obtain ⟨newer, older, hsplit, hmem⟩ := hb
        rw [hsplit]
        exact List.mem_append_left _ hmem
      exact hout u names hnames n (hn.2 u (mem_predecessors.mpr e.1) hreach names hnames) before hu

/-- **One block, those before it taken**: what is not at fault reads what every onward way has
written, and the names known at its end are written on every onward way to its end. -/
theorem readsFaults_sound
    (hout : ∀ p names, out.get? p = some names → bs.EndsOnward params p names)
    (hdone : ∀ p, bs.Before p l → out.contains p = true)
    (hknown : known = if l = entryLabel then params else
      bs.knownAtStart bs.reversePostOrder out l) :
    ((readsFaults bs.reversePostOrder out l known (bs.opsAt l)).1 = [] →
        ∀ earlier o later, bs.opsAt l = earlier ++ o :: later →
          bs.ReadsOnward params l earlier o) ∧
      bs.EndsOnward params l (readsFaults bs.reversePostOrder out l known (bs.opsAt l)).2 := by
  have start : ∀ {n}, n ∈ known → ∀ way, bs.Onward way l → bs.WrittenOn params way n :=
    fun hn _ hway => writtenOn_of_known hout hdone hknown hn hway
  constructor
  · intro hfaults earlier o later hsplit
    have hread := readsFaults_fst_eq_nil.mp hfaults earlier o later hsplit
    obtain ⟨pos, i⟩ := o
    cases i with
    | phi inputs target =>
      intro p r hr hp way hway
      obtain ⟨names, hnames, hmem⟩ :=
        readFaults_of_phi.mp hread p r hr (mem_reversePostOrder.mpr hp)
      exact hout p names hnames r.name hmem way hway
    | _ =>
      intro r hr way hway
      have hmem := (readFaults_of_noMerge rfl _).mp hread r hr
      exact (mem_readsFaults_snd.mp hmem).imp_left fun hn => start hn way hway
  · intro n hn way hway
    rw [writtenOn_concat]
    exact (mem_readsFaults_snd.mp hn).imp_left fun hn => start hn way hway

/-- **A run of the checks that finds nothing**: whatever is read within reach is written on every
onward way. -/
theorem useFaults_sound
    (h : bs.useFaults params bs.reversePostOrder ∅ bs.reversePostOrder = []) {earlier later : List Op}
    {o : Op} (hl : bs.Reachable l) (hsplit : bs.opsAt l = earlier ++ o :: later) :
    bs.ReadsOnward params l earlier o := by
  -- on the blocks left, with the table of those taken
  have run : ∀ rest taken out, bs.reversePostOrder = taken ++ rest →
      (∀ p names, out.get? p = some names → bs.EndsOnward params p names) →
      (∀ p ∈ taken, out.contains p = true) →
      bs.useFaults params bs.reversePostOrder out rest = [] →
      ∀ l ∈ rest, ∀ earlier o later, bs.opsAt l = earlier ++ o :: later →
        bs.ReadsOnward params l earlier o := by
    intro rest
    induction rest with
    | nil => simp
    | cons l rest ih =>
      intro taken out hr hout hdone hfaults
      obtain ⟨hhere, hlater⟩ := List.append_eq_nil_iff.mp hfaults
      obtain ⟨hgood, hends⟩ := readsFaults_sound hout (fun p hp => hdone p (hp.mem hr)) rfl
      refine List.forall_mem_cons.mpr ⟨hgood hhere, ih (taken ++ [l]) _ (by simp [hr]) ?_ ?_ hlater⟩
      · intro p names hp
        by_cases hpl : p = l
        · subst hpl
          rw [Table.get?_insert_self] at hp
          exact Option.some.inj hp ▸ hends
        · rw [Table.get?_insert_ne _ _ hpl] at hp
          exact hout p names hp
      · intro p hp
        rw [Table.contains_insert]
        rcases List.mem_append.mp hp with hp | hp
        · simp [hdone p hp]
        · simp [List.mem_singleton.mp hp]
  exact run bs.reversePostOrder [] ∅ (List.nil_append _).symm (by simp) (by simp) h l
    (mem_reversePostOrder.mpr hl) earlier o later hsplit

/-- **What every onward way has written, a way that retraces itself has written.** -/
theorem ReadsOnward.readsOn {earlier : List Op} {o : Op} (h : bs.ReadsOnward params l earlier o)
    (hw : bs.Retraces before l) : bs.ReadsOn params before earlier o := by
  obtain ⟨pos, i⟩ := o
  cases i with
  | phi inputs target =>
    intro p r hp hr
    obtain ⟨way, rfl, hway⟩ := hw.of_getLast? hp
    obtain ⟨short, hshort, hsub⟩ := hway.covers p (by simp)
    refine (h p r hr hway.path.reachable short hshort).mono (List.append_subset.mpr ?_)
    exact ⟨List.subset_append_of_subset_left _ hsub, List.subset_append_right _ _⟩
  | _ =>
    intro r hr
    obtain ⟨way, hway, hsub⟩ := hw.covers l (by simp)
    exact (h r hr way hway).imp_left fun hn => hn.mono hsub

end Blocks

open Blocks

/-- **What passes the checks is safe**, whatever its graph, on every way that goes back only to
blocks it has been at.  Where every loop is entered at its head and every merge has an input for
every block control can come from, it is safe on every way. -/
theorem Body.accepted_safe {b : Body} {params : List String} (h : b.violations params = []) :
    (∀ before l, b.blocks.Retraces before l → ∀ earlier o later,
        b.blocks.opsAt l = earlier ++ o :: later → b.blocks.ReadsOn params before earlier o) ∧
      (b.blocks.Reducible → b.blocks.MergesAll → ∀ before l, b.blocks.Path before l →
        b.blocks.SafeOn params before l) := by
  have reads : ∀ before l, b.blocks.Retraces before l → ∀ earlier o later,
      b.blocks.opsAt l = earlier ++ o :: later → b.blocks.ReadsOn params before earlier o := by
    intro before l hw earlier o later hsplit
    have huse := (Body.violations_eq_nil.mp h).2
    exact (useFaults_sound huse hw.path.reachable hsplit).readsOn hw
  refine ⟨reads, fun hr hm before l hw earlier o later hsplit => ?_⟩
  refine ⟨reads before l (hr.retraces hw) earlier o later hsplit, fun inputs target ho p hp => ?_⟩
  rcases hw.eq_nil_or_step with ⟨rfl, -⟩ | ⟨way, u, rfl, hu, e⟩
  · simp at hp
  · rw [List.getLast?_concat] at hp
    obtain rfl := Option.some.inj hp
    exact hm l o (by simp [hsplit]) inputs target ho u hu.reachable e

/-- `while p { x = 1 }`, left for a merge of `x` with the `y = 2` of the way around it. -/
def Blocks.looping : Blocks := Table.ofList [
  (entryLabel, ⟨entryLabel, [
    ⟨.synthetic, .branch (.ofVar (.ofBase "p")) "head" "side"⟩]⟩),
  ("side", ⟨"side", [
    ⟨.synthetic, .store (.literal (.int "2")) (.ofBase "y")⟩,
    ⟨.synthetic, .jump returnLabel⟩]⟩),
  ("head", ⟨"head", [
    ⟨.synthetic, .store (.literal (.int "1")) (.ofBase "x")⟩,
    ⟨.synthetic, .branch (.ofVar (.ofBase "p")) "body" returnLabel⟩]⟩),
  ("body", ⟨"body", [
    ⟨.synthetic, .debug (some (.ofVar (.ofBase "x")))⟩,
    ⟨.synthetic, .jump "head"⟩]⟩),
  (returnLabel, ⟨returnLabel, [
    ⟨.synthetic, .phi (Table.ofList [("side", .var (.ofBase "y")), ("head", .var (.ofBase "x"))])
      (.var (.ofBase "z"))⟩,
    ⟨.synthetic, .returnAssign (.ofVar (.ofBase "z")) .result⟩,
    ⟨.synthetic, .jump exitLabel⟩]⟩),
  (exitLabel, ⟨exitLabel, []⟩)]

theorem Blocks.looping_reversePostOrder : looping.reversePostOrder =
    ["entry", "side", "head", "returnassign", "exit", "body"] := by
  have hkeys : looping.keys.erase entryLabel =
      ["body", "exit", "head", "returnassign", "side"] := by decide +kernel
  have hentry : looping.successors entryLabel = ["head", "side"] := by decide +kernel
  have hside : looping.successors "side" = ["returnassign"] := by decide +kernel
  have hhead : looping.successors "head" = ["body", "returnassign"] := by decide +kernel
  have hbody : looping.successors "body" = ["head"] := by decide +kernel
  have hreturn : looping.successors "returnassign" = ["exit"] := by decide +kernel
  have hexit : looping.successors "exit" = [] := by decide +kernel
  rw [reversePostOrder, if_pos (by decide +kernel), hkeys, hentry]
  simp [search, hside, hhead, hbody, hreturn, hexit, entryLabel]

/-- Its only edge back leads to the one block its source is reached from. -/
theorem Blocks.looping_reducible : looping.Reducible := by
  intro u v e
  have edges : ∀ u ∈ looping.keys, ∀ v ∈ looping.successors u,
      v ∈ ["entry", "side", "head", "returnassign", "exit", "body"] ∧
        (["entry", "side", "head", "returnassign", "exit", "body"].idxOf u <
            ["entry", "side", "head", "returnassign", "exit", "body"].idxOf v ∨
          u = "body" ∧ v = "head") := by decide +kernel
  obtain ⟨hv, hlt | ⟨rfl, rfl⟩⟩ := edges u (mem_keys_of_edge e) v e.1
  · rw [← looping_reversePostOrder] at hv hlt
    exact .inl (before_of_idxOf_lt hv hlt)
  · refine .inr fun before h => ?_
    rcases h.eq_nil_or_step with ⟨-, h⟩ | ⟨way, p, rfl, -, hp⟩
    · exact absurd h (by decide)
    · have from_head : ∀ p ∈ looping.predecessors "body", p = "head" := by decide +kernel
      rw [from_head p (mem_predecessors.mpr hp.1)]
      simp

/-- **A loop entered at its head passes**, and is safe once around it too. -/
theorem looping_safe : (⟨"", .synthetic, looping, none⟩ : Body).violations ["p"] = [] ∧
    looping.Reducible ∧ looping.MergesAll ∧
    looping.Path ["entry", "head", "body", "head"] returnLabel ∧
    looping.SafeOn ["p"] ["entry", "head", "body", "head"] returnLabel := by
  have hpass : (⟨"", .synthetic, looping, none⟩ : Body).violations ["p"] = [] := by
    rw [Body.violations, looping_reversePostOrder]
    decide +kernel
  have hmerges : looping.MergesAll := by
    have inputs : ∀ l ∈ looping.keys, ∀ o ∈ looping.opsAt l, o.instr.isMerge = true →
        ∀ p ∈ looping.predecessors l, p ∈ o.instr.sources := by decide +kernel
    intro l o ho inputs' target hi p _ e
    have := inputs l (Table.mem_keys.mpr (contains_of_mem_opsAt ho)) o ho (by rw [hi]; rfl) p
      (mem_predecessors.mpr e.1)
    rw [hi] at this
    exact Table.mem_keys.mp this
  have hentry : looping.Path [] entryLabel := .entry (by decide +kernel)
  have hhead : looping.Path ["entry"] "head" := hentry.step (by decide +kernel)
  have hbody : looping.Path ["entry", "head"] "body" := hhead.step (by decide +kernel)
  have hagain : looping.Path ["entry", "head", "body"] "head" := hbody.step (by decide +kernel)
  have hway : looping.Path ["entry", "head", "body", "head"] returnLabel :=
    hagain.step (by decide +kernel)
  exact ⟨hpass, looping_reducible, hmerges, hway,
    (Body.accepted_safe hpass).2 looping_reducible hmerges _ _ hway⟩

/-- A loop of `top` and `middle`, entered at `top` with `x` stored and at `middle` without. -/
def Blocks.tangled : Blocks := Table.ofList [
  (entryLabel, ⟨entryLabel, [
    ⟨.synthetic, .branch (.ofVar (.ofBase "p")) "left" "right"⟩]⟩),
  ("left", ⟨"left", [
    ⟨.synthetic, .store (.literal (.int "1")) (.ofBase "x")⟩,
    ⟨.synthetic, .jump "top"⟩]⟩),
  ("right", ⟨"right", [⟨.synthetic, .jump "middle"⟩]⟩),
  ("top", ⟨"top", [
    ⟨.synthetic, .debug (some (.ofVar (.ofBase "x")))⟩,
    ⟨.synthetic, .jump "middle"⟩]⟩),
  ("middle", ⟨"middle", [
    ⟨.synthetic, .branch (.ofVar (.ofBase "p")) "top" returnLabel⟩]⟩),
  (returnLabel, ⟨returnLabel, [⟨.synthetic, .jump exitLabel⟩]⟩),
  (exitLabel, ⟨exitLabel, []⟩)]

theorem Blocks.tangled_reversePostOrder : tangled.reversePostOrder =
    ["entry", "right", "left", "top", "middle", "returnassign", "exit"] := by
  have hkeys : tangled.keys.erase entryLabel =
      ["exit", "left", "middle", "returnassign", "right", "top"] := by decide +kernel
  have hentry : tangled.successors entryLabel = ["left", "right"] := by decide +kernel
  have hleft : tangled.successors "left" = ["top"] := by decide +kernel
  have hright : tangled.successors "right" = ["middle"] := by decide +kernel
  have htop : tangled.successors "top" = ["middle"] := by decide +kernel
  have hmiddle : tangled.successors "middle" = ["top", "returnassign"] := by decide +kernel
  have hreturn : tangled.successors "returnassign" = ["exit"] := by decide +kernel
  have hexit : tangled.successors "exit" = [] := by decide +kernel
  rw [reversePostOrder, if_pos (by decide +kernel), hkeys, hentry]
  simp [search, hleft, hright, htop, hmiddle, hreturn, hexit, entryLabel]

/-- `if p { x = 1 }`, left for a merge that has an input from one of the two ways only. -/
def Blocks.gaping : Blocks := Table.ofList [
  (entryLabel, ⟨entryLabel, [
    ⟨.synthetic, .branch (.ofVar (.ofBase "p")) "then" returnLabel⟩]⟩),
  ("then", ⟨"then", [
    ⟨.synthetic, .store (.literal (.int "1")) (.ofBase "x")⟩,
    ⟨.synthetic, .jump returnLabel⟩]⟩),
  (returnLabel, ⟨returnLabel, [
    ⟨.synthetic, .phi (Table.ofList [("then", .var (.ofBase "x"))]) (.var (.ofBase "y"))⟩,
    ⟨.synthetic, .returnAssign (.ofVar (.ofBase "y")) .result⟩,
    ⟨.synthetic, .jump exitLabel⟩]⟩),
  (exitLabel, ⟨exitLabel, []⟩)]

theorem Blocks.gaping_reversePostOrder : gaping.reversePostOrder =
    ["entry", "then", "returnassign", "exit"] := by
  have hkeys : gaping.keys.erase entryLabel = ["exit", "returnassign", "then"] := by
    decide +kernel
  have hentry : gaping.successors entryLabel = ["then", "returnassign"] := by decide +kernel
  have hthen : gaping.successors "then" = ["returnassign"] := by decide +kernel
  have hreturn : gaping.successors "returnassign" = ["exit"] := by decide +kernel
  have hexit : gaping.successors "exit" = [] := by decide +kernel
  rw [reversePostOrder, if_pos (by decide +kernel), hkeys, hentry]
  simp [search, hthen, hreturn, hexit, entryLabel]

/-- **Neither loops entered in their middle nor merges with too few inputs are safe**, though both
pass: one way reads `x` though nothing on it writes `x`, another comes from a block that the merge
has no input for. -/
theorem tangled_accepted :
    (⟨"", .synthetic, tangled, none⟩ : Body).violations ["p"] = [] ∧
      tangled.Path ["entry", "right", "middle"] "top" ∧
      ¬ tangled.SafeOn ["p"] ["entry", "right", "middle"] "top" ∧
    (⟨"", .synthetic, gaping, none⟩ : Body).violations ["p"] = [] ∧
      gaping.Path ["entry"] returnLabel ∧ ¬ gaping.SafeOn ["p"] ["entry"] returnLabel := by
  have htangled : (⟨"", .synthetic, tangled, none⟩ : Body).violations ["p"] = [] := by
    rw [Body.violations, tangled_reversePostOrder]
    decide +kernel
  have hgaping : (⟨"", .synthetic, gaping, none⟩ : Body).violations ["p"] = [] := by
    rw [Body.violations, gaping_reversePostOrder]
    decide +kernel
  have hentry : tangled.Path [] entryLabel := .entry (by decide +kernel)
  have hright : tangled.Path ["entry"] "right" := hentry.step (by decide +kernel)
  have hmiddle : tangled.Path ["entry", "right"] "middle" := hright.step (by decide +kernel)
  have hstart : gaping.Path [] entryLabel := .entry (by decide +kernel)
  refine ⟨htangled, hmiddle.step (by decide +kernel), fun hsafe => ?_, hgaping,
    hstart.step (by decide +kernel), fun hsafe => ?_⟩
  · have hreads : tangled.WrittenOn ["p"] ["entry", "right", "middle"] "x" ∨ "x" ∈ [] :=
      (hsafe [] ⟨.synthetic, .debug (some (.ofVar (.ofBase "x")))⟩
        [⟨.synthetic, .jump "middle"⟩] (by decide +kernel)).1 (.var (.ofBase "x"))
        (by decide +kernel)
    have hunwritten : "x" ∉ ["p"] ∧ "x" ∉ ["entry", "right", "middle"].flatMap tangled.namesAt := by
      decide +kernel
    rcases hreads with (h | h) | h
    · exact hunwritten.1 h
    · exact hunwritten.2 h
    · cases h
  · have htakes := (hsafe [] _ _ (by decide +kernel : gaping.opsAt returnLabel = [] ++
      ⟨.synthetic, .phi (Table.ofList [("then", .var (.ofBase "x"))]) (.var (.ofBase "y"))⟩ :: [
        ⟨.synthetic, .returnAssign (.ofVar (.ofBase "y")) .result⟩,
        ⟨.synthetic, .jump exitLabel⟩])).2 _ _ rfl entryLabel rfl
    exact absurd htakes (by decide +kernel)

end Monomorph
