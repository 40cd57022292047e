import Monomorph.Proofs.Result
import Monomorph.Proofs.Ssa.Checked
import Monomorph.Proofs.Typing.Complete
import Monomorph.Proofs.Typing.Inputs

/-!
# Typing/Merges — what the type of a merge covers

A merge into a local that was declared by then, in the order of the pass, has the type declared
last, and any other merge the union of the types it merges.  The union covers each of them
(`TypeSource.covers_join`).  What is declared is looked up under the name before conversion, so a
merge and its inputs may come by the types of different declarations.  If every way to a store
declares the local, **all that is written of a declared local was declared before**, merges included
(`Converted.declared_of_written`), so each input has one of the types given to the local.  Hence the
type of a merge covers its inputs if it covers every type the local is given
(`TypeSource.infer_covers`), and does not where two scopes side by side use one name for two types
(`siblings_uncovered`).
-/

namespace Monomorph

/-- Look-ups that all succeed, one by one. -/
theorem Listing.map_of_mapM {α β : Type} {f : α → Option β} {l : List α} {l' : List β}
    (h : l.mapM f = some l') : l.map f = l'.map some := by
  induction l generalizing l' with
  | nil =>
    obtain rfl := Option.some.inj h
    rfl
  | cons a l ih =>
    rw [List.mapM_cons] at h
    obtain ⟨b, hb, h⟩ := Option.bind_eq_some_iff.mp h
    obtain ⟨bs, hbs, h⟩ := Option.bind_eq_some_iff.mp h
    obtain rfl := Option.some.inj h
    rw [List.map_cons, List.map_cons, hb, ih hbs]

namespace TypeSource

/-! ## Options -/

/-- The options of a type, by their keys: of an interned type, and of a union of options of interned
types, whether it is interned or not. -/
inductive HasOptions (s : TypeSource) : String → List String → Prop
  | interned {t : String} {i : Interned} (h : s.assembly.types.get? t = some i) :
      HasOptions s t (i.options.map Shape.key)
  | union (os : List Shape)
      (h : ∀ o ∈ os, ∃ t i, s.assembly.types.get? t = some i ∧ o ∈ i.options) :
      HasOptions s (Interned.ofShapes os).key ((Interned.ofShapes os).options.map Shape.key)

/-- The options of the type `t'` are among those of the type `t`. -/
def Covers (s : TypeSource) (t t' : String) : Prop :=
  t' = t ∨ ∃ os os', s.HasOptions t os ∧ s.HasOptions t' os' ∧ os' ⊆ os

variable {s : TypeSource}

/-- **A union covers what it is made of.** -/
theorem covers_join {ts : List String} {t u : String} (h : s.join ts = some u) (ht : t ∈ ts) :
    s.Covers u t := by
  rw [← Listing.mem_distinct] at ht
  rw [join] at h
  split at h
  case h_1 hd => exact absurd (hd ▸ ht) List.not_mem_nil
  case h_2 t₀ hd =>
    obtain rfl := Option.some.inj h
    exact .inl (List.mem_singleton.mp (hd ▸ ht))
  case h_3 =>
    obtain ⟨options, hoptions, h⟩ := Option.bind_eq_some_iff.mp h
    obtain rfl := Option.some.inj h
    have heach := Listing.map_of_mapM hoptions
    obtain ⟨os, hos, hlookup⟩ := List.mem_map.mp (heach ▸ List.mem_map_of_mem ht)
    obtain ⟨i, hi, rfl⟩ := Option.map_eq_some_iff.mp hlookup.symm
    refine .inr ⟨_, _, .union options.flatten fun o ho => ?_, .interned hi, fun k hk => ?_⟩
    · obtain ⟨os, hos, ho⟩ := List.mem_flatten.mp ho
      obtain ⟨t', -, ht'⟩ := List.mem_map.mp (heach.symm ▸ List.mem_map_of_mem hos)
      obtain ⟨i', hi', rfl⟩ := Option.map_eq_some_iff.mp ht'
      exact ⟨t', i', hi', ho⟩
    · obtain ⟨o, ho, rfl⟩ := List.mem_map.mp hk
      exact Listing.mem_map_distinctBy.mpr
        (List.mem_map_of_mem (List.mem_flatten.mpr ⟨_, hos, ho⟩))

/-- The type of a merge covers the types of its inputs, as far as they have types. -/
def CoversInputs (s : TypeSource) (types : Table String) (inputs : Table Register)
    (target : Register) : Prop :=
  ∀ t, types.get? target.name = some t →
    ∀ r ∈ inputs.values, ∀ t', types.get? r.name = some t' → s.Covers t t'

/-- The union of the types of the inputs covers them. -/
theorem coversInputs_of_merged {types : Table String} {inputs : Table Register} {target : Register}
    (h : types.get? target.name = s.merged types inputs) : s.CoversInputs types inputs target := by
  intro t ht r hr t' ht'
  exact covers_join (h.symm.trans ht) (List.mem_filterMap.mpr ⟨r, hr, ht'⟩)

end TypeSource

/-- The names of the locals a row of operations declares. -/
def declaredNames (ops : List Op) : List String :=
  (declaredBy ops).map (·.1)

/-- The types a body gives to names outright: to parameters, and to the locals it declares. -/
def namedTypes (params : List Param) (ops : List Op) : List (String × String) :=
  (params.map fun q => (q.name, q.type)) ++ declaredBy ops

theorem declaredBy_subset {ops ops' : List Op} (h : ops ⊆ ops') :
    declaredBy ops ⊆ declaredBy ops' := by
  intro e he
  obtain ⟨o, ho, hdeclares⟩ := List.mem_filterMap.mp he
  exact List.mem_filterMap.mpr ⟨o, h ho, hdeclares⟩

/-- A local has the type declared last. -/
theorem get?_declared_last (ops : List Op) (pos : Position) (n t : String) :
    (Table.ofList (declaredBy (ops ++ [⟨pos, .lifetimeStart n t⟩]))).get? n = some t := by
  rw [declaredBy, List.filterMap_append, Table.ofList, List.foldl_append]
  exact Table.get?_insert_self ..

/-- **What is stored in a local is of the type declared.**  What is declared within reach is a
local, written by stores and merges; and whichever way control gets to a store into it, the type
declared last and the type of what is stored are interned, and the one covers the other. -/
structure Blocks.StoresCovered (bs : Blocks) (s : TypeSource) (types : Table String) : Prop where
  stored : ∀ o ∈ bs.reachedOps, ∀ r ∈ o.writes, r.base ∈ declaredNames bs.reachedOps →
    (∃ a v, o.instr = .store a v) ∨ ∃ inputs v, o.instr = .phi inputs (.var v)
  covered : ∀ before l, bs.Path before l → ∀ earlier pos a v later,
    bs.opsAt l = earlier ++ ⟨pos, .store a v⟩ :: later → v.base ∈ declaredNames bs.reachedOps →
    ∃ t t', (Table.ofList (declaredBy (before.flatMap bs.opsAt ++ earlier))).get? v.base = some t ∧
      s.operand ⟨types, ∅⟩ a = some t' ∧ s.Interns t ∧ s.Interns t' ∧ s.Covers t t'

/-! ## What is declared before -/

namespace Blocks.Converted

variable {bs : Blocks} {b' : Body} {params : List String} {out : Table Versions}

/-- **What is written of a declared local was declared before**, in the order of the pass. -/
theorem declared_of_written (h : Converted bs b'.blocks params out) (hc : bs.Convertible params)
    (hw : bs.WellShaped) (hd : bs.DefinitelyAssigned params) {s : TypeSource} {types : Table String}
    (hs : b'.blocks.StoresCovered s types) {pre post : List Op} {o : Op}
    (hsplit : b'.blocks.reachedOps = pre ++ o :: post) {w : Register} (hwrites : w ∈ o.writes)
    (hlocal : w.base ∈ declaredNames b'.blocks.reachedOps) : w.base ∈ declaredNames pre := by
  -- by the length of what is before: a merge takes something written earlier
  induction hn : pre.length using Nat.strongRecOn generalizing pre o post w with
  | ind n ih =>
    have ho : o ∈ b'.blocks.reachedOps := by simp [hsplit]
    obtain ⟨pos, i⟩ := o
    rcases hs.stored _ ho w hwrites hlocal with ⟨a, v, rfl⟩ | ⟨inputs, v, rfl⟩
    · obtain rfl : Register.var v = w := Option.some.inj (Option.mem_toList.mp hwrites)
      obtain ⟨newer, l, older, earlier, later, horder, hops, rfl⟩ :=
        Listing.flatMap_eq_append_cons hsplit
      obtain ⟨way, hway⟩ : b'.blocks.Reachable l := mem_reversePostOrder.mp (by simp [horder])
      obtain ⟨t, -, ht, -⟩ := hs.covered way l hway earlier pos a v later hops hlocal
      have hway : ∀ k ∈ way, k ∈ newer := fun k hk =>
        ((hway.onward (h.sameGraph.acyclic hc.acyclic)).before k hk).mem horder
      have hsub : way.flatMap b'.blocks.opsAt ++ earlier ⊆
          newer.flatMap b'.blocks.opsAt ++ earlier := by
        intro x hx
        rw [List.mem_append, List.mem_flatMap] at hx ⊢
        exact hx.imp_left fun ⟨k, hk, hx⟩ => ⟨k, hway k hk, hx⟩
      exact List.mem_map_of_mem (declaredBy_subset hsub (Table.mem_of_get?_ofList ht))
    · obtain rfl : Register.var v = w := Option.some.inj (Option.mem_toList.mp hwrites)
      obtain ⟨r, -, hbase, o, ho, hr⟩ := h.exists_written hc hw hd hsplit
      obtain ⟨pre', mid, rfl⟩ := List.append_of_mem ho
      rw [← hbase] at hlocal ⊢
      have hearlier : b'.blocks.reachedOps =
          pre' ++ o :: (mid ++ ⟨pos, .phi inputs (.var v)⟩ :: post) := by
        rw [hsplit, List.append_assoc, List.cons_append]
      have hlt : pre'.length < n := by
        rw [← hn, List.length_append]
        exact Nat.lt_add_of_pos_right (by simp)
      exact List.map_subset _ (declaredBy_subset (List.subset_append_left ..))
        (ih _ hlt hearlier hr hlocal rfl)

end Blocks.Converted

namespace TypeSource

open Blocks

variable {s : TypeSource} {params : List Param}

section

variable {bs : Blocks} {b' : Body} {out : Table Versions} {pre post : List Op}
  (h : Converted bs b'.blocks (params.map (·.name)) out)
  (hc : bs.Convertible (params.map (·.name))) (hw : bs.WellShaped)
  (hd : bs.DefinitelyAssigned (params.map (·.name)))
  (hs : b'.blocks.StoresCovered s (s.infer b' params))

include h hc hw hd hs

/-- **What is written of a declared local** has one of the types it is declared with. -/
theorem exists_declared_of_written {o : Op} (hsplit : b'.blocks.reachedOps = pre ++ o :: post)
    {r : Register} (hwrites : r ∈ o.writes)
    (hlocal : r.base ∈ declaredNames b'.blocks.reachedOps) :
    ∃ t, (s.infer b' params).get? r.name = some t ∧
      (r.base, t) ∈ declaredBy b'.blocks.reachedOps := by
  have hdeclared := h.declared_of_written hc hw hd hs hsplit hwrites hlocal
  obtain ⟨t, ht⟩ := Table.contains_iff.mp (Table.contains_ofList hdeclared)
  have hmem : (r.base, t) ∈ declaredBy b'.blocks.reachedOps :=
    declaredBy_subset (by simp [hsplit]) (Table.mem_of_get?_ofList ht)
  obtain ⟨later, horder⟩ := exists_orderedOps hsplit
  refine ⟨t, ?_, hmem⟩
  rw [get?_infer_of_written (h.violations_eq_nil hc hw hd rfl) horder hwrites]
  rw [← declared_met s params] at ht
  rcases hs.stored o (by simp [hsplit]) r hwrites hlocal with ⟨a, v, hi⟩ | ⟨_, v, hi⟩
  all_goals
    obtain rfl : Register.var v = r :=
      Option.some.inj (Option.mem_toList.mp (by rwa [Op.writes, hi] at hwrites))
    rw [hi, written]
    exact congrArg (Option.or · _) ht

/-- **What a merge of a declared local takes** has one of the types given to the local. -/
theorem mem_namedTypes_of_input {pos : Position} {inputs : Table Register} {target r : Register}
    (hsplit : b'.blocks.reachedOps = pre ++ ⟨pos, .phi inputs target⟩ :: post)
    (hlocal : target.base ∈ declaredNames b'.blocks.reachedOps) (hr : r ∈ inputs.values)
    {t : String} (ht : (s.infer b' params).get? r.name = some t) :
    (target.base, t) ∈ namedTypes params b'.blocks.reachedOps := by
  obtain ⟨hbase, ⟨hparam, rfl⟩ | ⟨o, ho, hwrites⟩⟩ := h.of_input hc hw hd hsplit hr
  · rw [Register.name, Var.ofBase, get?_infer_of_known (h.violations_eq_nil hc hw hd rfl)
      (List.nil_append _).symm (.inl hparam)] at ht
    exact List.mem_append_left _ (Table.mem_of_get?_ofList ht)
  · obtain ⟨pre, mid, rfl⟩ := List.append_of_mem ho
    rw [List.append_assoc, List.cons_append] at hsplit
    rw [← hbase] at hlocal ⊢
    obtain ⟨u, hu, hmem⟩ := exists_declared_of_written h hc hw hd hs hsplit hwrites hlocal
    obtain rfl := Option.some.inj (hu.symm.trans ht)
    exact List.mem_append_right _ hmem

end

/-- **What the type of a merge covers.**  A body that can be converted, is well shaped and assigns
what it reads is converted.  If what it stores in locals is of the types declared, a merge within
reach whose base is not declared covers the types of its inputs.  One whose base is declared has a
type declared for it, and covers the types of its inputs if that type covers all types given to the
local. -/
theorem infer_covers {b : Body} (hc : b.blocks.Convertible (params.map (·.name)))
    (hw : b.blocks.WellShaped) (hd : b.blocks.DefinitelyAssigned (params.map (·.name))) :
    ∃ b' changed, (Pass.ssa (params.map (·.name))).run b = .ok (b', changed) ∧
      let types := s.infer b' params
      let ops := b'.blocks.reachedOps
      (b'.blocks.StoresCovered s types → ∀ l, b'.blocks.Reachable l → ∀ pos inputs target,
        (⟨pos, .phi inputs target⟩ : Op) ∈ b'.blocks.opsAt l →
        (target.base ∉ declaredNames ops → s.CoversInputs types inputs target) ∧
        (target.base ∈ declaredNames ops → ∃ t, types.get? target.name = some t ∧
          (target.base, t) ∈ declaredBy ops ∧
          ((∀ u, (target.base, u) ∈ namedTypes params ops → s.Covers t u) →
            s.CoversInputs types inputs target))) := by
  obtain ⟨bs', changed, out, hssa, h⟩ := toSsa_eq_ok hc
  refine ⟨{ b with blocks := bs' }, changed, by simp only [Pass.ssa, hssa]; rfl, ?_⟩
  intro types ops hs l hl pos inputs target ho
  obtain ⟨pre, post, hsplit⟩ := List.append_of_mem (mem_reachedOps.mpr ⟨l, hl, ho⟩)
  refine ⟨fun hopen => ?_, fun hlocal => ?_⟩
  · have hundeclared : Undeclared pre target := by
      cases target with
      | temp => trivial
      | var v =>
        exact fun hv => hopen (List.map_subset _ (declaredBy_subset (by simp [ops, hsplit])) hv)
    obtain ⟨k, hmerge⟩ := exists_openMerge hsplit hundeclared
    exact coversInputs_of_merged (get?_infer_of_openMerge (h.sameGraph.acyclic hc.acyclic)
      (h.violations_eq_nil hc hw hd rfl) (h.mergesReached hc) hmerge)
  · obtain ⟨t, ht, hmem⟩ := exists_declared_of_written h hc hw hd hs hsplit
      (Option.mem_toList.mpr rfl) hlocal
    refine ⟨t, ht, hmem, fun hall t' ht' r hr u hu => ?_⟩
    obtain rfl := Option.some.inj (ht.symm.trans ht')
    exact hall u (mem_namedTypes_of_input h hc hw hd hs hsplit hlocal hr hu)

end TypeSource

/-! ## Scopes side by side

A local `x` in each arm of a branch, dead where the arms meet; conversion merges it nevertheless. -/

/-- `if p then {x = 1} else {x = c}`, where the first `x` is an `Int` and the second a `t`. -/
def Blocks.siblings (t : String) (c : Literal) : Blocks := Table.ofList [
  (entryLabel, ⟨entryLabel, [
    ⟨.synthetic, .branch (.ofVar (.ofBase "p")) "left" "right"⟩]⟩),
  ("left", ⟨"left", [
    ⟨.synthetic, .lifetimeStart "x" "Core::Int"⟩,
    ⟨.synthetic, .store (.literal (.int "1")) (.ofBase "x")⟩,
    ⟨.synthetic, .lifetimeEnd "x"⟩,
    ⟨.synthetic, .jump returnLabel⟩]⟩),
  ("right", ⟨"right", [
    ⟨.synthetic, .lifetimeStart "x" t⟩,
    ⟨.synthetic, .store (.literal c) (.ofBase "x")⟩,
    ⟨.synthetic, .lifetimeEnd "x"⟩,
    ⟨.synthetic, .jump returnLabel⟩]⟩),
  (returnLabel, ⟨returnLabel, [
    ⟨.synthetic, .returnAssign (.literal (.bool true)) .result⟩,
    ⟨.synthetic, .jump exitLabel⟩]⟩),
  (exitLabel, ⟨exitLabel, []⟩)]

/-- What the arms end with: the block on the right is taken first and keeps the name. -/
def Blocks.armEnds : Table Register :=
  Table.ofList [("left", .var ⟨"x", "x$1"⟩), ("right", .var (.ofBase "x"))]

/-- The scopes as they are converted. -/
def Blocks.siblingsSsa (t : String) (c : Literal) : Blocks := Table.ofList [
  (entryLabel, ⟨entryLabel, [
    ⟨.synthetic, .branch (.ofVar (.ofBase "p")) "left" "right"⟩]⟩),
  ("left", ⟨"left", [
    ⟨.synthetic, .lifetimeStart "x" "Core::Int"⟩,
    ⟨.synthetic, .store (.literal (.int "1")) ⟨"x", "x$1"⟩⟩,
    ⟨.synthetic, .lifetimeEnd "x"⟩,
    ⟨.synthetic, .jump returnLabel⟩]⟩),
  ("right", ⟨"right", [
    ⟨.synthetic, .lifetimeStart "x" t⟩,
    ⟨.synthetic, .store (.literal c) (.ofBase "x")⟩,
    ⟨.synthetic, .lifetimeEnd "x"⟩,
    ⟨.synthetic, .jump returnLabel⟩]⟩),
  (returnLabel, ⟨returnLabel, [
    mergeOp armEnds (.var ⟨"x", "x$2"⟩),
    ⟨.synthetic, .returnAssign (.literal (.bool true)) .result⟩,
    ⟨.synthetic, .jump exitLabel⟩]⟩),
  (exitLabel, ⟨exitLabel, []⟩)]

/-- The types and the values of the second local that are looked at below. -/
def Blocks.armValues : List (String × Literal) :=
  [("Core::Int", .int "2"), ("Core::String", .string "s")]

/-- The order in which the blocks are taken. -/
def Blocks.siblingsOrder : List String :=
  ["entry", "right", "left", "returnassign", "exit"]

namespace Blocks

/-- What evaluation tells of the scopes, as they are written and as they are converted. -/
structure Evaluated (t : String) (c : Literal) : Prop where
  noMerge : ∀ o ∈ (siblings t c).allOps, o.instr.isMerge = false
  unversioned : ∀ o ∈ (siblings t c).allOps, ∀ r ∈ o.reads ++ o.writes, r.name = r.base
  closed : ∀ u ∈ (siblings t c).keys, ∀ v ∈ (siblings t c).successors u,
    (siblings t c).contains v = true
  rising : ∀ u ∈ (siblings t c).keys, ∀ v ∈ (siblings t c).successors u,
    siblingsOrder.idxOf u < siblingsOrder.idxOf v
  apart : ∀ n ∈ (siblings t c).names ["p"], ∀ m ∈ (siblings t c).names ["p"],
    ¬ (m.toList ++ ['$']) <+: n.toList
  shape : (siblings t c).missingBlocks = [] ∧ (siblings t c).terminatorFaults = []
  reads : ∀ u ∈ (siblings t c).keys, ∀ o ∈ (siblings t c).opsAt u, ∀ r ∈ o.reads,
    u = entryLabel ∧ r.base = "p"
  keys : (siblings t c).keys = ["entry", "exit", "left", "returnassign", "right"]
  successors : siblingsOrder.map (siblings t c).successors =
    [["left", "right"], ["returnassign"], ["returnassign"], ["exit"], []]
  run : ((siblings t c).ssaFrom ["p"] siblingsOrder ⟨siblings t c, ∅, ⟨["p"], ∅, false⟩⟩
    siblingsOrder).toOption.map (fun st => (st.blocks, st.naming.changed)) =
      some (siblingsSsa t c, true)
  declared : declaredBy (siblingsOrder.flatMap (siblingsSsa t c).opsAt) =
    [("x", t), ("x", "Core::Int")]
  types : ["x$2", "x"].map (TypeSource.plain.met [⟨"p", "Core::Bool"⟩]
    (siblingsOrder.flatMap (siblingsSsa t c).opsAt)).types.get? = [some "Core::Int", some t]
  /-- Whatever writes the local stores in it or merges it. -/
  writes : ∀ o ∈ siblingsOrder.flatMap (siblingsSsa t c).opsAt, ∀ r ∈ o.writes, r.base = "x" →
    o = ⟨.synthetic, .store (.literal (.int "1")) ⟨"x", "x$1"⟩⟩ ∨
    o = ⟨.synthetic, .store (.literal c) (.ofBase "x")⟩ ∨
    o = mergeOp armEnds (.var ⟨"x", "x$2"⟩)
  /-- In front of a store there is its declaration only. -/
  places : ∀ l ∈ siblingsOrder, ∀ i, ∀ _ : i < ((siblingsSsa t c).opsAt l).length,
    ∀ r ∈ (((siblingsSsa t c).opsAt l)[i]).writes, r.base = "x" →
    (((siblingsSsa t c).opsAt l)[i]).instr.isMerge = false →
    ∃ d ∈ [("Core::Int", Literal.int "1"), (t, c)],
      ((siblingsSsa t c).opsAt l).take i = [⟨.synthetic, .lifetimeStart "x" d.1⟩] ∧
      (((siblingsSsa t c).opsAt l)[i]).instr.operands = [.literal d.2]
  values : ∀ d ∈ [("Core::Int", Literal.int "1"), (t, c)],
    TypeSource.plain.literal d.2 = d.1 ∧ TypeSource.plain.Interns d.1
  merge : mergeOp armEnds (.var ⟨"x", "x$2"⟩) ∈ (siblingsSsa t c).opsAt returnLabel

variable {t : String} {c : Literal} (harm : (t, c) ∈ armValues)

include harm

theorem evaluated : Evaluated t c := by
  have hcases : t = "Core::Int" ∧ c = .int "2" ∨ t = "Core::String" ∧ c = .string "s" := by
    simpa [armValues] using harm
  rcases hcases with ⟨rfl, rfl⟩ | ⟨rfl, rfl⟩ <;> constructor <;> decide +kernel

theorem siblings_convertible : (siblings t c).Convertible ["p"] := by
  have h := evaluated harm
  exact convertible_of_checks siblingsOrder.idxOf h.noMerge h.unversioned h.closed h.rising h.apart

theorem siblings_wellShaped : (siblings t c).WellShaped :=
  (wellShaped_iff (siblings_convertible harm).closed).mpr (evaluated harm).shape

/-- Only the parameter is read. -/
theorem siblings_definitelyAssigned : (siblings t c).DefinitelyAssigned ["p"] := by
  have h := evaluated harm
  refine definitelyAssigned_of_known (fun l => if l = entryLabel then ["p"] else [])
    (by simp) (fun u hu v hv n hn => ?_) fun u hu i hi r hr => ?_
  · have hne : v ≠ entryLabel := by
      rintro rfl
      exact Nat.not_lt_zero _ (h.rising u hu _ hv)
    rw [if_neg hne] at hn
    cases hn
  · obtain ⟨rfl, hbase⟩ := h.reads u hu _ (List.getElem_mem hi) r hr
    exact .inl (by simp [hbase])

theorem siblings_reversePostOrder : (siblings t c).reversePostOrder = siblingsOrder := by
  have h := evaluated harm
  have hcontains : (siblings t c).contains entryLabel = true := by
    rw [← Table.mem_keys, h.keys]
    exact List.mem_cons_self
  have hsuccessors := h.successors
  simp only [siblingsOrder, List.map_cons, List.map_nil, List.cons.injEq, and_true] at hsuccessors
  obtain ⟨hentry, hright, hleft, hreturn, hexit⟩ := hsuccessors
  rw [reversePostOrder, if_pos hcontains, h.keys, entryLabel, hentry]
  simp [search, hleft, hright, hreturn, hexit, siblingsOrder]

theorem siblings_toSsa : (siblings t c).toSsa ["p"] = .ok (siblingsSsa t c, true) := by
  have h := evaluated harm
  have horder : (siblings t c).order = siblingsOrder := by
    rw [order, siblings_reversePostOrder harm, h.keys]
    decide
  obtain ⟨st, hst, hconverted⟩ := Option.map_eq_some_iff.mp h.run
  rw [toSsa, undefinedTarget?_eq_none (siblings_convertible harm).closed, horder,
    siblings_reversePostOrder harm]
  simp only [toOption_eq_some.mp hst]
  exact congrArg Except.ok hconverted

theorem siblings_sameGraph : SameGraph (siblings t c) (siblingsSsa t c) := by
  obtain ⟨bs', changed, out, hssa, h⟩ := toSsa_eq_ok (siblings_convertible harm)
  obtain ⟨rfl, -⟩ := Prod.mk.inj (Except.ok.inj ((siblings_toSsa harm).symm.trans hssa))
  exact h.sameGraph

theorem siblingsSsa_reversePostOrder : (siblingsSsa t c).reversePostOrder = siblingsOrder :=
  (siblings_sameGraph harm).reversePostOrder.trans (siblings_reversePostOrder harm)

theorem siblingsSsa_reachedOps :
    (siblingsSsa t c).reachedOps = siblingsOrder.flatMap (siblingsSsa t c).opsAt := by
  rw [reachedOps, siblingsSsa_reversePostOrder harm]

/-- Both arms declare the local, the one on the right first. -/
theorem siblingsSsa_declared :
    declaredBy (siblingsSsa t c).reachedOps = [("x", t), ("x", "Core::Int")] := by
  rw [siblingsSsa_reachedOps harm]
  exact (evaluated harm).declared

/-- The merge has the type declared on the left, whatever is declared on the right. -/
theorem siblingsSsa_types : ["x$2", "x"].map
    (TypeSource.plain.infer ⟨"", .synthetic, siblingsSsa t c, none⟩ [⟨"p", "Core::Bool"⟩]).get? =
      [some "Core::Int", some t] := by
  have horder : (siblingsSsa t c).order = siblingsOrder := by
    rw [order, siblingsSsa_reversePostOrder harm, (siblings_sameGraph harm).keys,
      (evaluated harm).keys]
    decide
  rw [TypeSource.infer_eq, orderedOps_eq, horder]
  exact (evaluated harm).types

/-- Each arm declares the local right before it stores in it. -/
theorem siblingsSsa_storesCovered (types : Table String) :
    (siblingsSsa t c).StoresCovered .plain types := by
  have h := evaluated harm
  have hlocal : ∀ n, n ∈ declaredNames (siblingsSsa t c).reachedOps → n = "x" := by
    rw [declaredNames, siblingsSsa_declared harm]
    simp
  refine ⟨fun o ho r hr hbase => ?_, fun before l hway earlier pos a v later hops hbase => ?_⟩
  · rw [siblingsSsa_reachedOps harm] at ho
    rcases h.writes o ho r hr (hlocal _ hbase) with rfl | rfl | rfl
    · exact .inl ⟨_, _, rfl⟩
    · exact .inl ⟨_, _, rfl⟩
    · exact .inr ⟨_, _, rfl⟩
  · have hl : l ∈ siblingsOrder := by
      rw [← siblingsSsa_reversePostOrder harm]
      exact mem_reversePostOrder.mpr hway.reachable
    have hlt : earlier.length < ((siblingsSsa t c).opsAt l).length := by simp [hops]
    have hget : ((siblingsSsa t c).opsAt l)[earlier.length] = ⟨pos, .store a v⟩ := by simp [hops]
    have htake : ((siblingsSsa t c).opsAt l).take earlier.length = earlier := by simp [hops]
    obtain ⟨d, hd, hdeclared, hstored⟩ := h.places l hl earlier.length hlt (.var v)
      (by rw [hget]; exact List.mem_singleton_self _) (hlocal _ hbase) (by rw [hget]; rfl)
    rw [htake] at hdeclared
    rw [hget] at hstored
    obtain ⟨hliteral, hinterned⟩ := h.values d hd
    obtain rfl : a = .literal d.2 := (List.cons.inj hstored).1
    refine ⟨d.1, d.1, ?_, congrArg some hliteral, hinterned, hinterned, .inl rfl⟩
    rw [hdeclared, hlocal _ hbase]
    exact get?_declared_last ..

/-- Conversion merges the locals of both scopes where the arms meet. -/
theorem siblings_merge :
    (Pass.ssa ["p"]).run ⟨"", .synthetic, siblings t c, none⟩ =
        .ok (⟨"", .synthetic, siblingsSsa t c, none⟩, true) ∧
      (siblingsSsa t c).Reachable returnLabel ∧
      mergeOp armEnds (.var ⟨"x", "x$2"⟩) ∈ (siblingsSsa t c).opsAt returnLabel := by
  refine ⟨by simp only [Pass.ssa, siblings_toSsa harm]; rfl, ?_, (evaluated harm).merge⟩
  rw [← mem_reversePostOrder, siblingsSsa_reversePostOrder harm]
  decide

end Blocks

/-- A text without a bar is a union of one. -/
theorem eq_singleton_of_intercalate {ks : List String} {t : String}
    (h : " | ".intercalate ks = t) (hbar : '|' ∉ t.toList) (hne : t ≠ "") : ks = [t] := by
  match ks with
  | [] => exact absurd h.symm hne
  | [k] => rw [← h, String.intercalate_singleton]
  | k :: k' :: ks =>
    rw [← h, String.intercalate_cons_cons, String.toList_append, String.toList_append] at hbar
    exact absurd (List.mem_append_left _ (List.mem_append_right _ (by decide))) hbar

/-- A number does not cover a text. -/
theorem TypeSource.plain_not_covers : ¬ plain.Covers "Core::Int" "Core::String" := by
  have hkeyed : ∀ e ∈ plain.assembly.types.entries,
      " | ".intercalate (e.2.options.map Shape.key) = e.1 := by decide +kernel
  have honly : ∀ {t os}, plain.HasOptions t os → '|' ∉ t.toList → t ≠ "" → os = [t] := by
    intro t os h
    cases h with
    | interned hi => exact eq_singleton_of_intercalate (hkeyed _ (Table.mem_entries.mpr hi))
    | union => exact eq_singleton_of_intercalate rfl
  rintro (h | ⟨os, os', hos, hos', hsub⟩)
  · exact absurd h (by decide)
  · obtain rfl := honly hos (by decide) (by decide)
    obtain rfl := honly hos' (by decide) (by decide)
    exact absurd hsub (by decide)

open Blocks

/-- **Where both scopes declare one type**, that of the merge covers what it merges. -/
theorem siblings_covered : ∃ b', (Pass.ssa ["p"]).run ⟨"", .synthetic,
      siblings "Core::Int" (.int "2"), none⟩ = .ok (b', true) ∧
    (siblings "Core::Int" (.int "2")).Convertible ["p"] ∧
    (siblings "Core::Int" (.int "2")).WellShaped ∧
    (siblings "Core::Int" (.int "2")).DefinitelyAssigned ["p"] ∧
    let types := TypeSource.plain.infer b' [⟨"p", "Core::Bool"⟩]
    b'.blocks.StoresCovered .plain types ∧ b'.blocks.Reachable returnLabel ∧
    mergeOp armEnds (.var ⟨"x", "x$2"⟩) ∈ b'.blocks.opsAt returnLabel ∧
    TypeSource.plain.CoversInputs types armEnds (.var ⟨"x", "x$2"⟩) := by
  have harm : ("Core::Int", Literal.int "2") ∈ armValues := by decide
  obtain ⟨hrun, hreach, hmerge⟩ := siblings_merge harm
  have hstores := siblingsSsa_storesCovered harm
  refine ⟨_, hrun, siblings_convertible harm, siblings_wellShaped harm,
    siblings_definitelyAssigned harm, hstores _, hreach, hmerge, ?_⟩
  obtain ⟨b', changed, hrun', hcovers⟩ := @TypeSource.infer_covers .plain [⟨"p", "Core::Bool"⟩]
    ⟨"", .synthetic, siblings "Core::Int" (.int "2"), none⟩ (siblings_convertible harm)
    (siblings_wellShaped harm) (siblings_definitelyAssigned harm)
  obtain ⟨rfl, -⟩ := Prod.mk.inj (Except.ok.inj (hrun.symm.trans hrun'))
  obtain ⟨-, hlocal⟩ := hcovers (hstores _) _ hreach _ _ _ hmerge
  have hdeclared := siblingsSsa_declared harm
  obtain ⟨t, ht, -, hcovered⟩ := hlocal (by
    rw [declaredNames, hdeclared]
    decide)
  obtain rfl : "Core::Int" = t :=
    Option.some.inj ((List.cons.inj (siblingsSsa_types harm)).1.symm.trans ht)
  refine hcovered fun u hu => .inl ?_
  rw [namedTypes, hdeclared] at hu
  simpa [Register.base] using hu

/-- **Where they declare different types, it does not**: the merge of a number and a text has the
type of the number. -/
theorem siblings_uncovered : ∃ b', (Pass.ssa ["p"]).run ⟨"", .synthetic,
      siblings "Core::String" (.string "s"), none⟩ = .ok (b', true) ∧
    (siblings "Core::String" (.string "s")).Convertible ["p"] ∧
    (siblings "Core::String" (.string "s")).WellShaped ∧
    (siblings "Core::String" (.string "s")).DefinitelyAssigned ["p"] ∧
    let types := TypeSource.plain.infer b' [⟨"p", "Core::Bool"⟩]
    b'.blocks.StoresCovered .plain types ∧ b'.blocks.Reachable returnLabel ∧
    mergeOp armEnds (.var ⟨"x", "x$2"⟩) ∈ b'.blocks.opsAt returnLabel ∧
    ¬ TypeSource.plain.CoversInputs types armEnds (.var ⟨"x", "x$2"⟩) := by
  have harm : ("Core::String", Literal.string "s") ∈ armValues := by decide
  obtain ⟨hrun, hreach, hmerge⟩ := siblings_merge harm
  refine ⟨_, hrun, siblings_convertible harm, siblings_wellShaped harm,
    siblings_definitelyAssigned harm, siblingsSsa_storesCovered harm _, hreach, hmerge,
    fun hcovers => ?_⟩
  obtain ⟨hmerged, hright⟩ := List.cons.inj (siblingsSsa_types harm)
  exact TypeSource.plain_not_covers (hcovers _ hmerged (.var (.ofBase "x")) (by decide +kernel) _
    (List.cons.inj hright).1)

end Monomorph
