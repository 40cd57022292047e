import Monomorph.Proofs.Typing.Pass

/-!
# Typing/Rules — one pass finds what the rules ask for

What an operation writes has a type by a rule: one recorded on it, or one made of the types of what
it reads and of what is declared.  The rules speak of all of a body at once, the pass has met only
the beginning.  But what an operation reads has its type by then, and keeps it, since no name is
written twice; and if each local has one type, declared before the local is used, what is declared
so far is what is declared at all.  So **the types found are a solution of the rules**
(`TypeSource.infer_solves`).
-/

namespace Monomorph

namespace Blocks

/-- **Each local has one type, and is declared before it is read or written.** -/
structure DeclaredFirst (bs : Blocks) : Prop where
  once : ∀ e ∈ declaredBy bs.orderedOps, ∀ e' ∈ declaredBy bs.orderedOps, e.1 = e'.1 → e.2 = e'.2
  first : ∀ pre o post, bs.orderedOps = pre ++ o :: post → ∀ v, .var v ∈ o.reads ++ o.writes →
    v.base ∈ (declaredBy bs.orderedOps).map (·.1) → v.base ∈ (declaredBy pre).map (·.1)

/-- What is declared so far of a local that is used is what is declared at all. -/
theorem DeclaredFirst.get?_eq {bs : Blocks} (h : bs.DeclaredFirst) {pre post : List Op} {o : Op}
    (hsplit : bs.orderedOps = pre ++ o :: post) {v : Var} (hv : .var v ∈ o.reads ++ o.writes) :
    (Table.ofList (declaredBy pre)).get? v.base =
      (Table.ofList (declaredBy bs.orderedOps)).get? v.base := by
  have hsub : declaredBy pre ⊆ declaredBy bs.orderedOps := by
    rw [hsplit, declaredBy, declaredBy, List.filterMap_append]
    exact List.subset_append_left ..
  by_cases hbase : v.base ∈ (declaredBy bs.orderedOps).map (·.1)
  · obtain ⟨e, he, hname⟩ := List.mem_map.mp (h.first pre o post hsplit v hv hbase)
    have hone : ∀ e' ∈ declaredBy bs.orderedOps, e'.1 = v.base → e'.2 = e.2 := fun e' he' hname' =>
      h.once e' he' e (hsub he) (hname'.trans hname.symm)
    rw [Table.get?_ofList fun e' he' => hone e' (hsub he'), Table.get?_ofList hone, if_pos hbase,
      if_pos (h.first pre o post hsplit v hv hbase)]
  · rw [Table.get?_ofList_eq_none hbase, Table.get?_ofList_eq_none]
    exact fun hmem => hbase (List.map_subset _ hsub hmem)

end Blocks

namespace TypeSource

open Blocks

variable {s : TypeSource} {g g' : Typing}

/-! ## What a rule looks at -/

theorem rhs_congr {e : Rhs Operand}
    (htypes : ∀ x ∈ e.slots, g.types.get? x.name = g'.types.get? x.name)
    (hdeclared : ∀ v, .var v ∈ e.slots → g.declared.get? v.base = g'.declared.get? v.base) :
    s.rhs g e = s.rhs g' e := by
  cases e with
  | argVar v | localVar v =>
    have hv : Register.var v ∈ [Register.var v] := List.mem_singleton_self _
    rw [rhs, rhs, local?, local?, hdeclared v hv]
    exact congrArg (Option.or · _) (htypes _ hv)
  | _ => rfl

/-- **A rule looks at the types of what is read**, and at what is declared of the locals read and
written. -/
theorem written_congr {o : Op} (htypes : ∀ x ∈ o.reads, g.types.get? x.name = g'.types.get? x.name)
    (hdeclared : ∀ v, .var v ∈ o.reads ++ o.writes →
      g.declared.get? v.base = g'.declared.get? v.base) :
    s.written g o.instr = s.written g' o.instr := by
  have hoperand : ∀ a ∈ o.instr.operands, s.operand g a = s.operand g' a := fun a ha => by
    cases a with
    | literal => rfl
    | register r =>
      exact htypes r (List.mem_append_left _ (List.mem_filterMap.mpr ⟨_, ha, rfl⟩))
  have hslot : ∀ x ∈ o.instr.slots, g.types.get? x.name = g'.types.get? x.name := fun x hx =>
    htypes x (List.mem_append_right _ hx)
  have htarget : ∀ v, o.instr.target? = some (.var v) →
      g.declared.get? v.base = g'.declared.get? v.base := fun v hv =>
    hdeclared v (List.mem_append_right _ (Option.mem_toList.mpr hv))
  cases hi : o.instr with
  | define e t =>
    rw [hi] at hslot
    exact rhs_congr hslot fun v hv => hdeclared v
      (List.mem_append_left _ (List.mem_append_right _ (by rw [hi]; exact hv)))
  | assign a t => exact hoperand a (by rw [hi]; exact List.mem_singleton_self a)
  | store a v =>
    have ha := hoperand a (by rw [hi]; exact List.mem_singleton_self a)
    rw [written, written, htarget v (by rw [hi]; rfl), ha]
  | phi inputs target =>
    rw [hi] at hslot
    have hinputs : (inputs.values.filterMap fun r => g.types.get? r.name) =
        inputs.values.filterMap fun r => g'.types.get? r.name := List.filterMap_congr hslot
    cases target with
    | temp t => rw [written, written, hinputs]
    | var v => rw [written, written, hinputs, htarget v (by rw [hi]; rfl)]
  | _ => rfl

/-! ## The types found -/

/-- All that a body says of its names: the types found, and those declared anywhere. -/
def found (s : TypeSource) (b : Body) (params : List Param) : Typing :=
  ⟨s.infer b params, Table.ofList (declaredBy b.blocks.orderedOps)⟩

/-- **The types found are a solution of the rules**: what an operation within reach writes has the
type that its rule tells from the types found and the locals declared, or none if it tells none; and
the parameters have the types given. -/
theorem infer_solves {b : Body} {params : List Param} (ha : b.blocks.Acyclic)
    (hpass : b.violations (params.map (·.name)) = []) (hm : b.blocks.MergesReached)
    (hd : b.blocks.DeclaredFirst) :
    (∀ l, b.blocks.Reachable l → ∀ o ∈ b.blocks.opsAt l, ∀ r ∈ o.writes,
      (s.infer b params).get? r.name = s.written (s.found b params) o.instr) ∧
    (∀ n ∈ params.map (·.name),
      (s.infer b params).get? n = (Typing.given params).types.get? n) ∧
    ((params.map (·.name)).Nodup → ∀ q ∈ params, (s.infer b params).get? q.name = some q.type) := by
  have hparams : ∀ n ∈ params.map (·.name),
      (s.infer b params).get? n = (Typing.given params).types.get? n := fun n hn =>
    get?_infer_of_known hpass (List.nil_append _).symm (.inl hn)
  refine ⟨fun l hl o ho r hr => ?_, hparams, fun hnodup q hq => ?_⟩
  · obtain ⟨pre, post, hreached⟩ := List.append_of_mem (mem_reachedOps.mpr ⟨l, hl, ho⟩)
    obtain ⟨later, hsplit⟩ := exists_orderedOps hreached
    rw [get?_infer_of_written hpass hsplit hr]
    refine written_congr (fun x hx => ?_) fun v hv => ?_
    · exact (get?_infer_of_read hpass ha hm hreached hx).symm
    · rw [declared_met]
      exact hd.get?_eq hsplit hv
  · rw [hparams q.name (List.mem_map_of_mem hq)]
    refine Table.get?_ofList_of_mem (List.mem_map_of_mem hq) fun e he hname => ?_
    obtain ⟨q', hq', rfl⟩ := List.mem_map.mp he
    exact congrArg Param.type (List.inj_on_of_nodup_map hnodup hq' hq hname)

end TypeSource

/-! ## A merge of a merge -/

/-- Prints `if p then (if q then 1 else "s") else c`, where the local `c` is declared. -/
def Blocks.nested : Blocks := Table.ofList [
  (entryLabel, ⟨entryLabel, [
    ⟨.synthetic, .lifetimeStart "c" "Core::Bool"⟩,
    ⟨.synthetic, .branch (.ofVar (.ofBase "p")) "left" "right"⟩]⟩),
  ("left", ⟨"left", [
    ⟨.synthetic, .branch (.ofVar (.ofBase "q")) "one" "two"⟩]⟩),
  ("one", ⟨"one", [
    ⟨.synthetic, .store (.literal (.int "1")) (.ofBase "a")⟩,
    ⟨.synthetic, .jump "inner"⟩]⟩),
  ("two", ⟨"two", [
    ⟨.synthetic, .store (.literal (.string "s")) (.ofBase "b")⟩,
    ⟨.synthetic, .jump "inner"⟩]⟩),
  ("inner", ⟨"inner", [
    ⟨.synthetic, .phi (Table.ofList [("one", .var (.ofBase "a")), ("two", .var (.ofBase "b"))])
      (.var (.ofBase "x"))⟩,
    ⟨.synthetic, .jump returnLabel⟩]⟩),
  ("right", ⟨"right", [
    ⟨.synthetic, .store (.literal (.bool true)) (.ofBase "c")⟩,
    ⟨.synthetic, .jump returnLabel⟩]⟩),
  (returnLabel, ⟨returnLabel, [
    ⟨.synthetic, .phi (Table.ofList [("inner", .var (.ofBase "x")), ("right", .var (.ofBase "c"))])
      (.var (.ofBase "z"))⟩,
    ⟨.synthetic, .debug (some (.ofVar (.ofBase "z")))⟩,
    ⟨.synthetic, .returnAssign (.literal (.bool true)) .result⟩,
    ⟨.synthetic, .jump exitLabel⟩]⟩),
  (exitLabel, ⟨exitLabel, []⟩)]

namespace Blocks

theorem nested_reversePostOrder : nested.reversePostOrder =
    ["entry", "right", "left", "two", "one", "inner", "returnassign", "exit"] := by
  have hkeys : nested.keys.erase entryLabel =
      ["exit", "inner", "left", "one", "returnassign", "right", "two"] := by decide +kernel
  have hentry : nested.successors entryLabel = ["left", "right"] := by decide +kernel
  have hleft : nested.successors "left" = ["one", "two"] := by decide +kernel
  have hone : nested.successors "one" = ["inner"] := by decide +kernel
  have htwo : nested.successors "two" = ["inner"] := by decide +kernel
  have hinner : nested.successors "inner" = ["returnassign"] := by decide +kernel
  have hright : nested.successors "right" = ["returnassign"] := by decide +kernel
  have hreturn : nested.successors "returnassign" = ["exit"] := by decide +kernel
  have hexit : nested.successors "exit" = [] := by decide +kernel
  rw [reversePostOrder, if_pos (by decide +kernel), hkeys, hentry]
  simp [search, hleft, hone, htwo, hinner, hright, hreturn, hexit, entryLabel]

theorem nested_acyclic : nested.Acyclic :=
  acyclic_of_rank (fun l => ["entry", "right", "left", "two", "one", "inner", "returnassign",
    "exit"].idxOf l) (by decide +kernel)

theorem nested_mergesReached : nested.MergesReached := by
  have hsources : ∀ l ∈ nested.keys, ∀ o ∈ nested.opsAt l, ∀ p ∈ o.instr.sources,
      p ∈ ["entry", "right", "left", "two", "one", "inner", "returnassign", "exit"] ∧
        nested.Edge p l := by decide +kernel
  intro l hl o ho p hp
  obtain ⟨hreached, hedge⟩ := hsources l (Table.mem_keys.mpr hl.contains) o ho p hp
  rw [← nested_reversePostOrder] at hreached
  exact ⟨mem_reversePostOrder.mp hreached, hedge⟩

theorem nested_accepted :
    (⟨"", .synthetic, nested, none⟩ : Body).violations ["p", "q"] = [] := by
  rw [Body.violations, nested_reversePostOrder]
  decide +kernel

theorem nested_declared : declaredBy nested.orderedOps = [("c", "Core::Bool")] := by
  rw [orderedOps, ordered, order, nested_reversePostOrder]
  decide +kernel

/-- The local is declared in front of everything else. -/
theorem nested_declaredFirst : nested.DeclaredFirst := by
  have hfirst : nested.orderedOps.head? = some ⟨.synthetic, .lifetimeStart "c" "Core::Bool"⟩ := by
    rw [orderedOps, ordered, order, nested_reversePostOrder]
    decide +kernel
  refine ⟨by rw [nested_declared]; decide +kernel, fun pre o post hsplit v hv hbase => ?_⟩
  rw [hsplit] at hfirst
  cases pre with
  | nil =>
    obtain rfl := Option.some.inj hfirst
    cases hv
  | cons o' pre =>
    obtain rfl := Option.some.inj hfirst
    rw [nested_declared] at hbase
    rw [declaredBy_cons, List.map_append]
    exact List.mem_append_left _ hbase

end Blocks

/-- The body of the merge of a merge. -/
def Body.nested : Body :=
  ⟨"", .synthetic, Blocks.nested, none⟩

/-- Its parameters. -/
def Param.asked : List Param :=
  [⟨"p", "Core::Bool"⟩, ⟨"q", "Core::Bool"⟩]

/-- A source of types in which the entities listed are interned, and unions of them. -/
def TypeSource.interning (unions : List (List String)) : TypeSource :=
  ⟨{ types := Table.ofList (unions.map fun ks =>
      let t := Interned.ofShapes (ks.map .entity)
      (t.key, t)) }, "Core", "Core::Bool"⟩

/-- The local has the type declared, the outer merge the union of what the inner one and the local
have, and the parameters the types given. -/
theorem nested_solves :
    let s : TypeSource := .interning [["Core::Int"], ["Core::String"], ["Core::Bool"]]
    let types := s.infer .nested Param.asked
    types.get? "c" = some "Core::Bool" ∧
    types.get? "z" = s.join (["x", "c"].filterMap types.get?) ∧
    types.get? "p" = some "Core::Bool" := by
  intro s types
  obtain ⟨hrules, -, hparams⟩ := @TypeSource.infer_solves s .nested Param.asked
    Blocks.nested_acyclic Blocks.nested_accepted Blocks.nested_mergesReached
    Blocks.nested_declaredFirst
  have hreach : ∀ l ∈ ["right", "returnassign"], Blocks.nested.Reachable l := fun l hl => by
    rw [← Blocks.mem_reversePostOrder, Blocks.nested_reversePostOrder]
    revert l
    decide +kernel
  have hdeclared : ∀ n, (s.found .nested Param.asked).declared.get? n =
      (Table.ofList [("c", "Core::Bool")]).get? n := fun n => by
    rw [← Blocks.nested_declared]
    rfl
  have hc := hrules "right" (hreach _ (by decide)) ⟨.synthetic, .store (.literal (.bool true))
    (.ofBase "c")⟩ (by decide +kernel) (.var (.ofBase "c")) (by decide)
  have hz := hrules "returnassign" (hreach _ (by decide)) ⟨.synthetic, .phi (Table.ofList
    [("inner", .var (.ofBase "x")), ("right", .var (.ofBase "c"))]) (.var (.ofBase "z"))⟩
    (by decide +kernel) (.var (.ofBase "z")) (by decide)
  simp only [TypeSource.written, Var.ofBase, hdeclared] at hc hz
  exact ⟨hc, hz, hparams (by decide) ⟨"p", "Core::Bool"⟩ (by decide)⟩

end Monomorph
