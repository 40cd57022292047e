import Mathlib.Data.List.Induction
import Monomorph.Proofs.Listing.Order
import Monomorph.Proofs.Typing.Rules

/-!
# Typing/Complete — which names have types

What an operation writes has a type if what it reads has one, but for one kind of operation: a merge
into a name that is not declared.  It gets the union of the types it merges, and the union of
several is made of their interned forms.  The union itself is not interned by that, and a merge of
it may fail.  So **every name has a type if and only if each such merge has an input, and merges
one type or interned types only** (`TypeSource.infer_complete`), and it is not enough that the types
a body mentions are interned (`nested_untyped`).
-/

namespace Monomorph

/-! ## Unions -/

/-- Look-ups all succeed if each does. -/
theorem Listing.isSome_mapM {α β : Type} {f : α → Option β} {l : List α} :
    (l.mapM f).isSome ↔ ∀ a ∈ l, (f a).isSome := by
  induction l with
  | nil => simp
  | cons a l ih =>
    rw [List.mapM_cons, List.forall_mem_cons, ← ih]
    cases f a <;> cases l.mapM f <;> simp

namespace TypeSource

/-- The type stands in the assembly, under its key. -/
def Interns (s : TypeSource) (t : String) : Prop :=
  s.assembly.types.contains t = true

instance (s : TypeSource) (t : String) : Decidable (s.Interns t) :=
  inferInstanceAs (Decidable (_ = true))

/-- The types are one, or all interned. -/
def Joinable (s : TypeSource) (ts : List String) : Prop :=
  (∀ t ∈ ts, ∀ t' ∈ ts, t = t') ∨ ∀ t ∈ ts, s.Interns t

variable {s : TypeSource}

/-- **There is a union** of one type, and of interned types. -/
theorem isSome_join {ts : List String} : (s.join ts).isSome ↔ ts ≠ [] ∧ s.Joinable ts := by
  have hmem : ∀ t, t ∈ Listing.distinct ts ↔ t ∈ ts := fun t => Listing.mem_distinct
  have hsorted : (Listing.distinct ts).Pairwise (· < ·) := Listing.distinctBy_sorted id ts
  rw [join, Joinable]
  match hd : Listing.distinct ts with
  | [] =>
    rw [hd] at hmem
    have hnil : ts = [] :=
      List.eq_nil_iff_forall_not_mem.mpr fun t ht => List.not_mem_nil ((hmem t).mpr ht)
    simp [hnil]
  | [t] =>
    rw [hd] at hmem
    have hall : ∀ t' ∈ ts, t' = t := fun t' ht' => List.mem_singleton.mp ((hmem t').mpr ht')
    refine iff_of_true rfl ⟨List.ne_nil_of_mem ((hmem t).mp (List.mem_singleton_self t)), .inl ?_⟩
    exact fun t' ht' t'' ht'' => (hall t' ht').trans (hall t'' ht'').symm
  | t :: t' :: rest =>
    have hlt : t < t' := by
      rw [hd] at hsorted
      exact List.rel_of_pairwise_cons hsorted List.mem_cons_self
    have ht : t ∈ ts := (hmem t).mp (by simp [hd])
    have ht' : t' ∈ ts := (hmem t').mp (by simp [hd])
    have hne : ¬ ∀ t ∈ ts, ∀ t' ∈ ts, t = t' := fun h =>
      String.lt_irrefl t' (h t ht t' ht' ▸ hlt)
    rw [or_iff_right hne, and_iff_right (List.ne_nil_of_mem ht)]
    dsimp only
    rw [bind_pure_comp, Option.map_eq_map, Option.isSome_map, Listing.isSome_mapM, ← hd]
    simp only [Option.isSome_map, hmem]
    rfl

end TypeSource

/-! ## What an operation writes -/

/-- A name that has no declared type yet: a temporary, or a local not declared. -/
def Undeclared (ops : List Op) : Register → Prop
  | .temp _ => True
  | .var v => v.base ∉ (declaredBy ops).map (·.1)

/-- A name has a type, and one of a kind. -/
def Typing.Gives (g : Typing) (P : String → Prop) (n : String) : Prop :=
  ∃ t, g.types.get? n = some t ∧ P t

namespace TypeSource

/-- The type of what is written that is told without looking at what is read. -/
def recorded (s : TypeSource) (i : Instr Operand) : Option String :=
  s.written ⟨∅, ∅⟩ i

/-- The constant or field an operation refers to is declared. -/
def Declares (s : TypeSource) (o : Op) : Prop :=
  match o.instr with
  | .define (.constant k) _ => s.assembly.constants.contains k = true
  | .define (.fieldDefault k) _ => s.assembly.fields.contains k = true
  | _ => True

/-- The union of the types of what is merged. -/
def merged (s : TypeSource) (types : Table String) (inputs : Table Register) : Option String :=
  s.join (inputs.values.filterMap fun r => types.get? r.name)

variable {s : TypeSource} {P : String → Prop} {o : Op} {ops : List Op} {params : List Param}

theorem merged_congr {types types' : Table String} {inputs : Table Register}
    (h : ∀ r ∈ inputs.values, types.get? r.name = types'.get? r.name) :
    s.merged types inputs = s.merged types' inputs :=
  congrArg s.join (List.filterMap_congr h)

/-- A local that is declared has its declared type, whatever it would have else. -/
theorem declared_gives {v : Var} {x : Option String} (hlocals : ∀ e ∈ declaredBy ops, P e.2)
    (hx : Undeclared ops (.var v) → ∃ t, x = some t ∧ P t) :
    ∃ t, ((s.met params ops).declared.get? v.base).or x = some t ∧ P t := by
  rw [declared_met]
  by_cases hv : v.base ∈ (declaredBy ops).map (·.1)
  · obtain ⟨t, ht⟩ := Table.contains_iff.mp (Table.contains_ofList hv)
    rw [ht]
    exact ⟨t, rfl, hlocals _ (Table.mem_of_get?_ofList ht)⟩
  · rw [Table.get?_ofList_eq_none hv]
    exact hx hv

/-- **What an operation writes has a type** if what it reads has one, and one of a kind if all types
told are of that kind; of a merge into a name not declared that is asked for. -/
theorem written_gives {r : Register} (hr : r ∈ o.writes)
    (hreads : ∀ x ∈ o.reads, (s.met params ops).Gives P x.name)
    (hlocals : ∀ e ∈ declaredBy ops, P e.2) (hrecorded : ∀ t, s.recorded o.instr = some t → P t)
    (hdeclares : s.Declares o)
    (hmerge : ∀ inputs, o.instr = .phi inputs r → Undeclared ops r →
      ∃ t, s.merged (s.met params ops).types inputs = some t ∧ P t) :
    ∃ t, s.written (s.met params ops) o.instr = some t ∧ P t := by
  have hoperand : ∀ a ∈ o.instr.operands, (∀ t, s.operand ⟨∅, ∅⟩ a = some t → P t) →
      ∃ t, s.operand (s.met params ops) a = some t ∧ P t := by
    intro a ha hliteral
    cases a with
    | literal c => exact ⟨_, rfl, hliteral _ rfl⟩
    | register x => exact hreads x (List.mem_append_left _ (List.mem_filterMap.mpr ⟨_, ha, rfl⟩))
  have hslot : ∀ x ∈ o.instr.slots, (s.met params ops).Gives P x.name := fun x hx =>
    hreads x (List.mem_append_right _ hx)
  obtain ⟨pos, i⟩ := o
  -- a rule that looks at nothing read tells the type recorded
  cases i with
  | define e t =>
    cases e with
    | constant k | fieldDefault k =>
      obtain ⟨d, hd⟩ := Table.contains_iff.mp hdeclares
      exact ⟨d.type, congrArg (Option.map _) hd, hrecorded _ (congrArg (Option.map _) hd)⟩
    | argVar v | localVar v =>
      obtain ⟨t, ht, hP⟩ := hslot (.var v) (List.mem_singleton_self _)
      refine ⟨t, ?_, hP⟩
      rw [written, rhs, local?]
      exact congrArg (Option.or · _) ht
    | _ => exact ⟨_, rfl, hrecorded _ rfl⟩
  | assign a t => exact hoperand a (List.mem_singleton_self a) hrecorded
  | store a v =>
    exact declared_gives hlocals fun _ => hoperand a (List.mem_singleton_self a) hrecorded
  | phi inputs target =>
    obtain rfl : target = r := Option.some.inj (Option.mem_toList.mp hr)
    cases target with
    | temp t => exact hmerge inputs rfl trivial
    | var v => exact declared_gives hlocals (hmerge inputs rfl)
  | truthy | packSlice | packExtend | returnAssign => exact ⟨_, rfl, hrecorded _ rfl⟩
  | abort | debug | jump | branch | branchNone | lifetimeStart | lifetimeEnd => cases hr

/-- **One pass gives types to all names**, if each operation writes a type once what it reads has
one. -/
theorem met_gives (hparams : ∀ q ∈ params, P q.type)
    (hops : ∀ pre o post, ops = pre ++ o :: post →
      (∀ x ∈ o.reads, x.name ∈ params.map (·.name) ∨ x.name ∈ writtenBy pre) ∧
      ((∀ x ∈ o.reads, (s.met params pre).Gives P x.name) →
        ∀ r ∈ o.writes, ∃ t, s.written (s.met params pre) o.instr = some t ∧ P t)) :
    ∀ n, n ∈ params.map (·.name) ∨ n ∈ writtenBy ops → (s.met params ops).Gives P n := by
  induction ops using List.reverseRecOn with
  | nil =>
    intro n hn
    obtain ⟨q, hq, ht⟩ := exists_get?_given (hn.resolve_right List.not_mem_nil)
    exact ⟨_, ht, hparams q hq⟩
  | append_singleton ops o ih =>
    -- all that `o` reads is known by now, so it has a type, and `o` gives one to what it writes
    have hbefore := ih fun pre o' post h => hops pre o' (post ++ [o]) (by simp [h])
    obtain ⟨hknown, hwrites⟩ := hops ops o [] rfl
    have hreads : ∀ x ∈ o.reads, (s.met params ops).Gives P x.name := fun x hx =>
      hbefore _ (hknown x hx)
    intro n hn
    rw [Typing.Gives, met_append, List.foldl_cons, List.foldl_nil]
    by_cases hhere : n ∈ o.writes.map Register.name
    · obtain ⟨r, hr, rfl⟩ := List.mem_map.mp hhere
      obtain ⟨t, ht, hP⟩ := hwrites hreads r hr
      exact ⟨t, by rw [get?_step_of_mem hr, ht, Option.some_or], hP⟩
    · rw [get?_step_of_notMem hhere]
      refine hbefore n (hn.imp_right fun hn => ?_)
      rw [writtenBy_append, List.mem_append, writtenBy_cons, List.mem_append] at hn
      exact hn.resolve_right fun h => h.elim hhere List.not_mem_nil

end TypeSource

/-! ## Merges into names not declared -/

namespace Blocks

/-- A block within reach merges into a name that is not declared before. -/
def OpenMerge (bs : Blocks) (l : String) (inputs : Table Register) (target : Register) : Prop :=
  ∃ newer older pos earlier later, bs.reversePostOrder = newer ++ l :: older ∧
    bs.opsAt l = earlier ++ ⟨pos, .phi inputs target⟩ :: later ∧
    Undeclared (newer.flatMap bs.opsAt ++ earlier) target

variable {bs : Blocks} {l : String} {inputs : Table Register} {target : Register}

theorem exists_openMerge {pre post : List Op} {pos : Position}
    (h : bs.reachedOps = pre ++ ⟨pos, .phi inputs target⟩ :: post) (hu : Undeclared pre target) :
    ∃ l, bs.OpenMerge l inputs target := by
  obtain ⟨newer, l, older, earlier, later, horder, hops, rfl⟩ := Listing.flatMap_eq_append_cons h
  exact ⟨l, newer, older, pos, earlier, later, horder, hops, hu⟩

/-- Where the pass comes to such a merge. -/
theorem OpenMerge.reached (h : bs.OpenMerge l inputs target) :
    bs.Reachable l ∧ ∃ pre pos post, ⟨pos, .phi inputs target⟩ ∈ bs.opsAt l ∧
      bs.reachedOps = pre ++ ⟨pos, .phi inputs target⟩ :: post ∧ Undeclared pre target := by
  obtain ⟨newer, older, pos, earlier, later, horder, hops, hu⟩ := h
  refine ⟨mem_reversePostOrder.mp (by simp [horder]), newer.flatMap bs.opsAt ++ earlier, pos,
    later ++ older.flatMap bs.opsAt, by simp [hops], ?_, hu⟩
  rw [reachedOps, horder, List.flatMap_append, List.flatMap_cons, hops, List.append_assoc,
    List.append_assoc, List.cons_append]

/-- **A merge of a body without loops has an input**, unless it is in the entry block. -/
theorem OpenMerge.values_ne_nil (h : bs.OpenMerge l inputs target) (ha : bs.Acyclic)
    (hm : bs.MergesReached) (hall : bs.MergesAll) : inputs.values ≠ [] ↔ l ≠ entryLabel := by
  obtain ⟨⟨before, hpath⟩, -, pos, -, ho, -, -⟩ := h.reached
  constructor
  · rintro hne rfl
    obtain ⟨r, hr⟩ := List.exists_mem_of_ne_nil _ hne
    obtain ⟨p, hp⟩ := Table.mem_values.mp hr
    obtain ⟨hreach, hedge⟩ := hm _ ⟨before, hpath⟩ _ ho p
      (Table.mem_keys.mpr (Table.contains_of_get? hp))
    exact ha.not_edge_entry hreach hedge
  · intro hne
    obtain ⟨-, rfl⟩ | ⟨way, p, -, hway, hedge⟩ := hpath.eq_nil_or_step
    · exact absurd rfl hne
    · obtain ⟨r, hr⟩ := Table.contains_iff.mp
        (hall l _ ho inputs target rfl p ⟨way, hway⟩ hedge)
      exact List.ne_nil_of_mem (Table.mem_values.mpr ⟨p, hr⟩)

end Blocks

open Blocks

namespace TypeSource

variable {s : TypeSource} {b : Body} {params : List Param}

section

variable (ha : b.blocks.Acyclic) (hpass : b.violations (params.map (·.name)) = [])
  (hm : b.blocks.MergesReached)

include ha hpass hm

/-- **A merge into a name not declared** writes the union of the types found of its inputs. -/
theorem get?_infer_of_openMerge {l : String} {inputs : Table Register} {target : Register}
    (h : b.blocks.OpenMerge l inputs target) :
    (s.infer b params).get? target.name = s.merged (s.infer b params) inputs := by
  obtain ⟨-, pre, pos, post, -, hreached, hu⟩ := h.reached
  obtain ⟨later, hsplit⟩ := exists_orderedOps hreached
  rw [get?_infer_of_written hpass hsplit (Option.mem_toList.mpr rfl)]
  rw [merged_congr fun x hx => get?_infer_of_read hpass ha hm hreached hx]
  cases target with
  | temp t => rfl
  | var v =>
    rw [written, declared_met, Table.get?_ofList_eq_none hu, Option.none_or]
    rfl

/-- **All names within reach have types**, if merges into names not declared do. -/
theorem infer_gives {P : String → Prop} (hparams : ∀ q ∈ params, P q.type)
    (hlocals : ∀ e ∈ declaredBy b.blocks.reachedOps, P e.2)
    (hrecorded : ∀ o ∈ b.blocks.reachedOps, ∀ t, s.recorded o.instr = some t → P t)
    (hdeclares : ∀ o ∈ b.blocks.reachedOps, s.Declares o)
    (hmerge : ∀ l inputs target, b.blocks.OpenMerge l inputs target →
      (∀ r ∈ inputs.values, ∃ t, (s.infer b params).get? r.name = some t ∧ P t) →
      ∃ t, s.merged (s.infer b params) inputs = some t ∧ P t) :
    ∀ n, n ∈ params.map (·.name) ∨ n ∈ writtenBy b.blocks.reachedOps →
      ∃ t, (s.infer b params).get? n = some t ∧ P t := by
  obtain ⟨rest, hrest⟩ := b.blocks.reachedOps_prefix
  intro n hn
  rw [get?_infer_of_known hpass hrest.symm hn]
  refine met_gives hparams (fun pre o post h => ?_) n hn
  have ho : o ∈ b.blocks.reachedOps := by simp [h]
  have hsub : declaredBy pre ⊆ declaredBy b.blocks.reachedOps := by
    rw [h, declaredBy, declaredBy, List.filterMap_append]
    exact List.subset_append_left ..
  refine ⟨Body.reads_known ha hpass hm h, fun hreads r hr => written_gives hr hreads (fun e he => hlocals e (hsub he))
    (hrecorded o ho) (hdeclares o ho) fun inputs hphi hu => ?_⟩
  obtain ⟨pos, i⟩ := o
  obtain rfl : i = .phi inputs r := hphi
  obtain ⟨l, hopen⟩ := exists_openMerge h hu
  have hagree : ∀ x ∈ inputs.values,
      (s.infer b params).get? x.name = (s.met params pre).types.get? x.name := fun x hx =>
    get?_infer_of_read hpass ha hm h hx
  rw [← merged_congr hagree]
  exact hmerge l inputs r hopen fun x hx => by rw [hagree x hx]; exact hreads x hx

/-- A merge of what has types writes one, if the types can be joined. -/
theorem merged_gives {P : String → Prop} (hall : b.blocks.MergesAll) {l : String}
    {inputs : Table Register} {target : Register} (h : b.blocks.OpenMerge l inputs target)
    (hl : l ≠ entryLabel)
    (hinputs : ∀ r ∈ inputs.values, ∃ t, (s.infer b params).get? r.name = some t)
    (hjoin : s.Joinable (inputs.values.filterMap fun r => (s.infer b params).get? r.name))
    (hP : ∀ t, (s.infer b params).get? target.name = some t → P t) :
    ∃ t, s.merged (s.infer b params) inputs = some t ∧ P t := by
  obtain ⟨r, hr⟩ := List.exists_mem_of_ne_nil _ ((h.values_ne_nil ha hm hall).mpr hl)
  obtain ⟨t, ht⟩ := hinputs r hr
  obtain ⟨u, hu⟩ := Option.isSome_iff_exists.mp
    (isSome_join.mpr ⟨List.ne_nil_of_mem (List.mem_filterMap.mpr ⟨r, hr, ht⟩), hjoin⟩)
  exact ⟨u, hu, hP u ((get?_infer_of_openMerge ha hpass hm h).trans hu)⟩

end

end TypeSource

/-! ## Completeness -/

/-- Every name written within reach has a type. -/
def Blocks.TypedBy (bs : Blocks) (types : Table String) : Prop :=
  ∀ l, bs.Reachable l → ∀ o ∈ bs.opsAt l, ∀ r ∈ o.writes, ∃ t, types.get? r.name = some t

namespace TypeSource

variable {s : TypeSource} {b : Body} {params : List Param}

/-- The types a body mentions are interned: of its parameters, of the locals it declares, and those
recorded on its operations. -/
structure Closed (s : TypeSource) (params : List Param) (ops : List Op) : Prop where
  params : ∀ q ∈ params, s.Interns q.type
  locals : ∀ e ∈ declaredBy ops, s.Interns e.2
  recorded : ∀ o ∈ ops, ∀ t, s.recorded o.instr = some t → s.Interns t

/-- What gives types of a kind to all names within reach. -/
theorem typedBy_infer {P : String → Prop}
    (h : ∀ n, n ∈ params.map (·.name) ∨ n ∈ writtenBy b.blocks.reachedOps →
      ∃ t, (s.infer b params).get? n = some t ∧ P t) :
    b.blocks.TypedBy (s.infer b params) := by
  intro l hl o ho r hr
  obtain ⟨t, ht, -⟩ := h r.name (.inr (List.mem_map_of_mem
    (List.mem_flatMap.mpr ⟨o, mem_reachedOps.mpr ⟨l, hl, ho⟩, hr⟩)))
  exact ⟨t, ht⟩

/-- **The names that have types.**  Parameters have.  All names written within reach have if and
only if no merge into a name not declared is in the entry block, and the types that come to each are
one, or all interned; so they have where the types mentioned are interned, and those of such merges.
-/
theorem infer_complete (ha : b.blocks.Acyclic) (hpass : b.violations (params.map (·.name)) = [])
    (hm : b.blocks.MergesReached) (hall : b.blocks.MergesAll)
    (hdeclares : ∀ o ∈ b.blocks.reachedOps, s.Declares o) :
    let types := s.infer b params
    (∀ q ∈ params, ∃ t, types.get? q.name = some t) ∧
    (b.blocks.TypedBy types ↔
      ∀ l inputs target, b.blocks.OpenMerge l inputs target →
        l ≠ entryLabel ∧ s.Joinable (inputs.values.filterMap fun r => types.get? r.name)) ∧
    (s.Closed params b.blocks.reachedOps →
      (∀ l inputs target, b.blocks.OpenMerge l inputs target →
        l ≠ entryLabel ∧ ∀ t, types.get? target.name = some t → s.Interns t) →
      b.blocks.TypedBy types) := by
  intro types
  refine ⟨fun q hq => ?_, ⟨fun htyped l inputs target h => ?_, fun hmerges => ?_⟩,
    fun hclosed hmerges => ?_⟩
  · have hname : q.name ∈ params.map (·.name) := List.mem_map_of_mem hq
    obtain ⟨q', -, ht⟩ := exists_get?_given hname
    exact ⟨_, (get?_infer_of_known hpass (List.nil_append _).symm (.inl hname)).trans ht⟩
  · obtain ⟨hl, -, pos, -, ho, -, -⟩ := h.reached
    obtain ⟨t, ht⟩ := htyped l hl _ ho target (Option.mem_toList.mpr rfl)
    rw [get?_infer_of_openMerge ha hpass hm h] at ht
    obtain ⟨hne, hjoin⟩ := isSome_join.mp (Option.isSome_of_eq_some ht)
    exact ⟨(h.values_ne_nil ha hm hall).mp fun hnil => hne (by rw [hnil]; rfl), hjoin⟩
  · refine typedBy_infer (P := fun _ => True) (infer_gives ha hpass hm (fun _ _ => trivial)
      (fun _ _ => trivial) (fun _ _ _ _ => trivial) hdeclares fun l inputs target h hinputs => ?_)
    obtain ⟨hl, hjoin⟩ := hmerges l inputs target h
    exact merged_gives ha hpass hm hall h hl (fun r hr => (hinputs r hr).imp fun _ => And.left)
      hjoin fun _ _ => trivial
  · refine typedBy_infer (infer_gives ha hpass hm hclosed.params hclosed.locals hclosed.recorded
      hdeclares fun l inputs target h hinputs => ?_)
    obtain ⟨hl, hinterned⟩ := hmerges l inputs target h
    refine merged_gives ha hpass hm hall h hl (fun r hr => (hinputs r hr).imp fun _ => And.left)
      (.inr fun t ht => ?_) hinterned
    obtain ⟨r, hr, ht⟩ := List.mem_filterMap.mp ht
    obtain ⟨t', ht', hP⟩ := hinputs r hr
    exact Option.some.inj (ht'.symm.trans ht) ▸ hP

end TypeSource

/-! ## A merge of a merge, with and without its types -/

theorem Blocks.nested_mergesAll : nested.MergesAll := by
  have hinputs : ∀ l ∈ nested.keys, ∀ o ∈ nested.opsAt l, o.instr.isMerge = true →
      ∀ p ∈ nested.predecessors l, p ∈ o.instr.sources := by decide +kernel
  intro l o ho inputs target hi p _ e
  have hp := hinputs l (Table.mem_keys.mpr (contains_of_mem_opsAt ho)) o ho (by rw [hi]; rfl) p
    (mem_predecessors.mpr e.1)
  rw [hi] at hp
  exact Table.mem_keys.mp hp

/-- What the merge of a merge mentions: a number, a text and a truth value. -/
def TypeSource.plain : TypeSource :=
  .interning [["Core::Int"], ["Core::String"], ["Core::Bool"]]

/-- The unions of them that its merges make, too. -/
def TypeSource.joined : TypeSource :=
  .interning [["Core::Int"], ["Core::String"], ["Core::Bool"], ["Core::Int", "Core::String"],
    ["Core::Bool", "Core::Int", "Core::String"]]

theorem Blocks.nested_reachedOps : nested.reachedOps = ["entry", "right", "left", "two", "one",
    "inner", "returnassign", "exit"].flatMap nested.opsAt := by
  rw [reachedOps, nested_reversePostOrder]

theorem Blocks.nested_closed : ∀ s ∈ [TypeSource.plain, .joined],
    s.Closed Param.asked nested.reachedOps := by
  have hparams : ∀ s ∈ [TypeSource.plain, .joined], ∀ q ∈ Param.asked, s.Interns q.type := by
    decide +kernel
  have hlocals : ∀ s ∈ [TypeSource.plain, .joined],
      ∀ e ∈ declaredBy nested.reachedOps, s.Interns e.2 := by
    rw [nested_reachedOps]
    decide +kernel
  have hrecorded : ∀ s ∈ [TypeSource.plain, .joined],
      ∀ o ∈ nested.reachedOps, ∀ t ∈ s.recorded o.instr, s.Interns t := by
    rw [nested_reachedOps]
    decide +kernel
  exact fun s hs => ⟨hparams s hs, hlocals s hs, hrecorded s hs⟩

/-- It refers to no constants and fields. -/
theorem Blocks.nested_declares (s : TypeSource) : ∀ o ∈ nested.reachedOps, s.Declares o := by
  have hflow : ∀ o ∈ nested.reachedOps, o.instr.kind ≠ .value := by
    rw [nested_reachedOps]
    decide +kernel
  intro o ho
  rw [TypeSource.Declares]
  split
  case h_1 hi => exact absurd (by rw [hi]; rfl) (hflow o ho)
  case h_2 hi => exact absurd (by rw [hi]; rfl) (hflow o ho)
  case h_3 => trivial

/-- The inner merge has a type, the outer one has none. -/
theorem Blocks.nested_plain : ["x", "z"].map (TypeSource.plain.infer .nested Param.asked).get? =
    [some "Core::Int | Core::String", none] := by
  change ["x", "z"].map (TypeSource.plain.met Param.asked nested.orderedOps).types.get? = _
  rw [orderedOps_eq, order, nested_reversePostOrder]
  decide +kernel

theorem Blocks.nested_joined : ∀ n ∈ ["x", "z"],
    ∀ t ∈ (TypeSource.joined.infer .nested Param.asked).get? n, TypeSource.joined.Interns t := by
  change ∀ n ∈ ["x", "z"],
    ∀ t ∈ (TypeSource.joined.met Param.asked nested.orderedOps).types.get? n, _
  rw [orderedOps_eq, order, nested_reversePostOrder]
  decide +kernel

/-- Only these two merge into names that are not declared. -/
theorem Blocks.nested_openMerge {l : String} {inputs : Table Register} {target : Register}
    (h : nested.OpenMerge l inputs target) : l ≠ entryLabel ∧ target.name ∈ ["x", "z"] := by
  have hmerges : ∀ l ∈ nested.keys, ∀ o ∈ nested.opsAt l, o.instr.isMerge = true →
      l ≠ entryLabel ∧ ∀ r ∈ o.writes, r.name ∈ ["x", "z"] := by decide +kernel
  obtain ⟨-, -, pos, -, ho, -, -⟩ := h.reached
  obtain ⟨hl, htarget⟩ := hmerges l (Table.mem_keys.mpr (contains_of_mem_opsAt ho)) _ ho rfl
  exact ⟨hl, htarget target (Option.mem_toList.mpr rfl)⟩

/-- **Where the unions are interned, the merge of a merge has a type**, as all names have. -/
theorem nested_typed : Blocks.nested.TypedBy (TypeSource.joined.infer .nested Param.asked) := by
  obtain ⟨-, -, htyped⟩ := @TypeSource.infer_complete .joined .nested Param.asked
    Blocks.nested_acyclic Blocks.nested_accepted Blocks.nested_mergesReached
    Blocks.nested_mergesAll (Blocks.nested_declares _)
  refine htyped (Blocks.nested_closed _ (by simp)) fun l inputs target h => ?_
  obtain ⟨hl, htarget⟩ := Blocks.nested_openMerge h
  exact ⟨hl, Blocks.nested_joined _ htarget⟩

/-- **Where only the types mentioned are interned, it has none**: that of the inner merge is not. -/
theorem nested_untyped :
    Blocks.nested.Acyclic ∧ Body.nested.violations (Param.asked.map (·.name)) = [] ∧
    Blocks.nested.MergesReached ∧ Blocks.nested.MergesAll ∧
    (∀ o ∈ Blocks.nested.reachedOps, TypeSource.plain.Declares o) ∧
    TypeSource.plain.Closed Param.asked Blocks.nested.reachedOps ∧
    ¬ Blocks.nested.TypedBy (TypeSource.plain.infer .nested Param.asked) := by
  refine ⟨Blocks.nested_acyclic, Blocks.nested_accepted, Blocks.nested_mergesReached,
    Blocks.nested_mergesAll, Blocks.nested_declares _, Blocks.nested_closed _ (by simp),
    fun htyped => ?_⟩
  have hreach : Blocks.nested.Reachable returnLabel := by
    rw [← Blocks.mem_reversePostOrder, Blocks.nested_reversePostOrder]
    decide +kernel
  obtain ⟨t, ht⟩ := htyped returnLabel hreach ⟨.synthetic, .phi (Table.ofList
    [("inner", .var (.ofBase "x")), ("right", .var (.ofBase "c"))]) (.var (.ofBase "z"))⟩
    (by decide +kernel) (.var (.ofBase "z")) (by decide)
  have hz : (TypeSource.plain.infer .nested Param.asked).get? "z" = none :=
    (List.cons.inj (List.cons.inj Blocks.nested_plain).2).1
  exact Option.some_ne_none t (ht.symm.trans hz)

end Monomorph
