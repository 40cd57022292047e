import Monomorph.Proofs.Lowering.Following
import Monomorph.Proofs.Ssa.Conversion

/-!
# Lowering/Trimming — what passes over code leave as it is

A pass that changes operations block by block leaves the graph as it is if every block goes on
ending as it did (`sameGraph_mapOps`).  Dropping operations that only give temporaries their values
could break that: a jump that something droppable follows does not end its block, until what
follows is dropped.  **Where something that acts follows every jump that is not last** (`Settled`),
the blocks end the same whatever is dropped.
-/

namespace Monomorph

/-! ## Operations but for their registers -/

/-- What of an operation passes leave as it is: its place, what it does, and the base it writes. -/
def Op.bare (o : Op) : Position × Instr Unit :=
  (o.position, (o.instr.map fun _ => ()).plain)

theorem Op.acts_bare (o : Op) : o.bare.2.acts = o.instr.acts := by
  rw [bare, Instr.acts_plain, Instr.acts_map]

/-! ## How blocks end -/

/-- Every jump that is not last is followed by something that acts. -/
def Block.Settled (b : Block) : Prop :=
  ∀ earlier o later, b.ops = earlier ++ o :: later → o.instr.isTerminator = true → later ≠ [] →
    ∃ x ∈ later, x.instr.acts = true

/-- A block whose only jump is its last operation is settled. -/
theorem Block.EndsOnce.settled {b : Block} (h : b.EndsOnce) : b.Settled := by
  intro earlier o later hops ht hne
  have hmem : o ∈ b.ops.dropLast := by
    rw [hops, List.dropLast_append_of_ne_nil (by simp), List.dropLast_cons_of_ne_nil hne]
    exact List.mem_append_right _ List.mem_cons_self
  rw [h o hmem] at ht
  cases ht

/-- A jump left last was last before. -/
theorem Block.Settled.getLast?_of_filter {b : Block} (h : b.Settled) {p : Op → Bool}
    (hp : ∀ o ∈ b.ops, o.instr.acts = true → p o = true) {o : Op}
    (ho : (b.ops.filter p).getLast? = some o) (ht : o.instr.isTerminator = true) :
    b.ops.getLast? = some o := by
  obtain ⟨kept, hkept⟩ := List.getLast?_eq_some_iff.mp ho
  obtain ⟨l, r, hops, -, hr⟩ := List.filter_eq_append_iff.mp hkept
  obtain ⟨l', later, rfl, -, -, hlater⟩ := List.filter_eq_cons_iff.mp hr
  have hsplit : b.ops = (l ++ l') ++ o :: later := by rw [hops, List.append_assoc]
  have hnil : later = [] := by
    by_contra hne
    obtain ⟨x, hx, ha⟩ := h (l ++ l') o later hsplit ht hne
    have hxp : p x = true := hp x (by rw [hsplit]; simp [hx]) ha
    exact absurd (List.mem_filter.mpr ⟨hx, hxp⟩) (by rw [hlater]; simp)
  rw [hsplit, hnil, List.getLast?_concat]

/-- **A settled block ends the same** whatever is dropped that does not act. -/
theorem Block.Settled.terminator?_filter {b : Block} (h : b.Settled) {p : Op → Bool}
    (hp : ∀ o ∈ b.ops, o.instr.acts = true → p o = true) :
    Block.terminator? { b with ops := b.ops.filter p } = b.terminator? := by
  refine Option.ext fun o => ?_
  rw [terminator?_eq_some, terminator?_eq_some]
  refine and_congr_left fun ht => ⟨fun ho => h.getLast?_of_filter hp ho ht, fun ho => ?_⟩
  obtain ⟨init, hops⟩ := List.getLast?_eq_some_iff.mp ho
  have hpo : p o = true := hp o (by simp [hops]) (Instr.acts_of_isTerminator ht)
  change (b.ops.filter p).getLast? = some o
  rw [hops, List.filter_append, List.filter_cons_of_pos hpo]
  exact List.getLast?_concat

/-- What is left of a settled block is settled. -/
theorem Block.Settled.filter {b : Block} (h : b.Settled) {p : Op → Bool}
    (hp : ∀ o ∈ b.ops, o.instr.acts = true → p o = true) :
    Block.Settled { b with ops := b.ops.filter p } := by
  intro earlier o later heq ht hne
  obtain ⟨l, r, hops, -, hr⟩ := List.filter_eq_append_iff.mp heq
  obtain ⟨l', rest, rfl, -, -, rfl⟩ := List.filter_eq_cons_iff.mp hr
  have hsplit : b.ops = (l ++ l') ++ o :: rest := by rw [hops, List.append_assoc]
  obtain ⟨x, hx, ha⟩ := h (l ++ l') o rest hsplit ht (by rintro rfl; exact hne rfl)
  exact ⟨x, List.mem_filter.mpr ⟨hx, hp x (by rw [hsplit]; simp [hx]) ha⟩, ha⟩

/-- A block whose operations jump and act in the same places is settled, too. -/
theorem Block.Settled.congr {b b' : Block} (h : b.Settled)
    (heq : b'.ops.map (fun o => (o.leads, o.instr.acts))
      = b.ops.map fun o => (o.leads, o.instr.acts)) : b'.Settled := by
  intro earlier o later hops ht hne
  rw [hops, List.map_append, List.map_cons] at heq
  obtain ⟨l, r, hsplit, -, hr⟩ := List.map_eq_append_iff.mp heq.symm
  obtain ⟨x, rest, rfl, hx, hrest⟩ := List.map_eq_cons_iff.mp hr
  obtain ⟨hleads, -⟩ := Prod.mk.inj hx
  have hxt : x.instr.isTerminator = true := by
    by_contra hn
    rw [Op.leads_eq_none.mpr (Bool.not_eq_true _ ▸ hn), eq_comm, Op.leads_eq_none, ht] at hleads
    cases hleads
  obtain ⟨y, hy, ha⟩ := h l x rest hsplit hxt (by rintro rfl; simp at hrest; exact hne hrest)
  obtain ⟨z, hz, hzy⟩ := List.mem_map.mp (hrest ▸ List.mem_map_of_mem hy :
    (y.leads, y.instr.acts) ∈ later.map fun o => (o.leads, o.instr.acts))
  exact ⟨z, hz, ((Prod.mk.inj hzy).2).trans ha⟩

namespace Blocks

/-! ## Bodies -/

/-- Every block is settled. -/
def Settled (bs : Blocks) : Prop :=
  ∀ l b, bs.get? l = some b → b.Settled

/-- A register some operation reads or writes. -/
def Uses (bs : Blocks) (r : Register) : Prop :=
  ∃ o ∈ bs.allOps, r ∈ o.reads ++ o.writes

/-- **What the lowering asks of a body**: it can be converted, no variable bears the name of a
temporary, and every read is definitely assigned. -/
structure Lowerable (bs : Blocks) (params : List String) : Prop extends bs.Convertible params where
  kinds : ∀ v t, bs.Uses (.var v) → bs.Uses (.temp t) → v.name ≠ t.name
  assigned : bs.DefinitelyAssigned params

/-- What a block does besides merging, registers left out. -/
def sketch (bs : Blocks) (l : String) : List (Position × Instr Unit) :=
  ((bs.opsAt l).filter fun o => !o.instr.isMerge).map Op.bare

/-- `bs'` has the operations of `bs`, in the same order, and all of those that act. -/
structure Trims (bs bs' : Blocks) : Prop where
  sublist : ∀ l, (bs'.sketch l).Sublist (bs.sketch l)
  acting : ∀ l, ((bs'.sketch l).filter fun o => o.2.acts) = (bs.sketch l).filter fun o => o.2.acts

/-- **A pass that does its work**: what it makes of a body can be lowered further, has the same
graph and the same operations but for those that do not act, and does the same. -/
structure LowersTo (params : List String) (bs bs' : Blocks) : Prop where
  lowerable : bs'.Lowerable params
  settled : bs'.Settled
  graph : SameGraph bs bs'
  trims : Trims bs bs'
  follows : ∀ {V : Type} (m : Meaning V), m.Lawful → ∀ s, Follows m bs bs' s s

variable {bs bs' bs'' : Blocks} {params : List String}

/-- Names tell the two kinds of register apart, if equal names are of one kind. -/
theorem kinds_of_isTemp (h : ∀ o ∈ bs.allOps, ∀ r ∈ o.reads ++ o.writes, ∀ o' ∈ bs.allOps,
    ∀ r' ∈ o'.reads ++ o'.writes, r.name = r'.name → r.isTemp = r'.isTemp) :
    ∀ v t, bs.Uses (.var v) → bs.Uses (.temp t) → v.name ≠ t.name := by
  rintro v t ⟨o, ho, hv⟩ ⟨o', ho', ht⟩ hname
  cases h o ho _ hv o' ho' _ ht hname

theorem settled_of_endsOnce (h : ∀ b ∈ bs.values, b.EndsOnce) : bs.Settled :=
  fun l b hb => (h b (Table.mem_values.mpr ⟨l, hb⟩)).settled

theorem Trims.refl (bs : Blocks) : Trims bs bs :=
  ⟨fun _ => .refl _, fun _ => rfl⟩

theorem Trims.trans (h : Trims bs bs') (h' : Trims bs' bs'') : Trims bs bs'' :=
  ⟨fun l => (h'.sublist l).trans (h.sublist l), fun l => (h'.acting l).trans (h.acting l)⟩

theorem LowersTo.refl (h : bs.Lowerable params) (hs : bs.Settled) : LowersTo params bs bs :=
  ⟨h, hs, ⟨fun _ => rfl, fun _ => rfl⟩, .refl bs, fun m _ s => .refl m bs s⟩

theorem LowersTo.trans (h : LowersTo params bs bs') (h' : LowersTo params bs' bs'') :
    LowersTo params bs bs'' where
  lowerable := h'.lowerable
  settled := h'.settled
  graph := h.graph.trans h'.graph
  trims := h.trims.trans h'.trims
  follows m hm s := (h.follows m hm s).trans (h'.follows m hm s)

theorem Convertible.name_eq_base (h : bs.Convertible params) {r : Register} (hr : bs.Uses r) :
    r.name = r.base := by
  obtain ⟨o, ho, hr⟩ := hr
  exact h.unversioned o ho r hr

/-- **A body that uses no other registers** can be lowered, too, if it assigns what it reads. -/
theorem Lowerable.of_uses (h : bs.Lowerable params) (hg : SameGraph bs bs')
    (hu : ∀ r, bs'.Uses r → bs.Uses r) (hm : ∀ o ∈ bs'.allOps, o.instr.isMerge = false)
    (ha : bs'.DefinitelyAssigned params) : bs'.Lowerable params where
  noMerge := hm
  unversioned o ho r hr := h.name_eq_base (hu r ⟨o, ho, hr⟩)
  closed := hg.closed h.closed
  acyclic := hg.acyclic h.acyclic
  apart := by
    have hmentions : ∀ n, bs'.Mentions params n → bs.Mentions params n := by
      rintro n (hn | ⟨o, ho, r, hr, rfl⟩)
      · exact .inl hn
      · obtain ⟨o', ho', hr'⟩ := hu r ⟨o, ho, hr⟩
        exact .inr ⟨o', ho', r, hr', rfl⟩
    exact fun b c hb hc => h.apart b c (hmentions b hb) (hmentions c hc)
  kinds v t hv ht := h.kinds v t (hu _ hv) (hu _ ht)
  assigned := ha

/-- Certainty is the same where the same blocks assign a name. -/
theorem SameGraph.certainAt (h : SameGraph bs bs') {n : String}
    (hn : ∀ l, n ∈ bs'.assignedAt l ↔ n ∈ bs.assignedAt l) (l : String) :
    bs'.CertainAt params l n ↔ bs.CertainAt params l n := by
  simp only [CertainAt, AssignedOn, List.mem_flatMap, hn, h.path_iff]

/-! ## Changing blocks one by one -/

variable {f : List Op → List Op}

theorem mem_allOps_values {o : Op} : o ∈ bs.allOps ↔ ∃ b ∈ bs.values, o ∈ b.ops :=
  List.mem_flatMap

theorem get?_mapOps (bs : Blocks) (f : List Op → List Op) (l : String) :
    (bs.mapOps f).get? l = (bs.get? l).map fun b => { b with ops := f b.ops } :=
  Table.get?_map ..

theorem opsAt_mapOps (hf : f [] = []) (l : String) : (bs.mapOps f).opsAt l = f (bs.opsAt l) := by
  rw [opsAt, get?_mapOps, opsAt]
  cases bs.get? l with
  | none => exact hf.symm
  | some b => rfl

theorem mem_allOps_mapOps {o : Op} :
    o ∈ (bs.mapOps f).allOps ↔ ∃ l b, bs.get? l = some b ∧ o ∈ f b.ops := by
  rw [mem_allOps]
  simp only [get?_mapOps, Option.map_eq_some_iff]
  constructor
  · rintro ⟨l, _, ⟨b, hb, rfl⟩, ho⟩
    exact ⟨l, b, hb, ho⟩
  · rintro ⟨l, b, hb, ho⟩
    exact ⟨l, _, ⟨b, hb, rfl⟩, ho⟩

/-- A filter of every block is one of the operations of all blocks. -/
theorem allOps_mapOps_filter (bs : Blocks) (p : Op → Bool) :
    (bs.mapOps fun ops => ops.filter p).allOps = bs.allOps.filter p := by
  rw [allOps, mapOps, Table.values_map, List.flatMap_map, allOps, List.filter_flatMap]

theorem mapOps_mapOps (bs : Blocks) (f g : List Op → List Op) :
    (bs.mapOps f).mapOps g = bs.mapOps fun ops => g (f ops) := by
  refine Table.ext_get? fun l => ?_
  simp [get?_mapOps, Function.comp_def]

theorem mapOps_congr {f g : List Op → List Op} (h : ∀ b ∈ bs.values, f b.ops = g b.ops) :
    bs.mapOps f = bs.mapOps g := by
  refine Table.ext_get? fun l => ?_
  rw [get?_mapOps, get?_mapOps]
  refine Option.map_congr fun b hb => ?_
  rw [h b (Table.mem_values.mpr ⟨l, hb⟩)]

theorem mapOps_eq_self_iff : bs.mapOps f = bs ↔ ∀ b ∈ bs.values, f b.ops = b.ops := by
  constructor
  · intro h b hb
    obtain ⟨l, hl⟩ := Table.mem_values.mp hb
    have hget := get?_mapOps bs f l
    rw [h, hl] at hget
    exact (congrArg Block.ops (Option.some.inj hget)).symm
  · intro h
    rw [mapOps_congr (g := id) h]
    exact Table.ext_get? fun l => by simp [get?_mapOps]

theorem sameGraph_mapOps (h : ∀ l b, bs.get? l = some b →
    Block.ending { b with ops := f b.ops } = b.ending) : SameGraph bs (bs.mapOps f) where
  contains l := Table.contains_map ..
  successors l := by
    rw [successors, successors, get?_mapOps]
    cases hb : bs.get? l with
    | none => rfl
    | some b => exact (Block.successors_eq _).trans ((h l b hb) ▸ (Block.successors_eq b).symm)

end Blocks

end Monomorph
