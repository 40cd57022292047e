import Monomorph.Op.Views
import Monomorph.Proofs.Wire.Operand
import Monomorph.Wire.Op

/-!
# Wire/Op — operations are read back

What an operation is written as and how it is read stand in two tables with a row for each of the
57 instructions.  Whatever is proved here of all rows is proved row by row in the same way, out of
what is known of single fields: **an operation is read back if its literals are wire safe**
(`op_rearranged`), and the literals of every operation read are (`op_wireSafe`).
-/

namespace Monomorph

/-- The literals of a right-hand side, among its operands or by itself, are wire safe. -/
structure Rhs.WireSafe (e : Rhs Operand) : Prop where
  operands : ∀ a ∈ e.operands, a.WireSafe
  const : ∀ l, e = .const l → l.WireSafe

/-- The literals of an instruction are wire safe. -/
structure Instr.WireSafe (i : Instr Operand) : Prop where
  operands : ∀ a ∈ i.operands, a.WireSafe
  define : ∀ e t, i = .define e t → e.WireSafe

namespace Wire

/-! ## What is written is plain -/

theorem plain_ofOperands (as : List Operand) : (ofOperands as).Plain :=
  .array (List.forall_mem_map.mpr fun a _ => plain_ofOperand a)

theorem plain_ofPairs {κ : Type} {f : κ → Json} (h : ∀ k, (f k).Plain) (ps : List (κ × Operand)) :
    (ofPairs f ps).Plain :=
  .array (List.forall_mem_map.mpr fun p _ => .array (by simp [h, plain_ofOperand]))

theorem plain_nullable (s : Option String) : (Json.nullable .text s).Plain := by
  cases s
  · exact .null
  · exact .text _

theorem plain_words (is : List UInt64) : (Json.array (is.map fun i => .ofNat i.toNat)).Plain :=
  .array (List.forall_mem_map.mpr fun _ _ => plain_ofNat _)

theorem plain_textPairs (ks : List (String × String)) :
    (Json.array (ks.map fun k => .texts [k.1, k.2])).Plain :=
  .array (List.forall_mem_map.mpr fun _ _ => plain_texts _)

theorem plain_table {α : Type} {f : α → Json} {t : Table α} (h : ∀ a, (f a).Plain) :
    (Json.object (t.entries.map fun e => (e.1, f e.2))).Plain := by
  refine .object ?_ (List.forall_mem_map.mpr fun e _ => h e.2)
  rw [List.map_map]
  exact t.nodup_keys

/-- The fields of a right-hand side are plain, and go by names of their own. -/
theorem plain_rhsFields (e : Rhs Operand) : (∀ f ∈ (rhsFields e).2, f.2.Plain) ∧
    ("tag" :: "sinfo" :: ((rhsFields e).2.map (·.1) ++ ["trgt"])).Nodup := by
  cases e <;>
    simp [rhsFields, viewFields, Json.Plain.text, Json.Plain.bool, plain_texts, plain_ofNat,
      plain_words, plain_textPairs, plain_nullable, plain_ofLiteral, plain_ofVar, plain_ofRegister,
      plain_ofOperand, plain_ofOperands, plain_ofPairs]

theorem plain_instrFields (i : Instr Operand) : (∀ f ∈ (instrFields i).2, f.2.Plain) ∧
    ("tag" :: "sinfo" :: (instrFields i).2.map (·.1)).Nodup := by
  cases i with
  | define e t =>
    obtain ⟨hplain, hkeys⟩ := plain_rhsFields e
    refine ⟨List.forall_mem_append.mpr ⟨hplain, ?_⟩, by rwa [instrFields, List.map_append]⟩
    exact List.forall_mem_singleton.mpr (plain_ofTemp t)
  | debug a =>
    cases a <;> simp [instrFields, plain_ofOperand]
  | _ =>
    simp [instrFields, Json.Plain.text, plain_ofTemp, plain_ofVar, plain_ofRegister,
      plain_ofOperand, plain_ofOperands, plain_table plain_ofRegister]

theorem plain_ofOp (o : Op) : (ofOp o).Plain := by
  obtain ⟨hplain, hkeys⟩ := plain_instrFields o.instr
  exact .object hkeys (List.forall_mem_cons.mpr ⟨.text _,
    List.forall_mem_cons.mpr ⟨plain_ofPosition _, hplain⟩⟩)

/-! ## Reading back -/

theorem nodup_instrNames : (instrLayouts.map (·.1)).Nodup := by
  simp [instrLayouts, rhsLayouts, otherLayouts]

/-- The layout listed with a name is the layout of the name. -/
theorem instrLayout_of_mem {name : String} {l : Layout (Instr Operand)}
    (h : (name, l) ∈ instrLayouts) : instrLayout name = l := by
  obtain ⟨before, after, hsplit⟩ := List.append_of_mem h
  have hnames := nodup_instrNames
  rw [hsplit, List.map_append, List.map_cons, List.nodup_append] at hnames
  have hlookup : instrLayouts.lookup name = some l :=
    List.lookup_eq_some_iff.mpr ⟨before, after, hsplit, fun e he => by
      simpa using (hnames.2.2 _ (List.mem_map_of_mem he) _ List.mem_cons_self).symm⟩
  rw [instrLayout, hlookup]
  rfl

section

variable {u : Json → Json} (hu : Json.Rearranges u)
include hu

theorem operands_rearranged {as : List Operand} (h : ∀ a ∈ as, a.WireSafe) :
    list operand (u (ofOperands as)) = .ok as :=
  list_rearranged hu fun a ha => operand_rearranged hu (h a ha)

theorem pairs_rearranged {κ : Type} {read : Json → Decoded κ} {f : κ → Json}
    (hread : ∀ k, read (u (f k)) = .ok k) {ps : List (κ × Operand)}
    (h : ∀ a ∈ ps.map (·.2), a.WireSafe) : list (pair read operand) (u (ofPairs f ps)) = .ok ps :=
  list_rearranged hu fun p hp =>
    pair_rearranged hu (hread p.1) (operand_rearranged hu (h p.2 (List.mem_map_of_mem hp)))

theorem nullable_rearranged (s : Option String) :
    nullable text (u (Json.nullable .text s)) = .ok s := by
  cases s with
  | none =>
    rw [Json.nullable, hu.null]
    rfl
  | some s =>
    rw [Json.nullable, hu.text]
    rfl

theorem words_rearranged (is : List UInt64) :
    list word64 (u (.array (is.map fun i => .ofNat i.toNat))) = .ok is :=
  list_rearranged hu fun i _ => word64_rearranged hu i

theorem textPairs_rearranged (ks : List (String × String)) :
    list (pair text text) (u (.array (ks.map fun k => .texts [k.1, k.2]))) = .ok ks :=
  list_rearranged hu fun k _ =>
    pair_rearranged hu (text_rearranged hu k.1) (text_rearranged hu k.2)

/-- A right-hand side is made of its fields by the layout listed with its name. -/
theorem exists_rhsLayout {e : Rhs Operand} (h : e.WireSafe) :
    ∃ l, ((rhsFields e).1, l) ∈ rhsLayouts ∧
      ∀ m : Members, (∀ f ∈ (rhsFields e).2, m.values f.1 = [u f.2]) → l.value? m = some e := by
  obtain ⟨hoperands, hconst⟩ := h
  cases e
  all_goals
    apply Exists.intro
    constructor
    · -- the row is found by its name
      simp only [rhsLayouts, rhsFields]
      repeat (first | exact List.Mem.head _ | refine List.Mem.tail _ ?_)
    · intro m hm
      simp only [rhsFields, viewFields, List.cons_append, List.nil_append,
        List.forall_mem_cons] at hm
      simp only [Rhs.operands, List.forall_mem_cons] at hoperands
      simp +contextual [viewOf, textField, operandField, operandsField, pairsField, flagField,
        wordField, hm, hoperands, hconst, text_rearranged hu, flag_rearranged hu,
        operand_rearranged hu, literal_rearranged hu, word64_rearranged hu, texts_rearranged hu,
        words_rearranged hu, textPairs_rearranged hu, nullable_rearranged hu, var_rearranged hu,
        register_rearranged hu, operands_rearranged hu, pairs_rearranged hu (flag_rearranged hu),
        pairs_rearranged hu (text_rearranged hu), pairs_rearranged hu (word64_rearranged hu),
        -List.mem_map]

/-- So is an instruction. -/
theorem exists_instrLayout {i : Instr Operand} (h : i.WireSafe) :
    ∃ l, ((instrFields i).1, l) ∈ instrLayouts ∧ ∀ (m : Members) (p : Json),
      m.Holds u (("sinfo", p) :: (instrFields i).2) → l.value? m = some i := by
  cases i with
  | define e t =>
    obtain ⟨l, hl, hvalue⟩ := exists_rhsLayout hu (h.define e t rfl)
    refine ⟨_, List.mem_append_left _ (List.mem_map_of_mem hl), fun m p hm => ?_⟩
    obtain ⟨-, hfields⟩ := List.forall_mem_cons.mp hm.values
    obtain ⟨hrhs, htarget⟩ := List.forall_mem_append.mp hfields
    rw [Layout.value?_seq, Layout.value?_map, hvalue m hrhs, Layout.value?_field,
      List.forall_mem_singleton.mp htarget]
    simp [temp_rearranged hu]
  | debug a =>
    have hlisted : ("debug", Instr.debug <$> .defaulted "value" none fun j => some <$> operand j) ∈
        instrLayouts := by
      refine List.mem_append_right _ ?_
      rw [otherLayouts]
      repeat (first | exact List.Mem.head _ | refine List.Mem.tail _ ?_)
    cases a with
    | none =>
      refine ⟨_, hlisted, fun m p hm => ?_⟩
      have hnone := hm.others "value" (by simp [instrFields])
      simp [hnone]
    | some a =>
      refine ⟨_, hlisted, fun m p hm => ?_⟩
      have hvalue : m.values "value" = [u (ofOperand a)] :=
        (List.forall_mem_cons.mp hm.values).2 _ List.mem_cons_self
      have hread : some <$> operand (u (ofOperand a)) = .ok (some a) :=
        map_eq_ok.mpr ⟨a, operand_rearranged hu (h.operands a List.mem_cons_self), rfl⟩
      rw [Layout.value?_map, Layout.value?_defaulted, hvalue]
      simp only [hread, toOption_ok, Option.map_some]
  | _ =>
    have hoperands := h.operands
    apply Exists.intro
    constructor
    · refine List.mem_append_right _ ?_
      simp only [otherLayouts, instrFields]
      repeat (first | exact List.Mem.head _ | refine List.Mem.tail _ ?_)
    · intro m p hm
      have hvalues := hm.values
      simp only [instrFields, List.forall_mem_cons] at hvalues
      simp only [Instr.operands, List.forall_mem_cons] at hoperands
      simp +contextual [textField, operandField, operandsField, hvalues, hoperands,
        text_rearranged hu, operand_rearranged hu, operands_rearranged hu, temp_rearranged hu,
        var_rearranged hu, register_rearranged hu,
        table_rearranged hu fun r _ => register_rearranged hu r true]

/-- **An operation is read back** if its literals are wire safe. -/
theorem op_rearranged {o : Op} (h : o.instr.WireSafe) : op (u (ofOp o)) = .ok o := by
  obtain ⟨l, hl, hvalue⟩ := exists_instrLayout hu h
  refine tagged_rearranged hu (plain_ofOp o) (List.mem_map.mpr ⟨_, hl, rfl⟩)
    (fun m hm => ?_) false
  have hposition := hm.values _ List.mem_cons_self
  rw [Layout.value?_seq, Layout.value?_map, Layout.value?_field, hposition, instrLayout_of_mem hl,
    hvalue m _ hm]
  simp [position_rearranged hu]

end

/-! ## Whatever is read -/

section

variable {name : String}

theorem gives_operand {P : Operand → Prop} (h : ∀ a, a.WireSafe → P a) :
    (operandField name).Gives P :=
  .field fun _ a ha => h a (operand_wireSafe ha)

theorem gives_operands {P : List Operand → Prop} (h : ∀ as, (∀ a ∈ as, a.WireSafe) → P as) :
    (operandsField name).Gives P :=
  .field fun _ as has => h as (list_forall (fun _ _ => operand_wireSafe) has)

theorem gives_pairs {κ : Type} {read : Json → Decoded κ} {P : List (κ × Operand) → Prop}
    (h : ∀ ps, (∀ a ∈ ps.map (·.2), a.WireSafe) → P ps) : (pairsField name read).Gives P :=
  .field fun _ ps hps => h ps <| List.forall_mem_map.mpr <|
    list_forall (fun _ _ => pair_snd fun _ _ => operand_wireSafe) hps

theorem gives_optional {P : Option Operand → Prop} (h : ∀ a : Option Operand,
    (∀ b ∈ a, b.WireSafe) → P a) :
    (Layout.defaulted name none fun j => some <$> operand j).Gives P := by
  refine .defaulted (h none nofun) fun j a ha => h a fun b hb => ?_
  obtain ⟨a', ha', hsome⟩ := map_eq_ok.mp ha
  rw [← hsome] at hb
  exact Option.some.inj hb ▸ operand_wireSafe ha'

end

/-- **Every right-hand side read is wire safe**: its fields are read one by one, and of those that
are no literals anything may be read. -/
theorem gives_rhs : ∀ e ∈ rhsLayouts, e.2.Gives Rhs.WireSafe := by
  simp only [rhsLayouts, List.forall_mem_cons, List.not_mem_nil, false_implies,
    implies_true, and_true]
  refine ⟨.map (.field fun _ l hl => ⟨by simp [Rhs.operands], fun _ h => ?_⟩), ?_⟩
  · cases h
    exact literal_wireSafe hl
  repeat' apply And.intro
  all_goals
    repeat (first
      | refine Layout.Gives.seq ?_
      | refine Layout.Gives.map ?_
      | refine gives_operand fun _ _ => ?_
      | refine gives_operands fun _ _ => ?_
      | refine gives_pairs fun _ _ => ?_
      | refine Layout.Gives.any fun _ => ?_)
  all_goals exact ⟨by simp +contextual [Rhs.operands, *, -List.mem_map], fun _ h => nomatch h⟩

/-- So is every instruction. -/
theorem gives_other : ∀ e ∈ otherLayouts, e.2.Gives Instr.WireSafe := by
  simp only [otherLayouts, List.forall_mem_cons, List.not_mem_nil, false_implies,
    implies_true, and_true]
  repeat' apply And.intro
  all_goals
    repeat (first
      | refine Layout.Gives.seq ?_
      | refine Layout.Gives.map ?_
      | refine gives_operand fun _ _ => ?_
      | refine gives_operands fun _ _ => ?_
      | refine gives_optional fun _ _ => ?_
      | refine Layout.Gives.any fun _ => ?_)
  all_goals exact ⟨by simp +contextual [Instr.operands, *], fun _ _ h => nomatch h⟩

theorem gives_instr (name : String) : (instrLayout name).Gives Instr.WireSafe := by
  rw [instrLayout]
  cases hlookup : instrLayouts.lookup name with
  | none => exact fun _ _ h => nomatch h
  | some l =>
    obtain ⟨before, after, hsplit, -⟩ := List.lookup_eq_some_iff.mp hlookup
    have hmem : (name, l) ∈ instrLayouts := hsplit ▸ List.mem_append_right _ List.mem_cons_self
    rcases List.mem_append.mp hmem with hrhs | hother
    · obtain ⟨e, he, heq⟩ := List.mem_map.mp hrhs
      obtain ⟨-, rfl⟩ := Prod.mk.inj heq
      refine .seq (.map fun m a ha => .any fun t => ?_)
      have hsafe := gives_rhs e he m a ha
      exact ⟨hsafe.operands, fun _ _ h => by cases h; exact hsafe⟩
    · exact gives_other _ hother

/-- **The literals of every operation read are wire safe.** -/
theorem op_wireSafe {j : Json} {o : Op} (h : op j = .ok o) : o.instr.WireSafe := by
  suffices ∀ name, (Op.mk <$> Layout.field "sinfo" position <*> instrLayout name).Gives
      fun o => o.instr.WireSafe from tagged_forall this h
  exact fun name => .seq (.map (.any fun _ => gives_instr name))

end Wire

end Monomorph
