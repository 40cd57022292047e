import Monomorph.Proofs.Graph.Search
import Monomorph.Proofs.Wire.Interned
import Monomorph.Proofs.Wire.Op
import Monomorph.Wire.Assembly

/-!
# Wire/Assembly — which assemblies are read back

A body is written as the list of its blocks, in an order that depends on what leads to what; labels
are not written beside them, so reading puts each block under the label it has.  **An assembly is
read back exactly if each of its blocks has the label it stands under, and its literals are wire
safe** (`Assembly.WireSafe`), whatever the blocks lead to.  Every assembly read is such an assembly:
what was read once is written and read from then on without a change.
-/

namespace Monomorph

/-- Each block stands under its label, and the literals of its operations are wire safe. -/
structure Body.WireSafe (b : Body) : Prop where
  labels : ∀ l x, b.blocks.get? l = some x → x.label = l
  ops : ∀ x ∈ b.blocks.values, ∀ o ∈ x.ops, o.instr.WireSafe

/-- Every body is wire safe. -/
def Assembly.WireSafe (m : Assembly) : Prop :=
  ∀ c ∈ m.callables.values, c.body.WireSafe

namespace Wire

/-! ## Bodies -/

/-- The blocks of a body, put under their labels again. -/
theorem ofList_ordered {b : Body} (h : b.WireSafe) :
    Table.ofList (b.blocks.ordered.map fun x => (x.label, x)) = b.blocks := by
  refine Table.ofList_of_perm ((b.blocks.ordered_perm_values.map _).trans (.of_eq ?_))
  rw [Table.values, List.map_map]
  refine (List.map_congr_left fun e he => ?_).trans (List.map_id _)
  exact Prod.ext (h.labels _ _ (Table.mem_entries.mp he)) rfl

section

variable {u : Json → Json} (hu : Json.Rearranges u)
include hu

theorem ofTable_rearranged {α : Type} {read : Json → Decoded α} {f : α → Json} {t : Table α}
    (h : ∀ v ∈ t.values, read (u (f v)) = .ok v) : table read (u (ofTable f t)) = .ok t :=
  table_rearranged hu h

theorem textTable_rearranged (t : Table String) : table text (u (ofTable .text t)) = .ok t :=
  ofTable_rearranged hu fun s _ => text_rearranged hu s

/-- A table is never taken for a missing one. -/
theorem nullableTable_rearranged (t : Table String) :
    nullable (table text) (u (ofTable .text t)) = .ok (some t) := by
  have hread := textTable_rearranged hu t
  obtain ⟨es, hes, -⟩ := hu.object _ (Json.plain_object.mp (plain_table (t := t) Json.Plain.text)).1
  rw [ofTable, hes] at hread ⊢
  exact map_eq_ok.mpr ⟨t, hread, rfl⟩

theorem block_rearranged {b : Block} (h : ∀ o ∈ b.ops, o.instr.WireSafe) :
    block (u (ofBlock b)) = .ok b := by
  have hops : list op (u (.array (b.ops.map ofOp))) = .ok b.ops :=
    list_rearranged hu fun o ho => op_rearranged hu (h o ho)
  refine Layout.ofJson_fields hu (by simp) fun m hm => ?_
  simp only [List.forall_mem_cons] at hm
  simp [blockLayout, hm, text_rearranged hu, hops]

/-- **A body is read back** if it is wire safe. -/
theorem body_rearranged {b : Body} (h : b.WireSafe) : body (u (ofBody b)) = .ok b := by
  have hblocks : list block (u (.array (b.blocks.ordered.map ofBlock))) = .ok b.blocks.ordered :=
    list_rearranged hu fun x hx =>
      block_rearranged hu (h.ops x (b.blocks.ordered_perm_values.mem_iff.mp hx))
  have htable := ofList_ordered h
  obtain ⟨file, position, blocks, types⟩ := b
  cases types with
  | none =>
    refine Layout.ofJson_rearranged hu (by simp) fun m hm => ?_
    have hmissing := hm.others "vtypes" (by simp)
    have hvalues := hm.values
    simp only [List.cons_append, List.nil_append, List.forall_mem_cons] at hvalues
    simp [bodyLayout, hvalues, hmissing, text_rearranged hu, position_rearranged hu, hblocks,
      htable]
  | some t =>
    refine Layout.ofJson_fields hu (by simp) fun m hm => ?_
    simp only [List.cons_append, List.nil_append, List.forall_mem_cons] at hm
    simp [bodyLayout, hm, text_rearranged hu, position_rearranged hu, hblocks, htable,
      nullableTable_rearranged hu]

end

/-! ## Declarations -/

section

variable {u : Json → Json} (hu : Json.Rearranges u)
include hu

theorem conceptDecl_rearranged (d : ConceptDecl) :
    conceptDecl.ofJson (u (ofConceptDecl d)) = .ok d := by
  refine Layout.ofJson_fields hu (by simp [nominalFields]) fun m hm => ?_
  simp only [nominalFields, List.cons_append, List.nil_append, List.forall_mem_cons] at hm
  simp [conceptDecl, nominalLayout, textField, textsField, positionField, hm, text_rearranged hu,
    texts_rearranged hu, position_rearranged hu, textTable_rearranged hu]

theorem entityDecl_rearranged (d : EntityDecl) :
    entityDecl.ofJson (u (ofEntityDecl d)) = .ok d := by
  refine Layout.ofJson_fields hu (by simp [nominalFields]) fun m hm => ?_
  simp only [nominalFields, List.cons_append, List.nil_append, List.forall_mem_cons] at hm
  simp [entityDecl, nominalLayout, textField, textsField, positionField, hm, text_rearranged hu,
    texts_rearranged hu, position_rearranged hu, textTable_rearranged hu]

theorem constantDecl_rearranged (d : ConstantDecl) :
    constantDecl.ofJson (u (ofConstantDecl d)) = .ok d := by
  refine Layout.ofJson_fields hu (by simp) fun m hm => ?_
  simp only [List.forall_mem_cons] at hm
  simp [constantDecl, textField, positionField, hm, text_rearranged hu, position_rearranged hu]

theorem fieldDecl_rearranged (d : FieldDecl) : fieldDecl.ofJson (u (ofFieldDecl d)) = .ok d := by
  refine Layout.ofJson_fields hu (by simp) fun m hm => ?_
  simp only [List.forall_mem_cons] at hm
  simp [fieldDecl, textField, positionField, hm, text_rearranged hu, position_rearranged hu,
    nullable_rearranged hu]

theorem param_rearranged (p : Param) : param.ofJson (u (ofParam p)) = .ok p := by
  refine Layout.ofJson_fields hu (by simp) fun m hm => ?_
  simp only [List.forall_mem_cons] at hm
  simp [param, textField, hm, text_rearranged hu]

theorem params_rearranged (ps : List Param) :
    list param.ofJson (u (.array (ps.map ofParam))) = .ok ps :=
  list_rearranged hu fun p _ => param_rearranged hu p

/-- A callable is read back if its body is wire safe. -/
theorem callable_rearranged {c : Callable} (h : c.body.WireSafe) :
    callable.ofJson (u (ofCallable c)) = .ok c := by
  refine Layout.ofJson_fields hu (by simp [callableFields]) fun m hm => ?_
  simp only [callableFields, List.cons_append, List.nil_append, List.forall_mem_cons] at hm
  simp [callable, callableLayout, textField, textsField, positionField, hm, text_rearranged hu,
    texts_rearranged hu, position_rearranged hu, params_rearranged hu, body_rearranged hu h]

theorem primitive_rearranged (c : Primitive) : primitive.ofJson (u (ofPrimitive c)) = .ok c := by
  refine Layout.ofJson_fields hu (by simp [callableFields]) fun m hm => ?_
  simp only [callableFields, List.cons_append, List.nil_append, List.forall_mem_cons] at hm
  simp [primitive, callableLayout, textField, textsField, positionField, hm, text_rearranged hu,
    texts_rearranged hu, position_rearranged hu, params_rearranged hu]

/-- **An assembly is read back** if it is wire safe. -/
theorem assembly_rearranged {m : Assembly} (h : m.WireSafe) :
    assembly (u (ofAssembly m)) = .ok m := by
  have htypes := ofTable_rearranged hu fun t (_ : t ∈ m.types.values) => interned_rearranged hu t
  have hconcepts := ofTable_rearranged hu
    fun d (_ : d ∈ m.concepts.values) => conceptDecl_rearranged hu d
  have hentities := ofTable_rearranged hu
    fun d (_ : d ∈ m.entities.values) => entityDecl_rearranged hu d
  have hconstants := ofTable_rearranged hu
    fun d (_ : d ∈ m.constants.values) => constantDecl_rearranged hu d
  have hfields := ofTable_rearranged hu
    fun d (_ : d ∈ m.fields.values) => fieldDecl_rearranged hu d
  have hcallables := ofTable_rearranged hu fun c hc => callable_rearranged hu (h c hc)
  have hprimitives := ofTable_rearranged hu
    fun c (_ : c ∈ m.primitives.values) => primitive_rearranged hu c
  have hsubtypes := ofTable_rearranged hu
    fun l (_ : l ∈ m.subtypes.values) => texts_rearranged hu l
  refine Layout.ofJson_fields hu (by simp) fun members hm => ?_
  simp only [List.forall_mem_cons] at hm
  simp [assemblyLayout, textsField, tableField, hm, texts_rearranged hu, htypes, hconcepts,
    hentities, hconstants, hfields, hcallables, hprimitives, hsubtypes]

end

/-! ## Whatever is read -/

theorem block_wireSafe {j : Json} {b : Block} (h : block j = .ok b) :
    ∀ o ∈ b.ops, o.instr.WireSafe := by
  suffices blockLayout.Gives fun b => ∀ o ∈ b.ops, o.instr.WireSafe from this.ofJson h
  exact .seq (.map (.any fun _ => .field fun _ _ => list_forall fun _ _ => op_wireSafe))

/-- The blocks of a body that is read have the labels they are put under. -/
theorem body_wireSafe {j : Json} {b : Body} (h : body j = .ok b) : b.WireSafe := by
  suffices bodyLayout.Gives Body.WireSafe from this.ofJson h
  refine .seq (.seq (.seq (.map (.any fun _ => .any fun _ => .field fun _ blocks hblocks =>
    .any fun _ => ?_))))
  have hlisted : ∀ l x, (Table.ofList (blocks.map fun b => (b.label, b))).get? l = some x →
      x ∈ blocks ∧ x.label = l := by
    intro l x hx
    obtain ⟨y, hy, heq⟩ := List.mem_map.mp (Table.mem_of_get?_ofList hx)
    obtain ⟨rfl, rfl⟩ := Prod.mk.inj heq
    exact ⟨hy, rfl⟩
  refine ⟨fun l x hx => (hlisted l x hx).2, fun x hx => ?_⟩
  obtain ⟨l, hl⟩ := Table.mem_values.mp hx
  exact list_forall (fun _ _ => block_wireSafe) hblocks x (hlisted l x hl).1

theorem callable_wireSafe {j : Json} {c : Callable} (h : callable.ofJson j = .ok c) :
    c.body.WireSafe := by
  suffices callable.Gives fun c => c.body.WireSafe from this.ofJson h
  refine .seq (.seq (.seq (.seq (.seq (.seq (.seq (.seq (.map ?_))))))))
  iterate 8 refine .any fun _ => ?_
  exact .field fun _ _ => body_wireSafe

/-- **Every assembly read is wire safe.** -/
theorem assembly_wireSafe {j : Json} {m : Assembly} (h : assembly j = .ok m) : m.WireSafe := by
  suffices assemblyLayout.Gives Assembly.WireSafe from this.ofJson h
  refine .seq (.seq (.seq (.seq (.seq (.seq (.seq (.seq (.seq (.map ?_)))))))))
  iterate 6 refine .any fun _ => ?_
  refine .field fun _ callables hcallables => ?_
  iterate 3 refine .any fun _ => ?_
  exact table_forall (fun _ _ => callable_wireSafe) hcallables

/-! ## Both ways -/

/-- **An assembly is read back exactly if it is wire safe, and every assembly read is**, so that
what was read once is read again as it is.  Sorting members by key in between changes nothing. -/
theorem assembly_ofAssembly (m : Assembly) :
    (assembly (ofAssembly m) = .ok m ↔ m.WireSafe) ∧
      (assembly (ofAssembly m).unordered = .ok m ↔ m.WireSafe) ∧
      ∀ j, assembly j = .ok m → m.WireSafe ∧ assembly (ofAssembly m) = .ok m := by
  have hback : m.WireSafe → assembly (ofAssembly m) = .ok m :=
    assembly_rearranged Json.rearranges_id
  refine ⟨⟨assembly_wireSafe, hback⟩, ⟨assembly_wireSafe, ?_⟩, fun j hj => ?_⟩
  · exact assembly_rearranged Json.rearranges_unordered
  · exact ⟨assembly_wireSafe hj, hback (assembly_wireSafe hj)⟩

/-- A block that leads to itself, and one that nothing leads to. -/
def spinning : Callable where
  key := "Main::spin"
  ns := "Main"
  name := "spin"
  attributes := []
  file := "main.bsq"
  position := ⟨1, 0, 0, 4⟩
  params := []
  result := "NSCore::Int"
  body :=
    { file := "main.bsq"
      position := ⟨1, 0, 0, 4⟩
      blocks := Table.ofList [
        ("entry", ⟨"entry", [⟨⟨2, 0, 9, 4⟩, .jump "entry"⟩]⟩),
        ("lost", ⟨"lost", [⟨⟨3, 0, 14, 4⟩, .debug (some (.literal (.float ".5")))⟩]⟩)] }

/-- The blocks of a document in another order, with one written twice and `vtypes` empty. -/
def spinningDocument : Json :=
  let position (line offset : Nat) : Json := .array [.ofNat line, .ofNat 0, .ofNat offset, .ofNat 4]
  let debug (n : String) : Json :=
    .object [("value", .text n), ("sinfo", position 3 14), ("tag", .text "debug")]
  let blocks : Json := .array [
    .object [("label", .text "lost"), ("ops", .array [debug "1"])],
    .array [.text "entry", .array [.object
      [("tag", .text "jump"), ("sinfo", position 2 9), ("trgtblock", .text "entry")]]],
    .object [("ops", .array [debug ".5"]), ("label", .text "lost")]]
  let body : Json := .object [("file", .text "main.bsq"), ("sinfo", position 1 0),
    ("blocks", blocks), ("vtypes", .null)]
  .object [("entry_points", .array []), ("type_map", .object []), ("concept_decls", .object []),
    ("entity_decls", .object []), ("constant_decls", .object []), ("field_decls", .object []),
    ("invoke_decls", .object [("Main::spin", .object
      [("key", .text "Main::spin"), ("ns", .text "Main"), ("name", .text "spin"),
        ("attributes", .array []), ("src_file", .text "main.bsq"), ("sinfo", position 1 0),
        ("params", .array []), ("result_type", .text "NSCore::Int"), ("body", body)])]),
    ("primitive_invoke_decls", .object []), ("literal_regexs", .array []),
    ("subtype_table", .object [])]

/-- The assembly of one callable that spins. -/
def spinningAssembly : Assembly where
  callables := Table.ofList [(spinning.key, spinning)]

theorem spinning_readBack : assembly spinningDocument = .ok spinningAssembly ∧
    spinningAssembly.WireSafe ∧ assembly (ofAssembly spinningAssembly) = .ok spinningAssembly := by
  have hread : assembly spinningDocument = .ok spinningAssembly := by
    decide +kernel
  exact ⟨hread, (assembly_ofAssembly spinningAssembly).2.2 spinningDocument hread⟩

end Wire

end Monomorph
