import Monomorph.Proofs.Ty.Nominal

/-!
# Ty/Callable — keys that tell callables apart

The key of a function or a member says its names, its bindings, and what stands for the closures
handed over (`Key.function_inj`, `Key.member_inj`), which is where they are written as long as the
names of files are free of percent signs (`Key.closures_inj`); a lambda's says where it is written
(`Key.lambda_inj`).  Two colons stand in every key but a lambda's, and before another name in a
member's only, so no key is of two of these sorts.  Nothing tells a static from a method, nor the
bindings of a container from those of its member: they are overlaid before a key is made, and told
apart again only by the names that the member binds (`Binds.overlay_inj`).
-/

namespace Monomorph

/-! ## What a key ends with -/

/-- The places of closures begin with a bracket, if there are any. -/
theorem Key.closures_eq_nil_or_cons (cs : List Closure) :
    (Key.closures cs).toList = [] ∨ ∃ l, (Key.closures cs).toList = '[' :: l := by
  cases cs with
  | nil => exact .inl rfl
  | cons c cs =>
    rw [Key.closures, String.append_assoc, String.toList_append]
    · exact .inr ⟨_, rfl⟩
    · simp

theorem Key.ends_closures (cs : List Closure) : Binds.Ends (Key.closures cs).toList := by
  intro c hc
  rcases Key.closures_eq_nil_or_cons cs with h | ⟨l, h⟩ <;> rw [h] at hc <;> cases hc
  decide

/-- Neither bindings nor closures go on with colons. -/
theorem Key.binds_closures_ne_colon (b : Binds) (cs : List Closure) (l : List Char) :
    (Key.binds b).toList ++ (Key.closures cs).toList ≠ ':' :: l := by
  intro h
  rcases angled_eq_nil_or_cons (Ty.bindKeys b.entries) with hb | ⟨k, hb⟩ <;>
    rw [Key.binds, hb] at h
  · rcases Key.closures_eq_nil_or_cons cs with hc | ⟨k, hc⟩ <;> rw [hc] at h <;> cases h
  · cases h

variable {p : Program} {n n' ns ns' : String} {b b' : Binds} {cs cs' : List Closure}

/-- **A name with bindings and closures is read back.** -/
theorem Key.named_read (hp : p.PlainlyNamed) (hn : PlainName n) (hn' : PlainName n')
    (hb : b.Built p) (hb' : b'.Built p)
    (h : n.toList ++ ((Key.binds b).toList ++ (Key.closures cs).toList)
      = n'.toList ++ ((Key.binds b').toList ++ (Key.closures cs').toList)) :
    n = n' ∧ b = b' ∧ Key.closures cs = Key.closures cs' := by
  obtain ⟨hname, hrest⟩ := hn.read hn' (binds_not_plain (Key.ends_closures cs))
    (binds_not_plain (Key.ends_closures cs')) h
  obtain ⟨hbinds, hclosures⟩ :=
    Key.binds_read hp hb hb' (Key.ends_closures cs) (Key.ends_closures cs') hrest
  exact ⟨hname, hbinds, String.toList_inj.mp hclosures⟩

/-! ## Where closures are written -/

/-- The file, line and column of a closure. -/
def Closure.place (c : Closure) : String × UInt32 × UInt32 :=
  (c.file, c.position.line, c.position.column)

/-- A place as a key writes it. -/
def Key.place (q : String × UInt32 × UInt32) : String :=
  q.1 ++ "%" ++ toString q.2.1 ++ "%" ++ toString q.2.2

theorem Key.toList_place (q : String × UInt32 × UInt32) : (Key.place q).toList = q.1.toList
    ++ '%' :: ((toString q.2.1.toNat).toList ++ '%' :: (toString q.2.2.toNat).toList) := by
  simp only [Key.place, String.toList_append, List.append_assoc]
  rfl

theorem Key.closures_eq (cs : List Closure) : Key.closures cs
    = if cs = [] then "" else "[" ++ String.intercalate "," ((cs.map Closure.place).map place)
      ++ "]" := by
  cases cs with
  | nil => rfl
  | cons c cs =>
    rw [if_neg (List.cons_ne_nil c cs), Key.closures, List.map_map]
    · rfl
    · simp

/-- **A place is read back** before anything that is no digit, if its file has no percent sign. -/
theorem Key.place_read {q : String × UInt32 × UInt32} (hq : '%' ∉ q.1.toList) :
    ReadBack (fun q => (Key.place q).toList) (fun q => '%' ∉ q.1.toList)
      (fun r => ∀ c ∈ r.head?, c.isDigit = false) q := by
  intro u hu r r' hr hr' h
  have unmarked : ∀ {s : String}, '%' ∉ s.toList → ∀ c ∈ s.toList, decide (c ≠ '%') = true :=
    fun hs c hc => decide_eq_true fun he => hs (he ▸ hc)
  have marked : ∀ l : List Char, ∀ c ∈ ('%' :: l).head?, decide (c ≠ '%') = false := by
    rintro l c ⟨⟩
    decide
  have noDigit : ∀ l : List Char, ∀ c ∈ ('%' :: l).head?, c.isDigit = false := by
    rintro l c ⟨⟩
    decide
  simp only [Key.toList_place, List.append_assoc, List.cons_append] at h
  obtain ⟨hfile, hafter⟩ := span_unique (unmarked hq) (unmarked hu) (marked _) (marked _) h
  obtain ⟨hline, hafter⟩ := digits_before (noDigit _) (noDigit _) (List.cons.inj hafter).2
  obtain ⟨hcolumn, hrest⟩ := digits_before hr hr' (List.cons.inj hafter).2
  exact ⟨Prod.ext (String.toList_inj.mp hfile)
    (Prod.ext (UInt32.toNat_inj.mp hline) (UInt32.toNat_inj.mp hcolumn)), hrest⟩

/-- **What a key ends with says where the closures are written**, each in its place. -/
theorem Key.closures_inj (hcs : ∀ c ∈ cs, '%' ∉ c.file.toList)
    (hcs' : ∀ c ∈ cs', '%' ∉ c.file.toList) :
    Key.closures cs = Key.closures cs' ↔ cs.map Closure.place = cs'.map Closure.place := by
  have hplaces : ∀ {cs : List Closure}, (∀ c ∈ cs, '%' ∉ c.file.toList) →
      ∀ q ∈ cs.map Closure.place, '%' ∉ q.1.toList := fun h => List.forall_mem_map.mpr h
  have hnil : ∀ cs : List Closure, Key.closures cs = "" ↔ cs = [] := by
    intro cs
    rw [Key.closures_eq]
    by_cases h : cs = []
    · simp [h]
    · rw [if_neg h, String.append_assoc]
      simp [h, ← String.toList_inj]
  constructor
  · intro h
    by_cases hempty : cs = []
    · subst hempty
      rw [(hnil cs').mp h.symm]
    · have hempty' : cs' ≠ [] := fun he => hempty ((hnil cs).mp (h.trans ((hnil cs').mpr he)))
      rw [Key.closures_eq, Key.closures_eq, if_neg hempty, if_neg hempty'] at h
      have htext := congrArg String.toList h
      simp only [String.toList_append, toList_separated, List.append_assoc] at htext
      exact (ReadBack.separated (by rintro r c ⟨⟩; decide)
        (fun q hq => Key.place_read (hplaces hcs q hq)) (hplaces hcs') (by simpa using hempty)
        (by simpa using hempty') (by rintro c ⟨⟩; decide) (by rintro c ⟨⟩; decide) (by decide)
        (by decide) (List.append_cancel_left htext)).1
  · intro h
    have hempty : cs = [] ↔ cs' = [] := by
      rw [← List.map_eq_nil_iff (f := Closure.place), h, List.map_eq_nil_iff]
    rw [Key.closures_eq, Key.closures_eq, h]
    simp only [hempty]

/-! ## Keys of one sort -/

theorem Key.toList_function (ns n : String) (b : Binds) (cs : List Closure) :
    (Key.function ns n b cs).toList = ns.toList ++ ("::".toList
      ++ (n.toList ++ ((Key.binds b).toList ++ (Key.closures cs).toList))) := by
  simp only [Key.function, String.toList_append, List.append_assoc]

theorem Key.toList_member (d : TypeDecl) (n : String) (b : Binds) (cs : List Closure) :
    (Key.member d n b cs).toList = d.ns.toList ++ ("::".toList ++ (d.name.toList ++ ("::".toList
      ++ (n.toList ++ ((Key.binds b).toList ++ (Key.closures cs).toList))))) := by
  simp only [Key.member, String.toList_append, List.append_assoc]

/-- **The key of a function says which it is**, with which types for its parameters. -/
theorem Key.function_inj (hp : p.PlainlyNamed) (hns : PlainName ns) (hns' : PlainName ns')
    (hn : PlainName n) (hn' : PlainName n') (hb : b.Built p) (hb' : b'.Built p)
    (h : Key.function ns n b cs = Key.function ns' n' b' cs') :
    ns = ns' ∧ n = n' ∧ b = b' ∧ Key.closures cs = Key.closures cs' := by
  have htext := congrArg String.toList h
  rw [Key.toList_function, Key.toList_function] at htext
  obtain ⟨hspace, hafter⟩ := hns.read hns' (colons_not_plain _) (colons_not_plain _) htext
  exact ⟨hspace, Key.named_read hp hn hn' hb hb' (List.append_cancel_left hafter)⟩

/-- **The key of a member says the names of its type**, and what it is called with. -/
theorem Key.member_read (hp : p.PlainlyNamed) {d e : TypeDecl}
    (hd : PlainName d.ns ∧ PlainName d.name) (he : PlainName e.ns ∧ PlainName e.name)
    (hn : PlainName n) (hn' : PlainName n') (hb : b.Built p) (hb' : b'.Built p)
    (h : Key.member d n b cs = Key.member e n' b' cs') :
    d.ns = e.ns ∧ d.name = e.name ∧ n = n' ∧ b = b' ∧ Key.closures cs = Key.closures cs' := by
  have htext := congrArg String.toList h
  rw [Key.toList_member, Key.toList_member] at htext
  obtain ⟨hspace, hafter⟩ := hd.1.read he.1 (colons_not_plain _) (colons_not_plain _) htext
  obtain ⟨htype, hrest⟩ := hd.2.read he.2 (colons_not_plain _) (colons_not_plain _)
    (List.append_cancel_left hafter)
  exact ⟨hspace, htype, Key.named_read hp hn hn' hb hb' (List.append_cancel_left hrest)⟩

/-- In a program the names of a type say which it is. -/
theorem Key.member_inj (hp : p.PlainlyNamed) {d e : TypeDecl} (hd : d ∈ p.types)
    (he : e ∈ p.types) (hn : PlainName n) (hn' : PlainName n') (hb : b.Built p) (hb' : b'.Built p)
    (h : Key.member d n b cs = Key.member e n' b' cs') :
    d = e ∧ n = n' ∧ b = b' ∧ Key.closures cs = Key.closures cs' := by
  obtain ⟨hspace, htype, hrest⟩ :=
    Key.member_read hp (hp.plain d hd) (hp.plain e he) hn hn' hb hb' h
  exact ⟨hp.unique hd he hspace htype, hrest⟩

theorem Key.toList_lambda (d : InvokeDecl) : (Key.lambda d).toList =
    ("fn--".toList ++ d.file.toList ++ '+' :: (toString d.position.line.toNat).toList ++ ['#'])
      ++ '#' :: (toString d.position.offset.toNat).toList := by
  simp only [Key.lambda, String.toList_append, List.append_assoc]
  rfl

/-- **The key of a lambda says where it is written**: in which file and line, at which offset. -/
theorem Key.lambda_inj {d e : InvokeDecl} (h : Key.lambda d = Key.lambda e) :
    d.file = e.file ∧ d.position.line = e.position.line ∧
      d.position.offset = e.position.offset := by
  have htext := congrArg String.toList h
  rw [Key.toList_lambda, Key.toList_lambda] at htext
  obtain ⟨hbefore, hoffset⟩ := digits_read (by decide) htext
  obtain ⟨hfile, hline⟩ := digits_read (by decide) (List.append_cancel_right hbefore)
  exact ⟨String.toList_inj.mp (List.append_cancel_left hfile), UInt32.toNat_inj.mp hline,
    UInt64.toNat_inj.mp hoffset⟩

/-! ## Keys of different sorts -/

/-- **No function has the key of a member.** -/
theorem Key.function_ne_member {d : TypeDecl} (hd : PlainName d.ns ∧ PlainName d.name)
    (hns : PlainName ns) (hn : PlainName n) : Key.function ns n b cs ≠ Key.member d n' b' cs' := by
  intro h
  have htext := congrArg String.toList h
  rw [Key.toList_function, Key.toList_member] at htext
  obtain ⟨-, hafter⟩ := hns.read hd.1 (colons_not_plain _) (colons_not_plain _) htext
  obtain ⟨-, hrest⟩ := hn.read hd.2 (binds_not_plain (Key.ends_closures cs)) (colons_not_plain _)
    (List.append_cancel_left hafter)
  exact Key.binds_closures_ne_colon b cs _ hrest

/-- **What the keys of callables say.**  The key of a function says its namespace and name, that of
a member the namespace and name of its type and its own name, and both say which types stand for
which parameters and where each closure is written.  No function has the key of a member, and the
slot of a virtual call says the name and the types. -/
theorem Key.callable_inj (hp : p.PlainlyNamed) (hb : b.Built p) (hb' : b'.Built p)
    (hns : PlainName ns) (hns' : PlainName ns') (hn : PlainName n) (hn' : PlainName n')
    {d e : TypeDecl} (hd : PlainName d.ns ∧ PlainName d.name)
    (he : PlainName e.ns ∧ PlainName e.name) (hcs : ∀ c ∈ cs, '%' ∉ c.file.toList)
    (hcs' : ∀ c ∈ cs', '%' ∉ c.file.toList) :
    (Key.function ns n b cs = Key.function ns' n' b' cs' ↔
        ns = ns' ∧ n = n' ∧ b = b' ∧ cs.map Closure.place = cs'.map Closure.place) ∧
      (Key.member d n b cs = Key.member e n' b' cs' ↔
        d.ns = e.ns ∧ d.name = e.name ∧ n = n' ∧ b = b' ∧
          cs.map Closure.place = cs'.map Closure.place) ∧
      Key.function ns n b cs ≠ Key.member d n' b' cs' ∧
      (Key.virtual n b = Key.virtual n' b' ↔ n = n' ∧ b = b') := by
  rw [← Key.closures_inj hcs hcs']
  refine ⟨⟨Key.function_inj hp hns hns' hn hn' hb hb', ?_⟩,
    ⟨Key.member_read hp hd he hn hn' hb hb', ?_⟩, Key.function_ne_member hd hns hn,
    ⟨Key.virtual_inj hp hn hn' hb hb', ?_⟩⟩
  · rintro ⟨rfl, rfl, rfl, hclosures⟩
    rw [Key.function, Key.function, hclosures]
  · rintro ⟨hspace, htype, rfl, rfl, hclosures⟩
    rw [Key.member, Key.member, hspace, htype, hclosures]
  · rintro ⟨rfl, rfl⟩
    rfl

/-- A closure in the third line of a file, at one column or another. -/
def Closure.inThirdLine (column : UInt32) : Closure where
  code := ⟨0⟩
  file := "shelf.bsq"
  position := { line := 3, column }
  scope := "Core::main"
  captured := ∅
  type := ⟨[], .union []⟩

/-- A type with one parameter. -/
def TypeDecl.listed : TypeDecl := ⟨⟨2⟩, "Core", "List", .entity, ["T"], [], [], "", {}⟩

/-- Closures in one line are told apart by their columns. -/
theorem Key.shelf_apart :
    Key.function "Core" "map" (Table.ofList [("T", .tuple [])]) [.inThirdLine 7]
        ≠ Key.function "Core" "map" (Table.ofList [("T", .tuple [])]) [.inThirdLine 8] ∧
      Key.member .listed "map" (Table.ofList [("T", .tuple [])]) [.inThirdLine 7]
        ≠ Key.member .listed "map" (Table.ofList [("T", .tuple [])]) [.inThirdLine 8] ∧
      Key.function "Core" "map" (Table.ofList [("T", .tuple [])]) [.inThirdLine 7]
        ≠ Key.member .listed "map" (Table.ofList [("T", .tuple [])]) [.inThirdLine 8] := by
  have hp : Program.shelf.PlainlyNamed := ⟨by decide +kernel, by decide +kernel⟩
  have hb : Binds.Built Program.shelf (Table.ofList [("T", .tuple [])]) := by
    refine ⟨by decide +kernel, fun u hu => ?_⟩
    obtain rfl : u = .tuple [] := List.mem_singleton.mp hu
    exact .tuple (by simp)
  have hfile : ∀ column, ∀ c ∈ [Closure.inThirdLine column], '%' ∉ c.file.toList := by
    intro column c hc
    obtain rfl := List.mem_singleton.mp hc
    exact (by decide +kernel : '%' ∉ "shelf.bsq".toList)
  have hcore : PlainName "Core" := by decide +kernel
  have hmap : PlainName "map" := by decide +kernel
  have hlist : PlainName TypeDecl.listed.ns ∧ PlainName TypeDecl.listed.name := by decide +kernel
  have hplaces : [Closure.inThirdLine 7].map Closure.place
      ≠ [Closure.inThirdLine 8].map Closure.place := by decide +kernel
  obtain ⟨hfunction, hmember, hsorts, -⟩ := Key.callable_inj hp hb hb hcore hcore hmap hmap
    hlist hlist (hfile 7) (hfile 8)
  exact ⟨fun h => hplaces (hfunction.mp h).2.2.2, fun h => hplaces (hmember.mp h).2.2.2.2, hsorts⟩

/-- No key that begins with a name and two colons is that of a lambda. -/
theorem Key.lambda_ne (hn : PlainName n) {key : String} {l : List Char}
    (hkey : key.toList = n.toList ++ ("::".toList ++ l)) (d : InvokeDecl) : Key.lambda d ≠ key := by
  rintro rfl
  rw [Key.lambda, String.append_assoc, String.append_assoc, String.append_assoc,
    String.append_assoc, String.toList_append] at hkey
  have hfn : PlainName "fn" := by decide +kernel
  obtain ⟨-, hrest⟩ := hfn.read hn (r := '-' :: '-' :: _) (by rintro c ⟨⟩; decide)
    (colons_not_plain l) hkey
  cases hrest

/-! ## Bindings overlaid -/

theorem Binds.get?_overlay (outer inner : Binds) (n : String) :
    (outer.overlay inner).get? n = (inner.get? n).or (outer.get? n) := by
  rw [Binds.overlay]
  cases hn : inner.get? n with
  | some t =>
    have hall : ∀ e ∈ inner.entries, e.1 = n → e.2 = t := by
      rintro e he rfl
      exact Option.some.inj ((Table.mem_entries.mp he).symm.trans hn)
    have hmem : n ∈ inner.entries.map (·.1) := Table.mem_keys.mpr (Table.contains_of_get? hn)
    rw [Table.get?_foldl_insert _ _ hall, if_pos hmem, Option.some_or]
  | none =>
    have hnot : n ∉ inner.entries.map (·.1) := fun hmem => by
      obtain ⟨t, ht⟩ := Table.contains_iff.mp (Table.mem_keys.mp hmem)
      rw [hn] at ht
      cases ht
    rw [Table.get?_foldl_insert_of_notMem hnot, Option.none_or]

theorem Binds.Built.overlay {outer inner : Binds} (ho : outer.Built p) (hi : inner.Built p) :
    (outer.overlay inner).Built p := by
  have origin : ∀ {n t}, (outer.overlay inner).get? n = some t →
      outer.get? n = some t ∨ inner.get? n = some t := by
    intro n t h
    rw [Binds.get?_overlay, Option.or_eq_some_iff] at h
    exact h.symm.imp_left And.right
  refine ⟨fun n hn => ?_, fun t ht => ?_⟩
  · obtain ⟨t, ht⟩ := Table.contains_iff.mp (Table.mem_keys.mp hn)
    exact (origin ht).elim
      (fun h => ho.1 n (Table.mem_keys.mpr (Table.contains_of_get? h)))
      (fun h => hi.1 n (Table.mem_keys.mpr (Table.contains_of_get? h)))
  · obtain ⟨n, hn⟩ := Table.mem_values.mp ht
    exact (origin hn).elim (fun h => ho.2 t (Table.mem_values.mpr ⟨n, h⟩))
      (fun h => hi.2 t (Table.mem_values.mpr ⟨n, h⟩))

/-- **Bindings overlaid are recovered** from the names of the inner ones: these themselves, and what
is under any other name of the outer ones. -/
theorem Binds.overlay_inj {outer outer' inner inner' : Binds} (hkeys : inner.keys = inner'.keys)
    (h : outer.overlay inner = outer'.overlay inner') :
    inner = inner' ∧ ∀ n, n ∉ inner.keys → outer.get? n = outer'.get? n := by
  have same : ∀ n, (inner.get? n).or (outer.get? n) = (inner'.get? n).or (outer'.get? n) :=
    fun n => by rw [← Binds.get?_overlay, ← Binds.get?_overlay, h]
  have absent : ∀ {b : Binds} {n}, n ∉ b.keys → b.get? n = none := fun hn => by
    rw [← Table.contains_eq_false, Bool.eq_false_iff]
    exact fun hc => hn (Table.mem_keys.mpr hc)
  refine ⟨Table.ext_get? fun n => ?_, fun n hn => ?_⟩
  · by_cases hn : n ∈ inner.keys
    · obtain ⟨t, ht⟩ := Table.contains_iff.mp (Table.mem_keys.mp hn)
      obtain ⟨t', ht'⟩ := Table.contains_iff.mp (Table.mem_keys.mp (hkeys ▸ hn))
      simpa [ht, ht'] using same n
    · rw [absent hn, absent (hkeys ▸ hn)]
  · simpa [absent hn, absent (hkeys ▸ hn : n ∉ inner'.keys)] using same n

end Monomorph
