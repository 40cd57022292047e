import Monomorph.Proofs.Ty.Inside

/-!
# Ty/Nominal — keys that tell declared types and slots apart

The type of a declaration stands under the key of the declaration, and says which it is and what its
parameters are (`Ty.nominal_inj`).  The slot of a virtual call says which name is called, and which
types are handed over for its parameters (`Key.virtual_inj`).
-/

namespace Monomorph

/-- Types in order that have one key are one type. -/
theorem Ty.Proper.key_inj {p : Program} (hp : p.PlainlyNamed) {t u : Ty} (ht : t.Proper p)
    (hu : u.Proper p) (h : t.key = u.key) : t = u := by
  have hend : Ty.Ends [] := fun c hc => by cases hc
  exact (ht.read hp u hu [] [] hend hend (by simp only [h])).1

theorem Part.key_ofDecl (d : TypeDecl) (b : Binds) : (Part.ofDecl d b).key = Key.type d b := by
  rw [Part.ofDecl, Part.key]
  rfl

namespace Ty

theorem nominal_entity {d : TypeDecl} (h : d.kind = .entity) (b : Binds) :
    Ty.nominal d b = single (.entity (.ofDecl d b)) := by
  rw [Ty.nominal, h]

theorem nominal_concept {d : TypeDecl} (h : d.kind = .concept) (b : Binds) :
    Ty.nominal d b = single (.concept [.ofDecl d b]) := by
  rw [Ty.nominal, h]
  rfl

theorem key_nominal (d : TypeDecl) (b : Binds) : (Ty.nominal d b).key = Key.type d b := by
  cases h : d.kind with
  | entity =>
    rw [nominal_entity h, ← Part.key_ofDecl, key_single, Atom.key]
  | concept =>
    rw [nominal_concept h, ← Part.key_ofDecl, key_single, Atom.key_concept]

theorem nominal_inj {d d' : TypeDecl} {b b' : Binds} (h : Ty.nominal d b = Ty.nominal d' b') :
    Part.ofDecl d b = Part.ofDecl d' b' := by
  cases hd : d.kind <;> cases hd' : d'.kind <;>
    simp only [nominal_entity, nominal_concept, hd, hd', single, Ty.union.injEq, List.cons.injEq,
      Atom.entity.injEq, Atom.concept.injEq, and_true, reduceCtorEq] at h
  · exact h
  · exact h

end Ty

theorem Program.mem_types {p : Program} {id : TypeId} {d : TypeDecl} (h : p.type id = .ok d) :
    d ∈ p.types := by
  rw [Program.type] at h
  split at h
  case h_1 d' hd =>
    obtain rfl := Except.ok.inj h
    exact List.mem_of_getElem? hd
  case h_2 => cases h

/-- Bindings of types built are read back from their text. -/
theorem Key.binds_read {p : Program} (hp : p.PlainlyNamed) {b b' : Binds} {r r' : List Char}
    (hb : b.Built p) (hb' : b'.Built p) (hr : Binds.Ends r) (hr' : Binds.Ends r')
    (h : (Key.binds b).toList ++ r = (Key.binds b').toList ++ r') : b = b' ∧ r = r' := by
  have hproper : ∀ {b : Binds}, b.Built p → ∀ e ∈ b.entries, PlainName e.1 ∧ e.2.Proper p :=
    fun hb e he => ⟨hb.1 e.1 (List.mem_map_of_mem he), (hb.2 e.2 (List.mem_map_of_mem he)).proper⟩
  have hread : ∀ e ∈ b.entries, e.2.Reads p := fun e he => (hproper hb e he).2.read hp
  obtain ⟨hentries, hrest⟩ :=
    Monomorph.binds_read (hproper hb) hread (hproper hb') hr hr' h
  cases b
  cases b'
  obtain rfl := hentries
  exact ⟨rfl, hrest⟩

theorem Binds.ends_nil : Binds.Ends [] := fun c hc => by cases hc

/-- **The key of a type says which declaration it is of**, whatever the types for its parameters. -/
theorem Key.type_decl {p : Program} (hp : p.PlainlyNamed) {d e : TypeDecl} (hd : d ∈ p.types)
    (he : e ∈ p.types) {b b' : Binds} (h : Key.type d b = Key.type e b') : d = e := by
  have htext := congrArg (fun s => s.toList ++ []) h
  simp only [Key.type, String.toList_append, List.append_assoc] at htext
  obtain ⟨hns, hafter⟩ :=
    (hp.plain d hd).1.read (hp.plain e he).1 (colons_not_plain _) (colons_not_plain _) htext
  obtain ⟨hname, -⟩ := (hp.plain d hd).2.read (hp.plain e he).2 (binds_not_plain Binds.ends_nil)
    (binds_not_plain Binds.ends_nil) (List.append_cancel_left hafter)
  exact hp.unique hd he hns hname

/-- **The slot of a call says which method it calls**, with which types for its parameters. -/
theorem Key.virtual_inj {p : Program} (hp : p.PlainlyNamed) {n n' : String} {b b' : Binds}
    (hn : PlainName n) (hn' : PlainName n') (hb : b.Built p) (hb' : b'.Built p)
    (h : Key.virtual n b = Key.virtual n' b') : n = n' ∧ b = b' := by
  have htext := congrArg (fun s => s.toList ++ []) h
  simp only [Key.virtual, String.toList_append, List.append_assoc] at htext
  obtain ⟨rfl, hrest⟩ := hn.read hn' (binds_not_plain Binds.ends_nil)
    (binds_not_plain Binds.ends_nil) htext
  exact ⟨rfl, (Key.binds_read hp hb hb' Binds.ends_nil Binds.ends_nil hrest).1⟩

end Monomorph
