import Monomorph.Proofs.Ty.Built
import Monomorph.Ty.Key

/-!
# Ty/Readable — a key says which type it is the key of

Keys are read from the front.  A part ends where no name goes on and no bracket opens, an option
where no other concept is joined to it, a type where no other option is; what stands there — a
separator of some list, a closing mark, or nothing — is never the beginning of more (`Part.Ends`,
`Atom.Ends`, `Ty.Ends`).  So **each key is read in one way, whatever follows** (`Ty.Proper.read`),
one bracket inside another: the induction is on how the type is put together.
-/

namespace Monomorph

/-- A program whose type declarations have plain names, no two of them the same. -/
structure Program.PlainlyNamed (p : Program) : Prop where
  plain : ∀ d ∈ p.types, PlainName d.ns ∧ PlainName d.name
  distinct : (p.types.map fun d => (d.ns, d.name)).Nodup

theorem Program.PlainlyNamed.unique {p : Program} (h : p.PlainlyNamed) {d e : TypeDecl}
    (hd : d ∈ p.types) (he : e ∈ p.types) (hns : d.ns = e.ns) (hname : d.name = e.name) : d = e :=
  List.inj_on_of_nodup_map h.distinct hd he (Prod.ext hns hname)

/-! ## Texts of lists -/

theorem Atom.keys_eq_map (os : List Atom) : Atom.keys os = os.map Atom.key := by
  induction os with
  | nil => rfl
  | cons a os ih => rw [keys, ih, List.map_cons]

theorem Part.keys_eq_map (qs : List Part) : Part.keys qs = qs.map Part.key := by
  induction qs with
  | nil => rfl
  | cons q qs ih => rw [keys, ih, List.map_cons]

theorem Ty.key_single (a : Atom) : (Ty.single a).key = a.key := by
  rw [Ty.single, Ty.key, Atom.keys_eq_map, List.map_singleton, String.intercalate_singleton]

/-- A concept on its own stands under its own key. -/
theorem Atom.key_concept (q : Part) : (Atom.concept [q]).key = q.key := by
  rw [Atom.key, Part.keys_eq_map, List.map_singleton, String.intercalate_singleton]

theorem Ty.keys_eq_map (ts : List Ty) : Ty.keys ts = ts.map Ty.key := by
  induction ts with
  | nil => rfl
  | cons t ts ih => rw [keys, ih, List.map_cons]

/-- The text of a tuple's entry. -/
def Slot.text (e : Slot Ty) : String :=
  optionalMark e.optional "?:" ++ e.type.key

/-- The text of a record's entry. -/
def fieldText (e : String × Slot Ty) : String :=
  e.1 ++ optionalMark e.2.optional "?" ++ ":" ++ e.2.type.key

/-- The text of a parameter's type. -/
def bindText (e : String × Ty) : String :=
  e.1 ++ "=" ++ e.2.key

theorem Ty.slotKeys_eq_map (es : List (Slot Ty)) : Ty.slotKeys es = es.map Slot.text := by
  induction es with
  | nil => rfl
  | cons e es ih => rw [slotKeys, ih, List.map_cons, Slot.text]

theorem Ty.fieldKeys_eq_map (es : List (String × Slot Ty)) :
    Ty.fieldKeys es = es.map fieldText := by
  induction es with
  | nil => rfl
  | cons e es ih => rw [fieldKeys, ih, List.map_cons, fieldText]

theorem Ty.bindKeys_eq_map (es : List (String × Ty)) : Ty.bindKeys es = es.map bindText := by
  induction es with
  | nil => rfl
  | cons e es ih => rw [bindKeys, ih, List.map_cons, bindText]

/-- Texts with a separator between them, character by character. -/
theorem toList_separated {α : Type} (sep : String) (text : α → String) (xs : List α) :
    (String.intercalate sep (xs.map text)).toList
      = sep.toList.intercalate (xs.map fun x => (text x).toList) := by
  rw [String.toList_intercalate, List.map_map]
  rfl

/-! ## What follows -/

/-- What may follow the key of a type: nothing, a separator of a list, or a closing mark. -/
def Ty.Ends (r : List Char) : Prop :=
  ∀ c ∈ r.head?, c ∈ [',', ']', '\x7d', '|', '>']

/-- What may follow a part: what may follow a type, or the separator of options or concepts. -/
def Part.Ends (r : List Char) : Prop :=
  ∀ c ∈ r.head?, c ∈ [' ', ',', ']', '\x7d', '|', '>']

/-- What may follow an option: what may follow a part, but no other concept. -/
def Atom.Ends (r : List Char) : Prop :=
  Part.Ends r ∧ ¬ " & ".toList <+: r

/-- No mark is a character of names. -/
theorem not_plainChar_of_mark {c : Char} (h : c ∈ [' ', ',', ']', '\x7d', '|', '>', '?']) :
    plainChar c = false := by
  simp only [List.mem_cons, List.not_mem_nil, or_false] at h
  rcases h with rfl | rfl | rfl | rfl | rfl | rfl | rfl <;> rfl

/-- What may follow bindings: neither a character of names nor a bracket that opens. -/
def Binds.Ends (r : List Char) : Prop :=
  ∀ c ∈ r.head?, plainChar c = false ∧ c ≠ '<'

theorem Part.Ends.binds {r : List Char} (h : Part.Ends r) : Binds.Ends r := fun c hc => by
  refine ⟨not_plainChar_of_mark (List.mem_append_left ['?'] (h c hc)), ?_⟩
  rintro rfl
  have := h '<' hc
  revert this
  decide

theorem Ty.Ends.part {r : List Char} (h : Ty.Ends r) : Part.Ends r := fun c hc =>
  List.mem_cons_of_mem _ (h c hc)

/-- After a type nothing begins with a space, as the separators of options and concepts do. -/
theorem Ty.Ends.not_prefix {r l : List Char} (h : Ty.Ends r) : ¬ ' ' :: l <+: r := by
  rintro ⟨s, rfl⟩
  have := h ' ' rfl
  revert this
  decide

theorem Ty.Ends.atom {r : List Char} (h : Ty.Ends r) : Atom.Ends r :=
  ⟨h.part, h.not_prefix⟩

theorem Ty.ends_comma (r : List Char) : Ty.Ends (", ".toList ++ r) := by
  rintro c ⟨⟩
  decide

theorem Part.ends_and (r : List Char) : Part.Ends (" & ".toList ++ r) := by
  rintro c ⟨⟩
  decide

theorem Atom.ends_bar (r : List Char) : Atom.Ends (" | ".toList ++ r) := by
  refine ⟨?_, ?_⟩
  · rintro c ⟨⟩
    decide
  · rintro ⟨s, hs⟩
    have := (List.cons.inj (List.cons.inj hs).2).1
    revert this
    decide

/-! ## How keys begin -/

variable {p : Program}

/-- What begins with a name begins with no mark. -/
theorem PlainName.begins {n : String} (h : PlainName n) (l : List Char) {c : Char}
    (hc : c ∈ [' ', ',', ']', '\x7d', '|', '>', '?']) :
    ∃ d s, n.toList ++ l = d :: s ∧ d ≠ c := by
  obtain ⟨d, s, hcons, hd⟩ := h.eq_cons
  refine ⟨d, s ++ l, by rw [hcons, List.cons_append], ?_⟩
  rintro rfl
  rw [not_plainChar_of_mark hc] at hd
  cases hd

theorem Part.Of.key_eq_cons (hp : p.PlainlyNamed) {k : TypeKind} {q : Part} (h : q.Of p k) :
    ∃ c l, q.key.toList = c :: l ∧ plainChar c = true := by
  obtain ⟨⟨d, hd, -, hdecl⟩, -⟩ := h
  obtain ⟨decl, binds⟩ := q
  obtain rfl : decl = ⟨d.id, d.ns, d.name⟩ := hdecl
  obtain ⟨c, l, hns, hc⟩ := (hp.plain d hd).1.eq_cons
  refine ⟨c, l ++ ("::" ++ d.name ++ angled (Ty.bindKeys binds)).toList, ?_, hc⟩
  rw [key, String.append_assoc, String.append_assoc, String.toList_append, hns, List.cons_append,
    String.append_assoc]

/-- The characters an option can begin with. -/
def Atom.Opens : Atom → Char → Prop
  | .entity _, c | .concept _, c => plainChar c = true
  | .tuple _, c => c = '['
  | .record _, c => c = '\x7b'
  | .ephemeral _, c => c = '('

theorem Atom.Proper.key_eq_cons (hp : p.PlainlyNamed) {a : Atom} (h : a.Proper p) :
    ∃ c l, a.key.toList = c :: l ∧ a.Opens c := by
  cases a with
  | entity q => exact Part.Of.key_eq_cons hp h
  | concept qs =>
    obtain ⟨q, qs, rfl⟩ := List.exists_cons_of_ne_nil h.1
    obtain ⟨c, l, hq, hc⟩ := Part.Of.key_eq_cons hp (h.2 q (by simp))
    obtain ⟨rest, hrest⟩ := ReadBack.intercalate_eq_append " & ".toList q.key.toList
      (qs.map fun q => q.key.toList)
    refine ⟨c, l ++ rest, ?_, hc⟩
    rw [key, Part.keys_eq_map, toList_separated, List.map_cons, hrest, hq, List.cons_append]
  | tuple es =>
    refine ⟨'[', (String.intercalate ", " (Ty.slotKeys es) ++ "]").toList, ?_, rfl⟩
    rw [key, String.append_assoc, String.toList_append]
    rfl
  | record es =>
    refine ⟨'\x7b', (String.intercalate ", " (Ty.fieldKeys es) ++ "\x7d").toList, ?_, rfl⟩
    rw [key, String.append_assoc, String.toList_append]
    rfl
  | ephemeral ts =>
    refine ⟨'(', '|' :: (String.intercalate ", " (Ty.keys ts) ++ "|)").toList, ?_, rfl⟩
    rw [key, String.append_assoc, String.toList_append]
    rfl

/-- An option begins like no end of a list, and like no mark of what may be left out. -/
theorem Atom.Opens.not_mem {a : Atom} {c : Char} (h : a.Opens c) :
    c ∉ [']', '\x7d', '|', '>', '?'] := by
  have hplain : plainChar c = true → c ∉ [']', '\x7d', '|', '>', '?'] := by
    intro hc hmem
    rw [not_plainChar_of_mark (List.mem_append_right [' ', ','] hmem)] at hc
    cases hc
  cases a with
  | entity _ => exact hplain h
  | concept _ => exact hplain h
  | tuple _ =>
    obtain rfl : c = '[' := h
    decide
  | record _ =>
    obtain rfl : c = '\x7b' := h
    decide
  | ephemeral _ =>
    obtain rfl : c = '(' := h
    decide

/-- **No type begins like the end of a list**, nor like a mark of what may be left out. -/
theorem Ty.Proper.key_eq_cons (hp : p.PlainlyNamed) {t : Ty} (h : t.Proper p) :
    ∃ c l, t.key.toList = c :: l ∧ c ∉ [']', '\x7d', '|', '>', '?'] := by
  cases h with
  | @union os hne ha _ =>
    obtain ⟨a, os, rfl⟩ := List.exists_cons_of_ne_nil hne
    obtain ⟨c, l, hkey, hc⟩ := (ha a (by simp)).key_eq_cons hp
    obtain ⟨rest, hrest⟩ := ReadBack.intercalate_eq_append " | ".toList a.key.toList
      (os.map fun a => a.key.toList)
    refine ⟨c, l ++ rest, ?_, hc.not_mem⟩
    rw [key, Atom.keys_eq_map, toList_separated, List.map_cons, hrest, hkey, List.cons_append]

theorem Ty.Proper.begins (hp : p.PlainlyNamed) {t : Ty} (h : t.Proper p) {c : Char}
    (hc : c ∈ [']', '\x7d', '|', '>', '?']) : ∃ d s, t.key.toList = d :: s ∧ d ≠ c := by
  obtain ⟨d, s, hkey, hd⟩ := h.key_eq_cons hp
  refine ⟨d, s, hkey, ?_⟩
  rintro rfl
  exact hd hc

/-! ## Items of lists -/

/-- The key of a type is read in one way before what may follow a type. -/
abbrev Ty.Reads (p : Program) (t : Ty) : Prop :=
  ReadBack (fun t : Ty => t.key.toList) (Ty.Proper p) Ty.Ends t

/-- No key begins with a mark for what may be left out. -/
theorem Ty.Proper.mark_ne (hp : p.PlainlyNamed) {t : Ty} (h : t.Proper p) (l r : List Char) :
    '?' :: l ≠ t.key.toList ++ r := by
  obtain ⟨d, s, hkey, hne⟩ := h.begins hp (c := '?') (by decide)
  rw [hkey, List.cons_append]
  exact fun he => hne (List.cons.inj he).1.symm

theorem Slot.read (hp : p.PlainlyNamed) {e : Slot Ty} (ht : e.type.Proper p) (h : e.type.Reads p) :
    ReadBack (fun e => (Slot.text e).toList) (fun e => e.type.Proper p) Ty.Ends e := by
  obtain ⟨t, o⟩ := e
  rintro ⟨u, o'⟩ hu r r' hr hr' heq
  simp only [Slot.text, String.toList_append] at heq
  cases o <;> cases o'
  · obtain ⟨rfl, rfl⟩ := h u hu r r' hr hr' heq
    exact ⟨rfl, rfl⟩
  · exact absurd heq.symm (ht.mark_ne hp _ _)
  · exact absurd heq (Ty.Proper.mark_ne hp hu _ _)
  · obtain ⟨rfl, rfl⟩ := h u hu r r' hr hr' (List.cons.inj (List.cons.inj heq).2).2
    exact ⟨rfl, rfl⟩

theorem fieldText_read {e : String × Slot Ty} (hn : PlainName e.1) (h : e.2.type.Reads p) :
    ReadBack (fun e => (fieldText e).toList) (fun e => PlainName e.1 ∧ e.2.type.Proper p) Ty.Ends
      e := by
  obtain ⟨n, t, o⟩ := e
  rintro ⟨m, u, o'⟩ ⟨hm, hu⟩ r r' hr hr' heq
  simp only [fieldText, String.toList_append, List.append_assoc] at heq
  -- a name ends at the mark or at the colon
  have hmark : ∀ (o : Bool) (l : List Char),
      ∀ c ∈ ((optionalMark o "?").toList ++ (":".toList ++ l)).head?, plainChar c = false := by
    rintro (_ | _) l c ⟨⟩ <;> decide
  obtain ⟨rfl, hrest⟩ := hn.read hm (hmark _ _) (hmark _ _) heq
  cases o <;> cases o'
  · obtain ⟨rfl, rfl⟩ := h u hu r r' hr hr' (List.cons.inj hrest).2
    exact ⟨rfl, rfl⟩
  · cases (List.cons.inj hrest).1
  · cases (List.cons.inj hrest).1
  · obtain ⟨rfl, rfl⟩ := h u hu r r' hr hr' (List.cons.inj (List.cons.inj hrest).2).2
    exact ⟨rfl, rfl⟩

theorem bindText_read {e : String × Ty} (hn : PlainName e.1) (h : e.2.Reads p) :
    ReadBack (fun e => (bindText e).toList) (fun e => PlainName e.1 ∧ e.2.Proper p) Ty.Ends e := by
  obtain ⟨n, t⟩ := e
  rintro ⟨m, u⟩ ⟨hm, hu⟩ r r' hr hr' heq
  simp only [bindText, String.toList_append, List.append_assoc] at heq
  have hmark : ∀ l : List Char, ∀ c ∈ ("=".toList ++ l).head?, plainChar c = false := by
    rintro l c ⟨⟩
    decide
  obtain ⟨rfl, hrest⟩ := hn.read hm (hmark _) (hmark _) heq
  obtain ⟨rfl, rfl⟩ := h u hu r r' hr hr' (List.append_cancel_left hrest)
  exact ⟨rfl, rfl⟩

/-! ## Lists between marks -/

/-- **A list in brackets of any kind** ends at the closing mark. -/
theorem listed_read {α : Type} {text : α → String} {good : α → Prop} {xs ys : List α} {c : Char}
    {r r' : List Char} (hc : c ∈ [']', '\x7d', '|', '>'])
    (hx : ∀ x ∈ xs, ReadBack (fun x => (text x).toList) good Ty.Ends x)
    (hgood : ∀ x ∈ xs, good x) (hy : ∀ y ∈ ys, good y)
    (hopen : ∀ x, good x → ∃ d s, (text x).toList = d :: s ∧ d ≠ c)
    (h : (String.intercalate ", " (xs.map text)).toList ++ c :: r
      = (String.intercalate ", " (ys.map text)).toList ++ c :: r') : xs = ys ∧ r = r' := by
  rw [toList_separated, toList_separated] at h
  refine ReadBack.enclosed Ty.ends_comma hx hgood hy hopen ?_ ?_ h
  · rintro r d ⟨⟩
    revert hc
    simp only [List.mem_cons]
    tauto
  · rintro r ⟨s, hs⟩
    obtain rfl : ',' = c := (List.cons.inj hs).1
    revert hc
    decide

/-- A declaration of the program with proper types for plainly named parameters. -/
def Part.Proper (p : Program) (q : Part) : Prop :=
  (∃ k, q.Of p k) ∧ ∀ e ∈ q.binds, e.2.Proper p

/-- **A declaration has one kind.** -/
theorem Part.Of.kind_unique (hp : p.PlainlyNamed) {k k' : TypeKind} {q : Part} (h : q.Of p k)
    (h' : q.Of p k') : k = k' := by
  obtain ⟨⟨d, hd, rfl, hdecl⟩, -⟩ := h
  obtain ⟨⟨e, he, rfl, hdecl'⟩, -⟩ := h'
  rw [hdecl] at hdecl'
  obtain ⟨-, hns, hname⟩ := Nominal.mk.inj hdecl'
  rw [hp.unique hd he hns hname]

/-- Texts in angle brackets begin with the bracket, if there are any. -/
theorem angled_eq_nil_or_cons (ls : List String) :
    (angled ls).toList = [] ∨ ∃ l, (angled ls).toList = '<' :: l := by
  cases ls with
  | nil => exact .inl rfl
  | cons a ls =>
    refine .inr ⟨(String.intercalate ", " (a :: ls) ++ ">").toList, ?_⟩
    rw [angled, String.append_assoc, String.toList_append]
    · rfl
    · simp

/-- Bindings are read back before what may follow them. -/
theorem binds_read {es es' : List (String × Ty)} {r r' : List Char}
    (hn : ∀ e ∈ es, PlainName e.1 ∧ e.2.Proper p) (hr : ∀ e ∈ es, e.2.Reads p)
    (hn' : ∀ e ∈ es', PlainName e.1 ∧ e.2.Proper p) (hend : Binds.Ends r) (hend' : Binds.Ends r')
    (h : (angled (Ty.bindKeys es)).toList ++ r = (angled (Ty.bindKeys es')).toList ++ r') :
    es = es' ∧ r = r' := by
  have hangled : ∀ {r e} {es : List (String × Ty)}, (angled (Ty.bindKeys (e :: es))).toList ++ r
      = '<' :: ((String.intercalate ", " ((e :: es).map bindText)).toList ++ '>' :: r) := by
    intro r e es
    rw [Ty.bindKeys_eq_map, List.map_cons, angled, String.toList_append, String.toList_append,
      List.append_assoc, List.append_assoc]
    · rfl
    · simp
  have hopen : ∀ {r l}, Binds.Ends r → r ≠ '<' :: l := by
    rintro r l hr rfl
    exact (hr '<' rfl).2 rfl
  cases es with
  | nil =>
    cases es' with
    | nil => exact ⟨rfl, h⟩
    | cons e es' => exact absurd (h.trans hangled) (hopen hend)
  | cons e es =>
    cases es' with
    | nil => exact absurd (h.symm.trans hangled) (hopen hend')
    | cons e' es' =>
      rw [hangled, hangled] at h
      refine listed_read (by decide) (fun e he => bindText_read (hn e he).1 (hr e he)) hn hn' ?_
        (List.cons.inj h).2
      rintro ⟨n, t⟩ ⟨hname, -⟩
      rw [bindText, String.append_assoc, String.toList_append]
      exact hname.begins _ (by decide)

/-- A name ends where bindings begin, or what follows them. -/
theorem binds_not_plain {es : List (String × Ty)} {r : List Char} (hr : Binds.Ends r) :
    ∀ c ∈ ((angled (Ty.bindKeys es)).toList ++ r).head?, plainChar c = false := by
  intro c hc
  rcases angled_eq_nil_or_cons (Ty.bindKeys es) with h | ⟨l, h⟩ <;> rw [h] at hc
  · exact (hr c hc).1
  · cases hc
    decide

/-- A name ends where two colons stand. -/
theorem colons_not_plain (l : List Char) :
    ∀ c ∈ ("::".toList ++ l).head?, plainChar c = false := by
  rintro c ⟨⟩
  decide

/-- **A part is read back**: its namespace, its name, its bindings. -/
theorem Part.Proper.read (hp : p.PlainlyNamed) {q : Part} (h : q.Proper p)
    (hr : ∀ e ∈ q.binds, e.2.Reads p) :
    ReadBack (fun q => q.key.toList) (Part.Proper p) Part.Ends q := by
  intro q' h' r r' hend hend' heq
  obtain ⟨⟨k, ⟨d, hd, -, hdecl⟩, hn⟩, ht⟩ := h
  obtain ⟨⟨k', ⟨d', hd', -, hdecl'⟩, hn'⟩, ht'⟩ := h'
  obtain ⟨decl, es⟩ := q
  obtain ⟨decl', es'⟩ := q'
  obtain rfl : decl = ⟨d.id, d.ns, d.name⟩ := hdecl
  obtain rfl : decl' = ⟨d'.id, d'.ns, d'.name⟩ := hdecl'
  simp only [key, String.toList_append, List.append_assoc] at heq
  obtain ⟨hns, hafter⟩ :=
    (hp.plain d hd).1.read (hp.plain d' hd').1 (colons_not_plain _) (colons_not_plain _) heq
  obtain ⟨hsame, hbinds⟩ := (hp.plain d hd).2.read (hp.plain d' hd').2 (binds_not_plain hend.binds)
    (binds_not_plain hend'.binds)
    (List.append_cancel_left hafter)
  obtain rfl := hp.unique hd hd' hns hsame
  obtain ⟨rfl, rfl⟩ := binds_read (fun e he => ⟨hn e he, ht e he⟩) hr
    (fun e he => ⟨hn' e he, ht' e he⟩) hend.binds hend'.binds hbinds
  exact ⟨rfl, rfl⟩

/-! ## Options -/

/-- Parts joined together are read back before what may follow an option. -/
theorem parts_read (hp : p.PlainlyNamed) {qs qs' : List Part} {r r' : List Char} (hne : qs ≠ [])
    (hne' : qs' ≠ []) (h : ∀ q ∈ qs, q.Proper p) (hr : ∀ q ∈ qs, ∀ e ∈ q.binds, e.2.Reads p)
    (h' : ∀ q ∈ qs', q.Proper p) (hend : Atom.Ends r) (hend' : Atom.Ends r')
    (heq : (String.intercalate " & " (qs.map Part.key)).toList ++ r
      = (String.intercalate " & " (qs'.map Part.key)).toList ++ r') : qs = qs' ∧ r = r' := by
  rw [toList_separated, toList_separated] at heq
  exact ReadBack.separated Part.ends_and (fun q hq => (h q hq).read hp (hr q hq)) h' hne hne'
    hend.1 hend'.1 hend.2 hend'.2 heq

/-- The entries of a tuple. -/
theorem slots_read (hp : p.PlainlyNamed) {es es' : List (Slot Ty)} {r r' : List Char}
    (ht : ∀ t ∈ (Atom.tuple es).types, t.Proper p) (hr : ∀ t ∈ (Atom.tuple es).types, t.Reads p)
    (ht' : ∀ t ∈ (Atom.tuple es').types, t.Proper p)
    (h : (Atom.tuple es).key.toList ++ r = (Atom.tuple es').key.toList ++ r') :
    es = es' ∧ r = r' := by
  simp only [Atom.key, Ty.slotKeys_eq_map, String.toList_append, List.append_assoc] at h
  have ht := List.forall_mem_map.mp ht
  have hr := List.forall_mem_map.mp hr
  refine listed_read (by decide) (fun e he => Slot.read hp (ht e he) (hr e he)) ht
    (List.forall_mem_map.mp ht') ?_ (List.cons.inj h).2
  rintro ⟨t, _ | _⟩ hproper
  · exact Ty.Proper.begins hp hproper (by decide)
  · refine ⟨'?', ':' :: t.key.toList, ?_, by decide⟩
    rw [Slot.text, optionalMark, if_pos rfl, String.toList_append]
    rfl

/-- The entries of a record. -/
theorem fields_read {es es' : List (String × Slot Ty)} {r r' : List Char}
    (hn : ∀ e ∈ es, PlainName e.1) (ht : ∀ t ∈ (Atom.record es).types, t.Proper p)
    (hr : ∀ t ∈ (Atom.record es).types, t.Reads p) (hn' : ∀ e ∈ es', PlainName e.1)
    (ht' : ∀ t ∈ (Atom.record es').types, t.Proper p)
    (h : (Atom.record es).key.toList ++ r = (Atom.record es').key.toList ++ r') :
    es = es' ∧ r = r' := by
  simp only [Atom.key, Ty.fieldKeys_eq_map, String.toList_append, List.append_assoc] at h
  have ht := List.forall_mem_map.mp ht
  have ht' := List.forall_mem_map.mp ht'
  have hr := List.forall_mem_map.mp hr
  refine listed_read (by decide) (fun e he => fieldText_read (hn e he) (hr e he))
    (fun e he => ⟨hn e he, ht e he⟩) (fun e he => ⟨hn' e he, ht' e he⟩) ?_ (List.cons.inj h).2
  rintro ⟨n, t, o⟩ ⟨hname, -⟩
  rw [fieldText, String.append_assoc, String.append_assoc, String.toList_append]
  exact hname.begins _ (by decide)

/-- The types of several values handed back together. -/
theorem types_read (hp : p.PlainlyNamed) {ts ts' : List Ty} {r r' : List Char}
    (ht : ∀ t ∈ ts, t.Proper p) (hr : ∀ t ∈ ts, t.Reads p) (ht' : ∀ t ∈ ts', t.Proper p)
    (h : (Atom.ephemeral ts).key.toList ++ r = (Atom.ephemeral ts').key.toList ++ r') :
    ts = ts' ∧ r = r' := by
  simp only [Atom.key, Ty.keys_eq_map, String.toList_append, List.append_assoc] at h
  obtain ⟨rfl, hclose⟩ := listed_read (by decide) hr ht ht'
    (fun t hproper => Ty.Proper.begins hp hproper (by decide)) (List.cons.inj (List.cons.inj h).2).2
  exact ⟨rfl, (List.cons.inj hclose).2⟩

namespace Atom

/-- An option in order, the types inside it too. -/
def InOrder (p : Program) (a : Atom) : Prop :=
  a.Proper p ∧ ∀ t ∈ a.types, t.Proper p

/-- The parts of an option, if it is made of parts. -/
def parts? : Atom → Option (List Part)
  | .entity q => some [q]
  | .concept qs => some qs
  | .tuple _ | .record _ | .ephemeral _ => none

theorem key_eq_of_parts {a : Atom} {qs : List Part} (h : a.parts? = some qs) :
    a.key = String.intercalate " & " (qs.map Part.key) := by
  cases a with
  | entity q =>
    cases h
    rw [key, List.map_cons, List.map_nil, String.intercalate_singleton]
  | concept qs' =>
    cases h
    rw [key, Part.keys_eq_map]
  | tuple _ | record _ | ephemeral _ => cases h

theorem InOrder.parts {a : Atom} {qs : List Part} (h : a.InOrder p) (hqs : a.parts? = some qs) :
    qs ≠ [] ∧ ∀ q ∈ qs, q.Proper p ∧ ∀ e ∈ q.binds, e.2 ∈ a.types := by
  obtain ⟨ha, ht⟩ := h
  cases a with
  | entity q =>
    cases hqs
    refine ⟨by simp, fun x hx => ?_⟩
    obtain rfl := List.mem_singleton.mp hx
    have hmem : ∀ e ∈ x.binds, e.2 ∈ (Atom.entity x).types := fun e he => List.mem_map_of_mem he
    exact ⟨⟨⟨_, ha⟩, fun e he => ht _ (hmem e he)⟩, hmem⟩
  | concept qs' =>
    cases hqs
    refine ⟨ha.1, fun x hx => ?_⟩
    have hmem : ∀ e ∈ x.binds, e.2 ∈ (Atom.concept qs).types := fun e he =>
      List.mem_flatMap.mpr ⟨x, hx, List.mem_map_of_mem he⟩
    exact ⟨⟨⟨_, ha.2 x hx⟩, fun e he => ht _ (hmem e he)⟩, hmem⟩
  | tuple _ | record _ | ephemeral _ => cases hqs

/-- No entity is an intersection of concepts: the kinds of their declarations differ. -/
theorem InOrder.eq_of_parts (hp : p.PlainlyNamed) {a b : Atom} {qs : List Part} (ha : a.InOrder p)
    (hb : b.InOrder p) (hqs : a.parts? = some qs) (hqs' : b.parts? = some qs) : a = b := by
  cases a with
  | entity q =>
    cases hqs
    cases b with
    | entity q' =>
      cases hqs'
      rfl
    | concept qs' =>
      cases hqs'
      cases Part.Of.kind_unique hp ha.1 (hb.1.2 q (by simp))
    | tuple _ | record _ | ephemeral _ => cases hqs'
  | concept qs =>
    cases hqs
    cases b with
    | entity q' =>
      cases hqs'
      cases Part.Of.kind_unique hp hb.1 (ha.1.2 q' (by simp))
    | concept qs' =>
      cases hqs'
      rfl
    | tuple _ | record _ | ephemeral _ => cases hqs'
  | tuple _ | record _ | ephemeral _ => cases hqs

theorem InOrder.read_of_parts (hp : p.PlainlyNamed) {a b : Atom} {qs qs' : List Part}
    {r r' : List Char} (ha : a.InOrder p) (hr : ∀ t ∈ a.types, t.Reads p) (hb : b.InOrder p)
    (hqs : a.parts? = some qs) (hqs' : b.parts? = some qs') (hend : Atom.Ends r)
    (hend' : Atom.Ends r') (h : a.key.toList ++ r = b.key.toList ++ r') : a = b ∧ r = r' := by
  obtain ⟨hne, hq⟩ := ha.parts hqs
  obtain ⟨hne', hq'⟩ := hb.parts hqs'
  rw [key_eq_of_parts hqs, key_eq_of_parts hqs'] at h
  obtain ⟨rfl, rfl⟩ := parts_read hp hne hne' (fun q hx => (hq q hx).1)
    (fun q hx e he => hr _ ((hq q hx).2 e he)) (fun q hx => (hq' q hx).1) hend hend' h
  exact ⟨ha.eq_of_parts hp hb hqs hqs', rfl⟩

/-- **An option is read back**: how it begins says of which shape it is. -/
theorem InOrder.read (hp : p.PlainlyNamed) {a : Atom} (ha : a.InOrder p)
    (hr : ∀ t ∈ a.types, t.Reads p) :
    ReadBack (fun a => a.key.toList) (InOrder p) Atom.Ends a := by
  intro b hb r r' hend hend' h
  obtain ⟨c, hopen, hopen'⟩ : ∃ c, a.Opens c ∧ b.Opens c := by
    obtain ⟨c, l, hkey, hc⟩ := ha.1.key_eq_cons hp
    obtain ⟨d, l', hkey', hd⟩ := hb.1.key_eq_cons hp
    have h := h
    simp only [hkey, hkey', List.cons_append] at h
    obtain ⟨rfl, -⟩ := List.cons.inj h
    exact ⟨c, hc, hd⟩
  -- no shape but that of parts begins with a character of names
  have hplain : plainChar c = true → c = '[' ∨ c = '\x7b' ∨ c = '(' → False := by
    rintro hc (rfl | rfl | rfl) <;> revert hc <;> decide
  cases a with
  | entity q =>
    cases b with
    | entity _ | concept _ => exact ha.read_of_parts hp hr hb rfl rfl hend hend' h
    | tuple _ => exact (hplain hopen (.inl hopen')).elim
    | record _ => exact (hplain hopen (.inr (.inl hopen'))).elim
    | ephemeral _ => exact (hplain hopen (.inr (.inr hopen'))).elim
  | concept qs =>
    cases b with
    | entity _ | concept _ => exact ha.read_of_parts hp hr hb rfl rfl hend hend' h
    | tuple _ => exact (hplain hopen (.inl hopen')).elim
    | record _ => exact (hplain hopen (.inr (.inl hopen'))).elim
    | ephemeral _ => exact (hplain hopen (.inr (.inr hopen'))).elim
  | tuple es =>
    cases b with
    | entity _ | concept _ => exact (hplain hopen' (.inl hopen)).elim
    | tuple es' =>
      obtain ⟨rfl, rfl⟩ := slots_read hp ha.2 hr hb.2 h
      exact ⟨rfl, rfl⟩
    | record _ | ephemeral _ => cases hopen.symm.trans hopen'
  | record es =>
    cases b with
    | entity _ | concept _ => exact (hplain hopen' (.inr (.inl hopen))).elim
    | record es' =>
      obtain ⟨rfl, rfl⟩ := fields_read ha.1 ha.2 hr hb.1 hb.2 h
      exact ⟨rfl, rfl⟩
    | tuple _ | ephemeral _ => cases hopen.symm.trans hopen'
  | ephemeral ts =>
    cases b with
    | entity _ | concept _ => exact (hplain hopen' (.inr (.inr hopen))).elim
    | ephemeral ts' =>
      obtain ⟨rfl, rfl⟩ := types_read hp ha.2 hr hb.2 h
      exact ⟨rfl, rfl⟩
    | tuple _ | record _ => cases hopen.symm.trans hopen'

end Atom

/-! ## Types -/

/-- **A type is read back**, whatever its options are made of. -/
theorem Ty.Proper.read (hp : p.PlainlyNamed) {t : Ty} (h : t.Proper p) : t.Reads p := by
  induction h with
  | @union os hne ha ht ih =>
    intro u hu r r' hend hend' heq
    cases hu with
    | @union os' hne' ha' ht' =>
      simp only [key, Atom.keys_eq_map, toList_separated] at heq
      obtain ⟨rfl, rfl⟩ := ReadBack.separated Atom.ends_bar
        (fun a hmem => Atom.InOrder.read hp ⟨ha a hmem, ht a hmem⟩ (ih a hmem))
        (fun a hmem => ⟨ha' a hmem, ht' a hmem⟩) hne hne' hend.atom hend'.atom hend.not_prefix
        hend'.not_prefix heq
      exact ⟨rfl, rfl⟩

/-- **A key is the key of one type**, of all the types built of the declarations of a program in
which no two types have one name. -/
theorem Ty.Built.eq_of_key {p : Program} (hp : p.PlainlyNamed) {t u : Ty} (ht : t.Built p)
    (hu : u.Built p) (h : t.key = u.key) : t = u := by
  have hnil : Ty.Ends [] := fun c hc => by cases hc
  have hread := ht.proper.read hp u hu.proper [] [] hnil hnil (congrArg (·.toList ++ []) h)
  exact hread.1

/-- Two concepts, and an entity with one parameter. -/
def Program.shelf : Program where
  types := [⟨⟨0⟩, "Core", "Any", .concept, [], [], [], "", {}⟩,
    ⟨⟨1⟩, "Core", "Some", .concept, [], [], [], "", {}⟩,
    ⟨⟨2⟩, "Core", "List", .entity, ["T"], [], [], "", {}⟩]

/-- The lists of what is of all the concepts given, in a tuple where they may be left out. -/
def Program.shelved (cs : List TypeDecl) : Ty :=
  .tuple [⟨.nominal ⟨⟨2⟩, "Core", "List", .entity, ["T"], [], [], "", {}⟩
    (Table.ofList [("T", .concept (cs.map (.ofDecl · ∅)))]), true⟩]

/-- Concepts in the other order make the same type, also inside bindings. -/
theorem Ty.Built.shelved_reverse :
    Program.shelf.PlainlyNamed ∧
      (Program.shelved (Program.shelf.types.take 2)).key
        = "[?:Core::List<T=Core::Any & Core::Some>]" ∧
      Program.shelved (Program.shelf.types.take 2)
        = Program.shelved (Program.shelf.types.take 2).reverse := by
  have hp : Program.shelf.PlainlyNamed := ⟨by decide +kernel, by decide +kernel⟩
  have hbuilt : ∀ cs : List TypeDecl, cs ≠ [] →
      (∀ c ∈ cs, c ∈ Program.shelf.types ∧ c.kind = .concept) →
      (Program.shelved cs).Built Program.shelf := by
    intro cs hne hcs
    have hconcept : (Ty.concept (cs.map (.ofDecl · ∅))).Built Program.shelf := by
      have hkeys : (∅ : Table Ty).keys = [] := rfl
      have hvalues : (∅ : Table Ty).values = [] := rfl
      have := @Ty.Built.concept Program.shelf (cs.map (·, ∅)) (by simpa using hne)
        (by simpa using hcs) (by simp [hkeys]) (by simp [hvalues])
      rwa [List.map_map] at this
    refine .tuple ?_
    simp only [List.mem_singleton, forall_eq]
    refine .nominal (by decide) (fun n hn => ?_) fun u hu => ?_
    · obtain rfl : n = "T" := List.mem_singleton.mp hn
      decide +kernel
    · obtain rfl : u = _ := List.mem_singleton.mp hu
      exact hconcept
  refine ⟨hp, by decide +kernel, Ty.Built.eq_of_key hp (hbuilt _ (by decide) (by decide))
    (hbuilt _ (by decide) (by decide)) (by decide +kernel)⟩

end Monomorph
