import Monomorph.Interned.Basic
import Monomorph.Proofs.Ty.Inside

/-!
# Ty/Mirror — the copy of a type that is stored, and the parts it mentions

A type is stored as a copy that keeps keys in place of parts (`Ty.mirror`).  For types built of the
declarations of a program the constructors of stored types make just this copy, since options,
concepts and fields stand in order already; and what such a type mentions are declarations of the
program (`Ty.Built.mentions`).
-/

namespace Monomorph

/-! ## The copy of a type, and what it mentions -/

mutual

/-- A type as it is stored. -/
def Ty.mirror : Ty → Interned
  | .union os => .mk (Ty.key (.union os)) (Atom.mirrors os)

def Atom.mirror : Atom → Shape
  | .entity p => .entity p.key
  | .concept ps => .concept (Part.keys ps) (Atom.key (.concept ps))
  | .tuple es => .tuple (Ty.slotMirrors es) (Atom.key (.tuple es))
  | .record es => .record (Ty.fieldMirrors es) (Atom.key (.record es))
  | .ephemeral ts => .ephemeral (Ty.mirrors ts) (Atom.key (.ephemeral ts))

def Atom.mirrors : List Atom → List Shape
  | [] => []
  | a :: r => a.mirror :: Atom.mirrors r

def Ty.mirrors : List Ty → List Interned
  | [] => []
  | t :: r => t.mirror :: Ty.mirrors r

def Ty.slotMirrors : List (Slot Ty) → List (Slot Interned)
  | [] => []
  | ⟨t, o⟩ :: r => ⟨t.mirror, o⟩ :: Ty.slotMirrors r

def Ty.fieldMirrors : List (String × Slot Ty) → List (String × Slot Interned)
  | [] => []
  | (n, ⟨t, o⟩) :: r => (n, ⟨t.mirror, o⟩) :: Ty.fieldMirrors r

end

mutual

/-- The parts of a type, those inside bindings aside. -/
def Ty.mentions : Ty → List Part
  | .union os => Atom.allMentions os

def Atom.mentions : Atom → List Part
  | .entity p => [p]
  | .concept ps => ps
  | .tuple es => Ty.slotMentions es
  | .record es => Ty.fieldMentions es
  | .ephemeral ts => Ty.allMentions ts

def Atom.allMentions : List Atom → List Part
  | [] => []
  | a :: r => a.mentions ++ Atom.allMentions r

def Ty.allMentions : List Ty → List Part
  | [] => []
  | t :: r => t.mentions ++ Ty.allMentions r

def Ty.slotMentions : List (Slot Ty) → List Part
  | [] => []
  | ⟨t, _⟩ :: r => t.mentions ++ Ty.slotMentions r

def Ty.fieldMentions : List (String × Slot Ty) → List Part
  | [] => []
  | (_, ⟨t, _⟩) :: r => t.mentions ++ Ty.fieldMentions r

end

@[simp] theorem Ty.key_mirror (t : Ty) : t.mirror.key = t.key := by
  cases t
  rfl

@[simp] theorem Atom.key_mirror (a : Atom) : a.mirror.key = a.key := by
  cases a <;> rfl

theorem Atom.mirrors_eq_map (os : List Atom) : Atom.mirrors os = os.map Atom.mirror := by
  induction os with
  | nil => rfl
  | cons a os ih => rw [mirrors, ih, List.map_cons]

theorem Ty.slotMirrors_eq_map (es : List (Slot Ty)) :
    Ty.slotMirrors es = es.map fun e => ⟨e.type.mirror, e.optional⟩ := by
  induction es with
  | nil => rfl
  | cons e es ih => rw [slotMirrors, ih, List.map_cons]

theorem Ty.fieldMirrors_eq_map (es : List (String × Slot Ty)) :
    Ty.fieldMirrors es = es.map fun e => (e.1, ⟨e.2.type.mirror, e.2.optional⟩) := by
  induction es with
  | nil => rfl
  | cons e es ih => rw [fieldMirrors, ih, List.map_cons]

theorem Ty.mirrors_eq_map (ts : List Ty) : Ty.mirrors ts = ts.map Ty.mirror := by
  induction ts with
  | nil => rfl
  | cons t ts ih => rw [mirrors, ih, List.map_cons]

theorem Ty.mentions_single (a : Atom) : (Ty.single a).mentions = a.mentions :=
  List.append_nil _

/-! ## The constructors make the copy -/

/-- Shapes in order make the copy of the type. -/
theorem Ty.mirror_eq_ofShapes {t : Ty} (h : t.options.Pairwise fun a b => a.key < b.key) :
    Interned.ofShapes (Atom.mirrors t.options) = t.mirror := by
  obtain ⟨os⟩ := t
  rw [Ty.options] at h
  have hsorted : (os.map Atom.mirror).Pairwise fun a b => a.key < b.key := by
    simpa [List.pairwise_map] using h
  rw [Interned.ofShapes, Ty.options, Atom.mirrors_eq_map, Listing.distinctBy_eq_self hsorted]
  simp [Ty.mirror, Ty.key, Atom.mirrors_eq_map, Atom.keys_eq_map, Function.comp_def]

theorem Ty.mirror_eq_single (a : Atom) : Interned.single a.mirror = (Ty.single a).mirror :=
  @Ty.mirror_eq_ofShapes (Ty.single a) (List.pairwise_singleton ..)

theorem Atom.mirror_eq_ofConcepts {ps : List Part} (h : ps.Pairwise fun a b => a.key < b.key) :
    Shape.ofConcepts (ps.map Part.key) = (Atom.concept ps).mirror := by
  have hsorted : (ps.map Part.key).Pairwise fun a b => id a < id b := by
    simpa [List.pairwise_map] using h
  rw [Shape.ofConcepts, Listing.distinct, Listing.distinctBy_eq_self hsorted]
  simp [Atom.mirror, Atom.key, Part.keys_eq_map]

theorem Atom.mirror_eq_ofTuple (es : List (Slot Ty)) :
    Shape.ofTuple (Ty.slotMirrors es) = (Atom.tuple es).mirror := by
  simp [Shape.ofTuple, Atom.mirror, Atom.key, Ty.slotMirrors_eq_map, Ty.slotKeys_eq_map,
    Function.comp_def]
  rfl

theorem Atom.mirror_eq_ofRecord {es : List (String × Slot Ty)}
    (h : es.Pairwise fun a b => ¬ b.1 < a.1) :
    Shape.ofRecord (Ty.fieldMirrors es) = (Atom.record es).mirror := by
  have hsorted : (Ty.fieldMirrors es).Pairwise fun a b => ¬ b.1 < a.1 := by
    simpa [Ty.fieldMirrors_eq_map, List.pairwise_map] using h
  rw [Shape.ofRecord, Listing.sortBy_eq_self hsorted]
  simp [Atom.mirror, Atom.key, Ty.fieldMirrors_eq_map, Ty.fieldKeys_eq_map, Function.comp_def]
  rfl

theorem Atom.mirror_eq_ofEphemeral (ts : List Ty) :
    Shape.ofEphemeral (Ty.mirrors ts) = (Atom.ephemeral ts).mirror := by
  simp [Shape.ofEphemeral, Atom.mirror, Atom.key, Ty.mirrors_eq_map, Ty.keys_eq_map,
    Function.comp_def]

/-! ## The parts of a type built -/

mutual

/-- **What a type built mentions are declarations of the program.** -/
theorem Ty.Built.mentions {p : Program} : (t : Ty) → t.Built p → ∀ q ∈ t.mentions, ∃ k, q.Built p k
  | .union os, ht => builtAll_atoms os fun _ ha => ht.single ha

theorem built_atom {p : Program} :
    (a : Atom) → (Ty.single a).Built p → ∀ q ∈ a.mentions, ∃ k, q.Built p k
  | .entity _, ha => List.forall_mem_singleton.mpr ⟨.entity, (ha.option List.mem_cons_self).1⟩
  | .concept _, ha => fun q hq => ⟨.concept, (ha.option List.mem_cons_self).1.2 q hq⟩
  | .tuple es, ha => builtAll_slots es (List.forall_mem_map.mp (ha.option List.mem_cons_self).2)
  | .record es, ha => builtAll_fields es (List.forall_mem_map.mp (ha.option List.mem_cons_self).2)
  | .ephemeral ts, ha => builtAll_tys ts (ha.option List.mem_cons_self).2

theorem builtAll_atoms {p : Program} : (os : List Atom) → (∀ a ∈ os, (Ty.single a).Built p) →
    ∀ q ∈ Atom.allMentions os, ∃ k, q.Built p k
  | [], _ => List.forall_mem_nil _
  | a :: r, h => List.forall_mem_append.mpr
      ⟨built_atom a (h a List.mem_cons_self),
        builtAll_atoms r fun b hb => h b (List.mem_cons_of_mem _ hb)⟩

theorem builtAll_tys {p : Program} : (ts : List Ty) → (∀ t ∈ ts, t.Built p) →
    ∀ q ∈ Ty.allMentions ts, ∃ k, q.Built p k
  | [], _ => List.forall_mem_nil _
  | t :: r, h => List.forall_mem_append.mpr
      ⟨Ty.Built.mentions t (h t List.mem_cons_self),
        builtAll_tys r fun u hu => h u (List.mem_cons_of_mem _ hu)⟩

theorem builtAll_slots {p : Program} : (es : List (Slot Ty)) → (∀ e ∈ es, e.type.Built p) →
    ∀ q ∈ Ty.slotMentions es, ∃ k, q.Built p k
  | [], _ => List.forall_mem_nil _
  | ⟨t, o⟩ :: r, h => List.forall_mem_append.mpr
      ⟨Ty.Built.mentions t (h ⟨t, o⟩ List.mem_cons_self),
        builtAll_slots r fun e he => h e (List.mem_cons_of_mem _ he)⟩

theorem builtAll_fields {p : Program} : (es : List (String × Slot Ty)) →
    (∀ e ∈ es, e.2.type.Built p) → ∀ q ∈ Ty.fieldMentions es, ∃ k, q.Built p k
  | [], _ => List.forall_mem_nil _
  | (n, ⟨t, o⟩) :: r, h => List.forall_mem_append.mpr
      ⟨Ty.Built.mentions t (h (n, ⟨t, o⟩) List.mem_cons_self),
        builtAll_fields r fun e he => h e (List.mem_cons_of_mem _ he)⟩

end

end Monomorph
