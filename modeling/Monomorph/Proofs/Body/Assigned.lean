import Monomorph.Proofs.Body.Meaning
import Monomorph.Proofs.Graph.Paths

/-!
# Body/Assigned — the names every way to a block has assigned

A name is **certain** at a block if it is a parameter or assigned on every way there.  That speaks
of all ways at once, but obeys one equation per block: at `entry` the parameters are certain, at any
other block what every predecessor hands on (`certainAt_entry`, `certainAt_iff_forall_pred`).
Whatever is computed block by block from the same equations is therefore certainty itself.
-/

namespace Monomorph

/-- The base names an operation assigns. -/
def Op.assigns (o : Op) : List String :=
  o.writes.map Register.base

/-- Every operation of a row reads names known at the start, or assigned before it. -/
def ReadsFrom (known : String → Prop) : List Op → Prop
  | [] => True
  | o :: ops => (∀ r ∈ o.reads, known r.base) ∧ ReadsFrom (fun n => known n ∨ n ∈ o.assigns) ops

/-- **A row reads what is known** if each of its operations does, where it stands. -/
theorem readsFrom_iff {known : String → Prop} {ops : List Op} :
    ReadsFrom known ops ↔ ∀ earlier o later, ops = earlier ++ o :: later → ∀ r ∈ o.reads,
      known r.base ∨ r.base ∈ earlier.flatMap Op.assigns := by
  induction ops generalizing known with
  | nil => simp [ReadsFrom]
  | cons x ops ih =>
    rw [ReadsFrom, ih]
    constructor
    · rintro ⟨hfirst, hrest⟩ (_ | ⟨y, earlier⟩) o later heq r hr
      · obtain ⟨rfl, -⟩ := List.cons.inj heq
        exact .inl (hfirst r hr)
      · obtain ⟨rfl, rfl⟩ := List.cons.inj heq
        rw [List.flatMap_cons, List.mem_append, ← or_assoc]
        exact hrest earlier o later rfl r hr
    · intro hall
      refine ⟨fun r hr => (hall [] x ops rfl r hr).resolve_right (by simp), ?_⟩
      rintro earlier o later rfl r hr
      rw [or_assoc, ← List.mem_append]
      exact hall (x :: earlier) o later rfl r hr

namespace Blocks

/-- Every operation of every block. -/
def allOps (bs : Blocks) : List Op :=
  bs.values.flatMap Block.ops

/-- The base names a block assigns. -/
def assignedAt (bs : Blocks) (l : String) : List String :=
  (bs.opsAt l).flatMap Op.assigns

/-- The names a block writes. -/
def namesAt (bs : Blocks) (l : String) : List String :=
  ((bs.opsAt l).flatMap Op.writes).map Register.name

/-- A base name has a value once control has been through the blocks listed. -/
def AssignedOn (bs : Blocks) (params way : List String) (n : String) : Prop :=
  n ∈ params ∨ n ∈ way.flatMap bs.assignedAt

/-- Whichever way control gets to a block, a base name has a value there. -/
def CertainAt (bs : Blocks) (params : List String) (l n : String) : Prop :=
  ∀ before, bs.Path before l → bs.AssignedOn params before n

/-- Every read within reach is of a parameter, or of a name assigned before it on every way. -/
def DefinitelyAssigned (bs : Blocks) (params : List String) : Prop :=
  ∀ before l, bs.Path before l → ∀ earlier o later, bs.opsAt l = earlier ++ o :: later →
    ∀ r ∈ o.reads, bs.AssignedOn params before r.base ∨ r.base ∈ earlier.flatMap Op.assigns

/-- Every read of a block is of a name certain there, or assigned before it in the block. -/
def ReadsCertain (bs : Blocks) (params : List String) (l : String) : Prop :=
  ReadsFrom (bs.CertainAt params l) (bs.opsAt l)

variable {bs : Blocks} {params : List String}

/-! ## Operations of a body -/

theorem mem_allOps {o : Op} : o ∈ bs.allOps ↔ ∃ l b, bs.get? l = some b ∧ o ∈ b.ops := by
  rw [allOps, List.mem_flatMap]
  constructor
  · rintro ⟨b, hb, ho⟩
    obtain ⟨l, hl⟩ := Table.mem_values.mp hb
    exact ⟨l, b, hl, ho⟩
  · rintro ⟨l, b, hl, ho⟩
    exact ⟨b, Table.mem_values.mpr ⟨l, hl⟩, ho⟩

theorem mem_allOps_of_opsAt {l : String} {o : Op} (h : o ∈ bs.opsAt l) : o ∈ bs.allOps := by
  rw [opsAt] at h
  split at h
  · exact mem_allOps.mpr ⟨l, _, ‹_›, h⟩
  · simp at h

/-! ## Certainty, block by block -/

theorem assignedOn_concat {way : List String} {l n : String} :
    bs.AssignedOn params (way ++ [l]) n
      ↔ bs.AssignedOn params way n ∨ n ∈ bs.assignedAt l := by
  simp [AssignedOn, or_assoc]

/-- **At `entry` the parameters are certain**, and nothing else is. -/
theorem certainAt_entry (he : bs.contains entryLabel = true) {n : String} :
    bs.CertainAt params entryLabel n ↔ n ∈ params :=
  brought_entry he

/-- **At any other block** what every predecessor hands on is certain. -/
theorem certainAt_iff_forall_pred {l n : String} (hl : l ≠ entryLabel) :
    bs.CertainAt params l n ↔ ∀ p, bs.Reachable p → bs.Edge p l →
      bs.CertainAt params p n ∨ n ∈ bs.assignedAt p :=
  brought_iff_forall_pred hl

/-- **Definite assignment asks for certainty** where a read is not preceded in its own block. -/
theorem definitelyAssigned_iff :
    bs.DefinitelyAssigned params ↔ ∀ l, bs.Reachable l → bs.ReadsCertain params l := by
  simp only [ReadsCertain, readsFrom_iff]
  constructor
  · intro h l _ earlier o later hsplit r hr
    by_cases hn : r.base ∈ earlier.flatMap Op.assigns
    · exact .inr hn
    · refine .inl fun before hb => ?_
      exact (h before l hb earlier o later hsplit r hr).resolve_right hn
  · intro h before l hb earlier o later hsplit r hr
    exact (h l hb.reachable earlier o later hsplit r hr).imp_left fun hc => hc before hb

end Blocks

end Monomorph
