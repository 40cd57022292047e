import Monomorph.Proofs.Ssa.Conversion

/-!
# Ssa/Checked — what conversion asks of a body, as checks

Of a given body each condition can be computed.  A numbering of the labels that grows along every
edge shows that nothing leads back (`acyclic_of_rank`), a set of names at each label that no edge
enlarges shows that they are assigned there (`definitelyAssigned_of_known`), and names that do not
begin with each other and a dollar sign are apart (`apart_of_not_prefix`).
-/

namespace Monomorph

/-- Names are apart if none begins with another and a dollar sign. -/
theorem apart_of_not_prefix {known : String → Prop}
    (h : ∀ b c, known b → known c → ¬ (c.toList ++ ['$']) <+: b.toList) : Apart known := by
  rintro b c hb hc n rfl
  refine h _ c hb hc ⟨(toString n).toList, ?_⟩
  rw [String.toList_append, String.toList_append]
  rfl

namespace Blocks

variable {bs : Blocks} {params : List String}

/-- The names a body uses, listed. -/
def names (bs : Blocks) (params : List String) : List String :=
  params ++ bs.allOps.flatMap fun o => (o.reads ++ o.writes).map Register.base

theorem mentions_iff {n : String} : bs.Mentions params n ↔ n ∈ bs.names params := by
  simp only [Mentions, names, List.mem_append, List.mem_flatMap, List.mem_map]

theorem closed_of_keys (h : ∀ u ∈ bs.keys, ∀ v ∈ bs.successors u, bs.contains v = true) :
    bs.Closed := by
  intro u v hv
  by_cases hu : u ∈ bs.keys
  · exact h u hu v hv
  · have hnone : bs.get? u = none := by
      rw [Table.mem_keys, Bool.not_eq_true, Table.contains_eq_false] at hu
      exact hu
    rw [successors, hnone] at hv
    simp at hv

/-- **Names are assigned** wherever they are said to be, if no edge leads to more of them than its
block has or assigns. -/
theorem definitelyAssigned_of_known (known : String → List String)
    (hentry : ∀ n ∈ known entryLabel, n ∈ params)
    (hedge : ∀ u ∈ bs.keys, ∀ v ∈ bs.successors u, ∀ n ∈ known v,
      n ∈ known u ∨ n ∈ bs.assignedAt u)
    (hreads : ∀ u ∈ bs.keys, ∀ i, ∀ _ : i < (bs.opsAt u).length, ∀ r ∈ ((bs.opsAt u)[i]).reads,
      r.base ∈ known u ∨ r.base ∈ ((bs.opsAt u).take i).flatMap Op.assigns) :
    bs.DefinitelyAssigned params := by
  have assigned : ∀ {before l}, bs.Path before l →
      ∀ n ∈ known l, bs.AssignedOn params before n := by
    intro before l hway
    induction hway with
    | entry => exact fun n hn => .inl (hentry n hn)
    | step _ e ih =>
      intro n hn
      rw [assignedOn_concat]
      exact (hedge _ (mem_keys_of_edge e) _ e.1 n hn).imp_left (ih n)
  intro before l hway earlier o later hsplit r hr
  have hlt : earlier.length < (bs.opsAt l).length := by simp [hsplit]
  have hget : (bs.opsAt l)[earlier.length] = o := by simp [hsplit]
  have htake : (bs.opsAt l).take earlier.length = earlier := by simp [hsplit]
  have := hreads l (Table.mem_keys.mpr hway.contains) earlier.length hlt r (hget ▸ hr)
  rw [htake] at this
  exact this.imp_left (assigned hway r.base)

/-- **A body can be converted** if it passes the checks. -/
theorem convertible_of_checks (rank : String → Nat)
    (hmerge : ∀ o ∈ bs.allOps, o.instr.isMerge = false)
    (hname : ∀ o ∈ bs.allOps, ∀ r ∈ o.reads ++ o.writes, r.name = r.base)
    (hclosed : ∀ u ∈ bs.keys, ∀ v ∈ bs.successors u, bs.contains v = true)
    (hrank : ∀ u ∈ bs.keys, ∀ v ∈ bs.successors u, rank u < rank v)
    (hapart : ∀ b ∈ bs.names params, ∀ c ∈ bs.names params,
      ¬ (c.toList ++ ['$']) <+: b.toList) : bs.Convertible params where
  noMerge := hmerge
  unversioned := hname
  closed := closed_of_keys hclosed
  acyclic := acyclic_of_rank rank hrank
  apart := apart_of_not_prefix fun b c hb hc =>
    hapart b (mentions_iff.mp hb) c (mentions_iff.mp hc)

/-! ## A variable written on one way only

Both arms of a branch meet with different versions of `x`, so the block where they meet begins with
a merge. -/

/-- `x = 1; if p then x = x`, and `x` returned. -/
def diamond : Blocks := Table.ofList [
  (entryLabel, ⟨entryLabel, [
    ⟨.synthetic, .store (.literal (.int "1")) (.ofBase "x")⟩,
    ⟨.synthetic, .branch (.ofVar (.ofBase "p")) "then" returnLabel⟩]⟩),
  ("then", ⟨"then", [
    ⟨.synthetic, .assign (.ofVar (.ofBase "x")) (.ofId 0)⟩,
    ⟨.synthetic, .store (.ofTemp (.ofId 0)) (.ofBase "x")⟩,
    ⟨.synthetic, .jump returnLabel⟩]⟩),
  (returnLabel, ⟨returnLabel, [
    ⟨.synthetic, .returnAssign (.ofVar (.ofBase "x")) .result⟩,
    ⟨.synthetic, .jump exitLabel⟩]⟩),
  (exitLabel, ⟨exitLabel, []⟩)]

theorem diamond_convertible : diamond.Convertible ["p"] :=
  convertible_of_checks (fun l => ["entry", "then", "returnassign", "exit"].idxOf l)
    (by decide +kernel) (by decide +kernel) (by decide +kernel) (by decide +kernel)
    (by decide +kernel)

theorem diamond_definitelyAssigned : diamond.DefinitelyAssigned ["p"] :=
  definitelyAssigned_of_known (fun l => if l = entryLabel then ["p"] else ["x"])
    (by decide +kernel) (by decide +kernel) (by decide +kernel)

end Blocks

end Monomorph
