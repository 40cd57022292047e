import Monomorph.Proofs.Ssa.Placement
import Monomorph.Proofs.Typing.Pass

/-!
# Typing/Inputs — what the merges of a converted body take

Conversion places merges where different versions of a base name meet, and gives each an input for
every predecessor within reach, the version current at its end.  When the pass comes to a merge it
has met those versions already: **an input of a merge is the parameter of its base name or was
written before** (`Converted.of_input`).  Two inputs differ, and only one of them can be the
parameter; so a merge takes something that was written before (`Converted.exists_written`).
-/

namespace Monomorph

theorem Instr.sources_eq_nil {α : Type} {i : Instr α} (h : i.isMerge = false) : i.sources = [] := by
  cases i with
  | phi => cases h
  | _ => rfl

namespace Blocks

theorem Path.onward {bs : Blocks} (ha : bs.Acyclic) {way : List String} {l : String}
    (h : bs.Path way l) : bs.Onward way l := by
  induction h with
  | entry h => exact .entry h
  | step h e ih => exact ih.step e (ha.edge_before h.reachable e)

namespace Converted

variable {bs : Blocks} {b' : Body} {params : List String} {out : Table Versions} {l : String}
  {pre post : List Op} {pos : Position} {inputs : Table Register} {target : Register}
  (h : Converted bs b'.blocks params out) (hc : bs.Convertible params)

include h hc

theorem mergesReached : b'.blocks.MergesReached := by
  intro l hl o ho p hp
  obtain ⟨merges, ops, hops, hplain, hplaced⟩ := h.placed hc (h.sameGraph.reachable.mp hl)
  rw [hops] at ho
  rcases List.mem_append.mp ho with ho | ho
  · obtain ⟨m, hm, rfl⟩ := List.mem_map.mp ho
    obtain ⟨hreach, hedge⟩ := (hplaced.inputs m hm p).mp (Table.mem_keys.mp hp)
    exact ⟨h.sameGraph.reachable.mpr hreach, h.sameGraph.edge.mpr hedge⟩
  · rw [Instr.sources_eq_nil (hplain o ho)] at hp
    cases hp

/-- A merge is one of those placed at the start of its block. -/
theorem exists_placed (hl : b'.blocks.Reachable l)
    (ho : (⟨pos, .phi inputs target⟩ : Op) ∈ b'.blocks.opsAt l) :
    ∃ merges, Placed bs params b'.blocks l merges ∧ (inputs, target) ∈ merges := by
  obtain ⟨merges, ops, hops, hplain, hplaced⟩ := h.placed hc (h.sameGraph.reachable.mp hl)
  rw [hops] at ho
  rcases List.mem_append.mp ho with ho | ho
  · obtain ⟨m, hm, heq⟩ := List.mem_map.mp ho
    injection heq with hpos hinstr
    injection hinstr with hinputs htarget
    exact ⟨merges, hplaced, by rwa [← hinputs, ← htarget]⟩
  · cases hplain _ ho

variable (hw : bs.WellShaped) (hd : bs.DefinitelyAssigned params)

include hw hd

/-- **What a merge takes** is a version of its own base, and is the parameter of that name or was
written before. -/
theorem of_input (hsplit : b'.blocks.reachedOps = pre ++ ⟨pos, .phi inputs target⟩ :: post)
    {r : Register} (hr : r ∈ inputs.values) : r.base = target.base ∧
      (target.base ∈ params ∧ r = .var (.ofBase target.base) ∨ ∃ o ∈ pre, r ∈ o.writes) := by
  obtain ⟨l, hl, ho⟩ := mem_reachedOps.mp
    (by simp [hsplit] : (⟨pos, .phi inputs target⟩ : Op) ∈ b'.blocks.reachedOps)
  obtain ⟨merges, hplaced, hm⟩ := h.exists_placed hc hl ho
  obtain ⟨p, hp⟩ := Table.mem_values.mp hr
  obtain ⟨hbase, hcurrent⟩ := hplaced.current _ hm p r hp
  obtain ⟨⟨way, hway⟩, -⟩ := (hplaced.inputs _ hm p).mp (Table.contains_of_get? hp)
  refine ⟨hbase, ?_⟩
  rcases lastVersion_eq_some (hcurrent way (h.sameGraph.path hway)) with ⟨k, hk⟩ | hparam
  · have hknown := Body.reads_known (h.sameGraph.acyclic hc.acyclic)
      (h.violations_eq_nil hc hw hd rfl) (h.mergesReached hc) hsplit r hr
    have hwritten := hknown.resolve_left (h.allWrites_notParam _ hk)
    obtain ⟨r', hr', hname⟩ := List.mem_map.mp hwritten
    obtain ⟨o, ho, hr'⟩ := List.mem_flatMap.mp hr'
    obtain ⟨k', -, hk'⟩ := mem_reachedOps.mp
      (by simp [hsplit, ho] : o ∈ b'.blocks.reachedOps)
    -- no name is written twice, so it is this register that was written before
    have hsame := List.inj_on_of_nodup_map h.nodup_allWrites (mem_allWrites hk' hr') hk hname
    obtain ⟨-, rfl⟩ := Prod.mk.inj hsame
    exact .inr ⟨o, ho, hr'⟩
  · exact .inl hparam

/-- A merge takes something that was written before: two versions meet, and only one of them can be
the parameter. -/
theorem exists_written (hsplit : b'.blocks.reachedOps = pre ++ ⟨pos, .phi inputs target⟩ :: post) :
    ∃ r ∈ inputs.values, r.base = target.base ∧ ∃ o ∈ pre, r ∈ o.writes := by
  obtain ⟨l, hl, ho⟩ := mem_reachedOps.mp
    (by simp [hsplit] : (⟨pos, .phi inputs target⟩ : Op) ∈ b'.blocks.reachedOps)
  obtain ⟨merges, hplaced, hm⟩ := h.exists_placed hc hl ho
  obtain ⟨-, p, q, r, r', hp, hq, hr, hr', hdiffer⟩ :=
    (hplaced.mem_iff target.base).mp (List.mem_map_of_mem hm)
  have hinput : ∀ {p r}, bs.Reachable p ∧ bs.Edge p l →
      b'.blocks.Current params p target.base r → r ∈ inputs.values := by
    intro p r hp hr
    obtain ⟨u, hu⟩ := Table.contains_iff.mp ((hplaced.inputs _ hm p).mpr hp)
    obtain rfl := (hplaced.current _ hm p u hu).2.unique (h.sameGraph.reachable.mpr hp.1) hr
    exact Table.mem_values.mpr ⟨p, hu⟩
  obtain ⟨hbase, hparam | hbefore⟩ := h.of_input hc hw hd hsplit (hinput hp hr)
  · obtain ⟨hbase', hparam' | hbefore⟩ := h.of_input hc hw hd hsplit (hinput hq hr')
    · exact absurd (congrArg Register.name (hparam.2.trans hparam'.2.symm)) hdiffer
    · exact ⟨r', hinput hq hr', hbase', hbefore⟩
  · exact ⟨r, hinput hp hr, hbase, hbefore⟩

end Converted

end Blocks

end Monomorph
