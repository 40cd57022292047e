import Monomorph.Proofs.Ssa.Rows

/-!
# Ssa/Merges — the versions at the start of a block

A base name goes on into a block if every predecessor has a version of it (`Incoming.shared`).  If
they all agree on its name nothing happens; otherwise a merge gives it a new version and takes, from
each predecessor, the version that predecessor ends with (`Merged`).  Merges of different bases do
not see each other, so whichever predecessor control comes from, **every version at the start holds
what that predecessor's version held** (`Merged.holds`).
-/

namespace Monomorph

open Versions

/-! ## Versions of one base -/

namespace Incoming

/-- No predecessor is listed twice. -/
def Distinct (inc : Incoming) : Prop :=
  (inc.map (·.1)).Nodup

/-- The base names with a version at the end of every predecessor, and their first version. -/
def shared : Incoming → List (String × Register)
  | [] => []
  | (_, first) :: rest => first.entries.filter fun e => rest.all fun p => p.2.contains e.1

variable {inc : Incoming}

theorem Distinct.unique (h : inc.Distinct) {l : String} {v w : Versions} (hv : (l, v) ∈ inc)
    (hw : (l, w) ∈ inc) : v = w := by
  have := List.inj_on_of_nodup_map h hv hw rfl
  exact (Prod.mk.inj this).2

/-- **A merge takes from a predecessor the version it ends with.** -/
theorem Distinct.get?_versions (h : inc.Distinct) {l : String} {v : Versions} (hv : (l, v) ∈ inc)
    (b : String) : (inc.versions b).get? l = v.get? b := by
  have hmem : ∀ {k r}, (k, r) ∈ (inc.filterMap fun p => (p.2.get? b).map fun r => (p.1, r)) ↔
      ∃ w, (k, w) ∈ inc ∧ w.get? b = some r := by
    intro k r
    rw [List.mem_filterMap]
    constructor
    · rintro ⟨⟨q, w⟩, hq, hr⟩
      obtain ⟨x, hx, he⟩ := Option.map_eq_some_iff.mp hr
      obtain ⟨rfl, rfl⟩ := Prod.mk.inj he
      exact ⟨w, hq, hx⟩
    · rintro ⟨w, hw, hr⟩
      exact ⟨(k, w), hw, by simp [hr]⟩
  cases hb : v.get? b with
  | some r =>
    refine Table.get?_ofList_of_mem (hmem.mpr ⟨v, hv, hb⟩) ?_
    rintro ⟨k, x⟩ he rfl
    obtain ⟨w, hw, hx⟩ := hmem.mp he
    obtain rfl := h.unique hw hv
    exact Option.some.inj (hx.symm.trans hb)
  | none =>
    refine Table.get?_ofList_eq_none fun hl => ?_
    obtain ⟨⟨k, x⟩, he, rfl⟩ := List.mem_map.mp hl
    obtain ⟨w, hw, hx⟩ := hmem.mp he
    obtain rfl := h.unique hw hv
    rw [hb] at hx
    cases hx

/-- The inputs of a merge, each from a predecessor. -/
theorem mem_versions {b l : String} {r : Register} (h : (inc.versions b).get? l = some r) :
    ∃ v, (l, v) ∈ inc := by
  by_contra hn
  rw [versions, Table.get?_ofList_eq_none] at h
  · cases h
  · rintro hl
    obtain ⟨⟨k, x⟩, he, rfl⟩ := List.mem_map.mp hl
    obtain ⟨⟨q, w⟩, hq, hr⟩ := List.mem_filterMap.mp he
    obtain ⟨y, -, he⟩ := Option.map_eq_some_iff.mp hr
    obtain ⟨rfl, rfl⟩ := Prod.mk.inj he
    exact hn ⟨w, hq⟩

theorem shared_spec {b : String} {r : Register} (h : (b, r) ∈ inc.shared) :
    (∃ p ∈ inc, p.2.get? b = some r) ∧ ∀ p ∈ inc, p.2.contains b = true := by
  cases inc with
  | nil => cases h
  | cons p rest =>
    obtain ⟨hf, hr⟩ := List.mem_filter.mp h
    have hfirst := Table.mem_entries.mp hf
    refine ⟨⟨p, by simp, hfirst⟩, List.forall_mem_cons.mpr ⟨Table.contains_of_get? hfirst, ?_⟩⟩
    exact fun q hq => List.all_eq_true.mp hr q hq

theorem mem_shared (hi : inc ≠ []) {b : String} (h : ∀ p ∈ inc, p.2.contains b = true) :
    ∃ r, (b, r) ∈ inc.shared := by
  cases inc with
  | nil => exact absurd rfl hi
  | cons p rest =>
    obtain ⟨hp, hrest⟩ := List.forall_mem_cons.mp h
    obtain ⟨r, hr⟩ := Table.contains_iff.mp hp
    refine ⟨r, List.mem_filter.mpr ⟨Table.mem_entries.mpr hr, List.all_eq_true.mpr ?_⟩⟩
    exact fun q hq => hrest q hq

theorem nodup_shared (inc : Incoming) : (inc.shared.map (·.1)).Nodup := by
  cases inc with
  | nil => exact List.nodup_nil
  | cons p rest => exact p.2.nodup_keys.sublist (List.filter_sublist.map _)

end Incoming

/-! ## Merging in turn -/

/-- Base names with their first versions, taken in turn; the versions before and after; and the
merges made. -/
inductive Merged (inc : Incoming) :
    List (String × Register) → Versions → Versions → List Op → Prop
  | nil (v : Versions) : Merged inc [] v v []
  | agree {b : String} {r : Register} {rest : List (String × Register)} {v v' : Versions}
      {phis : List Op} (ha : ∀ p ∈ inc, ∀ w, p.2.get? b = some w → w.name = r.name)
      (h : Merged inc rest (v.insert b r) v' phis) : Merged inc ((b, r) :: rest) v v' phis
  | merge {b : String} {r w : Register} {rest : List (String × Register)} {v v' : Versions}
      {phis : List Op} (hd : ∃ p ∈ inc, ∃ u, p.2.get? b = some u ∧ u.name ≠ r.name)
      (hb : w.base = r.base) (hv : Versioned b w.name)
      (h : Merged inc rest (v.insert b w) v' phis) :
      Merged inc ((b, r) :: rest) v v' (⟨.synthetic, .phi (inc.versions b) w⟩ :: phis)

namespace Naming

variable {known : String → Prop}

variable {s : Naming} {inc : Incoming} {b : String} {r : Register}

theorem mergeOne_of_agree
    (h : (inc.all fun p => (p.2.get? b).all fun w => w.name = r.name) = true) :
    s.mergeOne inc b r = (r, [], s) := by
  rw [mergeOne, if_pos h]

theorem mergeOne_of_differ
    (h : ¬ (inc.all fun p => (p.2.get? b).all fun w => w.name = r.name) = true) :
    s.mergeOne inc b r = (r.withName (s.fresh b).1,
      [⟨.synthetic, .phi (inc.versions b) (r.withName (s.fresh b).1)⟩], (s.fresh b).2) := by
  rw [mergeOne, if_neg h]

/-- **Merging in turn**, the new names given out. -/
theorem mergeAll_spec (inc : Incoming) {l : List (String × Register)} (hk : ∀ e ∈ l, known e.1)
    (s : Naming) (v : Versions) :
    Merged inc l v (s.mergeAll inc l v).1 (s.mergeAll inc l v).2.1 ∧
      Issues known s (((s.mergeAll inc l v).2.1.flatMap Op.writes).map Register.name)
        (s.mergeAll inc l v).2.2 := by
  induction l generalizing s v with
  | nil => exact ⟨.nil v, .done s⟩
  | cons e rest ih =>
    obtain ⟨b, r⟩ := e
    have hrest : ∀ e ∈ rest, known e.1 := fun e he => hk e (List.mem_cons_of_mem _ he)
    by_cases ha : (inc.all fun p => (p.2.get? b).all fun w => w.name = r.name) = true
    · obtain ⟨hm, hi⟩ := ih hrest s (v.insert b r)
      simp only [mergeAll, mergeOne_of_agree ha]
      refine ⟨.agree (fun p hp w hw => ?_) hm, hi⟩
      simpa [hw] using List.all_eq_true.mp ha p hp
    · obtain ⟨hm, hi⟩ := ih hrest (s.fresh b).2 (v.insert b (r.withName (s.fresh b).1))
      simp only [mergeAll, mergeOne_of_differ ha]
      refine ⟨.merge ?_ (Register.base_withName _ _) ?_ hm, ?_⟩
      · simpa [Option.all_eq_true] using ha
      · rw [Register.name_withName]
        exact .numbered _ _
      · rw [List.singleton_append, List.flatMap_cons, List.map_append]
        have : (Op.writes ⟨.synthetic, .phi (inc.versions b) (r.withName (s.fresh b).1)⟩).map
            Register.name = [(s.fresh b).1] :=
          congrArg (fun n => [n]) (Register.name_withName _ _)
        rw [this]
        exact .count (hk (b, r) (by simp)) hi

theorem merge_eq (s : Naming) (inc : Incoming) :
    s.merge inc = s.mergeAll inc inc.shared ∅ := by
  cases inc <;> rfl

end Naming

/-! ## What merging makes of the versions -/

namespace Merged

variable {known : String → Prop} {inc : Incoming} {l : List (String × Register)}
  {v v' : Versions} {phis : List Op}

theorem sound (hv : v.Sound known)
    (hl : ∀ b r, (b, r) ∈ l → known b ∧ r.base = b ∧ Versioned b r.name)
    (h : Merged inc l v v' phis) : v'.Sound known := by
  have insert : ∀ {v : Versions} {b w}, v.Sound known → known b → w.base = b →
      Versioned b w.name → Versions.Sound known (v.insert b w) := by
    intro v b w hv hk hb hw c x hx
    rw [Table.get?_insert] at hx
    split at hx
    · subst_vars
      obtain rfl := Option.some.inj hx
      exact ⟨hk, rfl, hw⟩
    · exact hv c x hx
  induction h with
  | nil => exact hv
  | @agree b r rest _ _ _ _ _ ih =>
    obtain ⟨hk, hb, hn⟩ := hl b r (by simp)
    exact ih (insert hv hk hb hn) fun c x hx => hl c x (List.mem_cons_of_mem _ hx)
  | @merge b r w rest _ _ _ _ hb hw _ ih =>
    obtain ⟨hk, hrb, -⟩ := hl b r (by simp)
    exact ih (insert hv hk (hb.trans hrb) hw) fun c x hx => hl c x (List.mem_cons_of_mem _ hx)

/-- The bases with a version afterwards: those before, and those taken. -/
theorem contains (h : Merged inc l v v' phis) (n : String) :
    v'.contains n = true ↔ v.contains n = true ∨ n ∈ l.map (·.1) := by
  induction h with
  | nil => simp
  | agree _ _ ih | merge _ _ _ _ ih =>
    rw [ih, Table.contains_insert, List.map_cons, List.mem_cons, Bool.or_eq_true,
      decide_eq_true_eq]
    tauto

/-- A base not taken keeps its version. -/
theorem get?_of_not_mem (h : Merged inc l v v' phis) {n : String} (hn : n ∉ l.map (·.1)) :
    v'.get? n = v.get? n := by
  induction h with
  | nil => rfl
  | agree _ _ ih | merge _ _ _ _ ih =>
    rw [List.map_cons, List.mem_cons, not_or] at hn
    rw [ih hn.2, Table.get?_insert_ne _ _ hn.1]

/-- **Every merge is that of a base taken**, and writes the version the base goes on with. -/
theorem exists_of_mem (h : Merged inc l v v' phis) (hl : (l.map (·.1)).Nodup) {o : Op}
    (ho : o ∈ phis) : ∃ b w, o = ⟨.synthetic, .phi (inc.versions b) w⟩ ∧ b ∈ l.map (·.1) ∧
      v'.get? b = some w := by
  induction h with
  | nil => cases ho
  | agree _ _ ih =>
    obtain ⟨b, w, ho, hb, hw⟩ := ih (List.nodup_cons.mp hl).2 ho
    exact ⟨b, w, ho, List.mem_cons_of_mem _ hb, hw⟩
  | @merge b r w _ _ _ _ _ _ _ hr ih =>
    obtain ⟨hb, hl⟩ := List.nodup_cons.mp hl
    rcases List.mem_cons.mp ho with rfl | ho
    · refine ⟨b, w, rfl, by simp, ?_⟩
      rw [hr.get?_of_not_mem hb, Table.get?_insert_self]
    · obtain ⟨c, x, ho, hc, hx⟩ := ih hl ho
      exact ⟨c, x, ho, List.mem_cons_of_mem _ hc, hx⟩

theorem isMerge (h : Merged inc l v v' phis) : ∀ o ∈ phis, o.instr.isMerge = true := by
  induction h with
  | nil => simp
  | agree _ _ ih => exact ih
  | merge _ _ _ _ ih => exact List.forall_mem_cons.mpr ⟨rfl, ih⟩

/-- **A base taken goes on under the name all predecessors give it**, or a merge writes its
version. -/
theorem agree_or_merge (h : Merged inc l v v' phis) (hl : (l.map (·.1)).Nodup) {b : String}
    (hb : b ∈ l.map (·.1)) : ∃ w, v'.get? b = some w ∧
      ((∀ p ∈ inc, ∀ u, p.2.get? b = some u → u.name = w.name) ∨
        (⟨.synthetic, .phi (inc.versions b) w⟩ : Op) ∈ phis) := by
  induction h with
  | nil => cases hb
  | @agree c r _ _ _ _ ha hr ih =>
    obtain ⟨hc, hl⟩ := List.nodup_cons.mp hl
    by_cases hbc : b = c
    · subst hbc
      refine ⟨r, ?_, .inl ha⟩
      rw [hr.get?_of_not_mem hc, Table.get?_insert_self]
    · exact ih hl (by simpa [hbc] using hb)
  | @merge c r w _ _ _ _ _ _ _ hr ih =>
    obtain ⟨hc, hl⟩ := List.nodup_cons.mp hl
    by_cases hbc : b = c
    · subst hbc
      refine ⟨w, ?_, .inr (by simp)⟩
      rw [hr.get?_of_not_mem hc, Table.get?_insert_self]
    · obtain ⟨x, hx, h⟩ := ih hl (by simpa [hbc] using hb)
      exact ⟨x, hx, h.imp_right (List.mem_cons_of_mem _)⟩

end Merged

/-! ## Running merges -/

/-- Every version's name holds in `σ'` what its base holds in `σ`. -/
def Versions.Holds {V : Type} (v : Versions) (σ σ' : Store V) : Prop :=
  ∀ b w, v.get? b = some w → σ' w.name = σ b

variable {known : String → Prop} {V : Type}

/-- A write to one base leaves the versions of the others as they are. -/
theorem Versions.Holds.insert {v : Versions} {σ σ' : Store V} (hk : Apart known)
    (hs : v.Sound known) (hv : v.Holds σ σ') {b : String} {w : Register} (hb : known b)
    (hw : Versioned b w.name) (x : V) :
    Versions.Holds (v.insert b w) (Function.update σ b x) (Function.update σ' w.name x) := by
  intro c u hu
  rw [Table.get?_insert] at hu
  split at hu
  · subst_vars
    obtain rfl := Option.some.inj hu
    rw [Function.update_self, Function.update_self]
  · obtain ⟨hc, -, huc⟩ := hs c u hu
    have hname : u.name ≠ w.name := fun he =>
      ‹¬c = b› (Versioned.base_eq hk hc hb huc (he ▸ hw))
    rw [Function.update_of_ne hname, Function.update_of_ne ‹¬c = b›]
    exact hv c u hu

/-- **Merges hand on what the predecessor control comes from held.**  Bases still to be taken are
read from that predecessor (`ending`), bases taken from their new versions. -/
theorem Merged.holds {inc : Incoming} {l : List (String × Register)} {v v' : Versions}
    {phis : List Op} (m : Meaning V) (hk : Apart known) (hd : inc.Distinct) {p : String}
    {ending : Versions} (hp : (p, ending) ∈ inc) (hf : ending.Sound known)
    (hl : (l.map (·.1)).Nodup) (hlp : ∀ b r, (b, r) ∈ l → known b ∧ r.base = b ∧
      Versioned b r.name ∧ ending.contains b = true)
    (h : Merged inc l v v' phis) (hv : v.Sound known) {σ : Store V} {s : Running V}
    (hvs : v.Holds σ s.store)
    (hfs : ∀ b ∈ l.map (·.1), ∀ u, ending.get? b = some u → s.store u.name = σ b) :
    v'.Holds σ (m.steps (some p) s phis).store ∧ (m.steps (some p) s phis).past = s.past := by
  induction h generalizing s with
  | nil => exact ⟨hvs, rfl⟩
  | @agree b r rest v _ _ ha hr ih =>
    obtain ⟨hb, hrb, hrn, hc⟩ := hlp b r (by simp)
    obtain ⟨u, hu⟩ := Table.contains_iff.mp hc
    have hread : s.store r.name = σ b := by
      rw [← ha _ hp u hu]
      exact hfs b (by simp) u hu
    refine ih (List.nodup_cons.mp hl).2 (fun c x hx => hlp c x (List.mem_cons_of_mem _ hx)) ?_ ?_
      fun c hc => hfs c (List.mem_cons_of_mem _ hc)
    · have hone : Merged inc [(b, r)] v (v.insert b r) [] := .agree ha (.nil _)
      refine hone.sound hv fun c x hx => ?_
      obtain ⟨rfl, rfl⟩ := Prod.mk.inj (List.mem_singleton.mp hx)
      exact ⟨hb, hrb, hrn⟩
    · intro c w hw
      rw [Table.get?_insert] at hw
      split at hw
      · subst_vars
        obtain rfl := Option.some.inj hw
        exact hread
      · exact hvs c w hw
  | @merge b r w rest v _ _ hne hwb hwn hr ih =>
    obtain ⟨hb, hrb, hrn, hc⟩ := hlp b r (by simp)
    obtain ⟨hbl, hl⟩ := List.nodup_cons.mp hl
    obtain ⟨u, hu⟩ := Table.contains_iff.mp hc
    have hstep : m.step (some p) s ⟨.synthetic, .phi (inc.versions b) w⟩
        = { s with store := Function.update s.store w.name (σ b) } := by
      rw [Meaning.step_merge, Option.bind_some, hd.get?_versions hp, hu]
      exact congrArg (fun x => { s with store := Function.update s.store w.name x })
        (hfs b (by simp) u hu)
    have hself : Function.update σ b (σ b) = σ := Function.update_eq_self b σ
    rw [Meaning.steps_cons, hstep]
    refine ih hl (fun c x hx => hlp c x (List.mem_cons_of_mem _ hx)) ?_ ?_ ?_
    · have hone : Merged inc [(b, r)] v (v.insert b w) _ := .merge hne hwb hwn (.nil _)
      refine hone.sound hv fun c x hx => ?_
      obtain ⟨rfl, rfl⟩ := Prod.mk.inj (List.mem_singleton.mp hx)
      exact ⟨hb, hrb, hrn⟩
    · have := hvs.insert hk hv hb hwn (σ b)
      rwa [hself] at this
    · intro c hc x hx
      obtain ⟨hck, -, hxn⟩ := hf c x hx
      have hname : x.name ≠ w.name := fun he => by
        rw [Versioned.base_eq hk hck hb hxn (he ▸ hwn)] at hc
        exact hbl hc
      change Function.update s.store w.name (σ b) x.name = σ c
      rw [Function.update_of_ne hname]
      exact hfs c (List.mem_cons_of_mem _ hc) x hx

end Monomorph
