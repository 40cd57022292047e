import Monomorph.Proofs.Assembly.Slots
import Monomorph.Proofs.Session.Asking

/-!
# Session/Targets — the targets of a round of dispatch

A target is found where a call runs a method on the instances of a type, and only there
(`Hierarchy.mem_targets`).  The calls are resolved in the order in which they were written down, and a
filled slot stays as it is: **whatever a slot holds is what the first call through it runs**
(`Hierarchy.Exact`), also after the round.
-/

namespace Monomorph

namespace Hierarchy

/-- On the instances of a type a call runs the method under the key. -/
def Runs (h : Hierarchy) (p : Program) (c : VirtualCall) (i : TypeInstance) (key : String) : Prop :=
  ∃ d f e, p.type i.decl = .ok d ∧ h.isSubtype (.nominal d i.binds) c.receiver = .ok true ∧
    h.method? (.nominal d i.binds) c.name = .ok (some f) ∧ p.type f.containing = .ok e ∧
    key = Key.member e c.name (f.outer.overlay c.binds) c.closures

/-- Of the calls through a slot the first that runs anything on the instances of a type runs the
method under the key. -/
def RunsFirst (h : Hierarchy) (p : Program) (cs : List VirtualCall) (slot : String)
    (i : TypeInstance) (key : String) : Prop :=
  ∃ before c after, cs = before ++ c :: after ∧ c.slot = slot ∧ h.Runs p c i key ∧
    ∀ d ∈ before, d.slot = slot → ∀ k, ¬ h.Runs p d i k

variable {h : Hierarchy} {p : Program} {c : VirtualCall} {i : TypeInstance} {t : Target}
  {cs : List VirtualCall} {is : List TypeInstance} {ts : List Target}

theorem RunsFirst.append {slot key : String} (hf : h.RunsFirst p cs slot i key)
    (more : List VirtualCall) : h.RunsFirst p (cs ++ more) slot i key := by
  obtain ⟨before, c, after, rfl, hslot, hruns, hfirst⟩ := hf
  exact ⟨before, c, after ++ more, by simp, hslot, hruns, hfirst⟩

theorem RunsFirst.exists_runs {slot key : String} (hf : h.RunsFirst p cs slot i key) :
    ∃ c ∈ cs, c.slot = slot ∧ h.Runs p c i key := by
  obtain ⟨before, c, after, rfl, hslot, hruns, -⟩ := hf
  exact ⟨c, by simp, hslot, hruns⟩

/-! ## One call and one type -/

theorem target?_eq_some (ht : h.target? p c i = .ok (some t)) :
    h.Runs p c i t.key ∧ t.filling = ⟨c.slot, i.key⟩ := by
  obtain ⟨d, hd, ht⟩ := bind_eq_ok.mp ht
  obtain ⟨sub, hsub, ht⟩ := bind_eq_ok.mp ht
  cases sub with
  | false => cases ht
  | true =>
    obtain ⟨f, hf, ht⟩ := bind_eq_ok.mp ht
    cases f with
    | none => cases ht
    | some f =>
      obtain ⟨e, he, ht⟩ := bind_eq_ok.mp ht
      obtain rfl := Option.some.inj (Except.ok.inj ht)
      exact ⟨⟨d, f, e, hd, hsub, hf, he, rfl⟩, rfl⟩

/-- **Where an instance runs a method, the target is found.** -/
theorem exists_target {o : Option Target} {d : TypeDecl} {f : Found}
    (ht : h.target? p c i = .ok o) (hd : p.type i.decl = .ok d)
    (hsub : h.isSubtype (.nominal d i.binds) c.receiver = .ok true)
    (hf : h.method? (.nominal d i.binds) c.name = .ok (some f)) :
    ∃ e t, p.type f.containing = .ok e ∧ o = some t ∧
      t.key = Key.member e c.name (f.outer.overlay c.binds) c.closures := by
  obtain ⟨d', hd', ht⟩ := bind_eq_ok.mp ht
  obtain rfl := Except.ok.inj (hd'.symm.trans hd)
  obtain ⟨sub, hsub', ht⟩ := bind_eq_ok.mp ht
  obtain rfl := Except.ok.inj (hsub'.symm.trans hsub)
  obtain ⟨f', hf', ht⟩ := bind_eq_ok.mp ht
  obtain rfl := Except.ok.inj (hf'.symm.trans hf)
  obtain ⟨e, he, ht⟩ := bind_eq_ok.mp ht
  exact ⟨e, _, he, (Except.ok.inj ht).symm, rfl⟩

theorem Runs.exists_target {o : Option Target} {key : String} (hr : h.Runs p c i key)
    (ht : h.target? p c i = .ok o) : ∃ t, o = some t ∧ t.key = key := by
  obtain ⟨d, f, e, hd, hsub, hf, he, rfl⟩ := hr
  obtain ⟨e', t, he', ho, hkey⟩ := Hierarchy.exists_target ht hd hsub hf
  obtain rfl := Except.ok.inj (he.symm.trans he')
  exact ⟨t, ho, hkey⟩

/-! ## All calls and all types -/

theorem targetsOf_cons_eq_ok (hts : h.targetsOf p c (i :: is) = .ok ts) :
    ∃ o rest, h.target? p c i = .ok o ∧ h.targetsOf p c is = .ok rest ∧ ts = o.toList ++ rest := by
  obtain ⟨o, ho, hts⟩ := bind_eq_ok.mp hts
  obtain ⟨rest, hrest, hts⟩ := bind_eq_ok.mp hts
  exact ⟨o, rest, ho, hrest, (Except.ok.inj hts).symm⟩

theorem targets_cons_eq_ok (hts : h.targets p is (c :: cs) = .ok ts) :
    ∃ here rest, h.targetsOf p c is = .ok here ∧ h.targets p is cs = .ok rest ∧
      ts = here ++ rest := by
  obtain ⟨here, hhere, hts⟩ := bind_eq_ok.mp hts
  obtain ⟨rest, hrest, hts⟩ := bind_eq_ok.mp hts
  exact ⟨here, rest, hhere, hrest, (Except.ok.inj hts).symm⟩

theorem exists_target?_of_targetsOf (hts : h.targetsOf p c is = .ok ts) :
    ∀ i ∈ is, ∃ o, h.target? p c i = .ok o := by
  induction is generalizing ts with
  | nil => exact List.forall_mem_nil _
  | cons i is ih =>
    obtain ⟨o, rest, ho, hrest, -⟩ := targetsOf_cons_eq_ok hts
    exact List.forall_mem_cons.mpr ⟨⟨o, ho⟩, ih hrest⟩

/-- The targets of a call are those of its types. -/
theorem mem_targetsOf (hts : h.targetsOf p c is = .ok ts) :
    t ∈ ts ↔ ∃ i ∈ is, h.target? p c i = .ok (some t) := by
  induction is generalizing ts with
  | nil =>
    obtain rfl := Except.ok.inj hts
    simp
  | cons i is ih =>
    obtain ⟨o, rest, ho, hrest, rfl⟩ := targetsOf_cons_eq_ok hts
    rw [List.mem_append, Option.mem_toList, ih hrest, List.exists_mem_cons_iff, ho,
      Except.ok.injEq]

theorem exists_target?_of_targets (hts : h.targets p is cs = .ok ts) :
    ∀ c ∈ cs, ∀ i ∈ is, ∃ o, h.target? p c i = .ok o := by
  induction cs generalizing ts with
  | nil => exact List.forall_mem_nil _
  | cons c cs ih =>
    obtain ⟨here, rest, hhere, hrest, -⟩ := targets_cons_eq_ok hts
    exact List.forall_mem_cons.mpr ⟨exists_target?_of_targetsOf hhere, ih hrest⟩

/-- The targets of a round are those of its calls. -/
theorem mem_targets (hts : h.targets p is cs = .ok ts) :
    t ∈ ts ↔ ∃ c ∈ cs, ∃ i ∈ is, h.target? p c i = .ok (some t) := by
  induction cs generalizing ts with
  | nil =>
    obtain rfl := Except.ok.inj hts
    simp
  | cons c cs ih =>
    obtain ⟨here, rest, hhere, hrest, rfl⟩ := targets_cons_eq_ok hts
    rw [List.mem_append, mem_targetsOf hhere, ih hrest, List.exists_mem_cons_iff]

/-! ## What the slots hold -/

/-- Whatever a slot holds is what the first call through it runs on the instances of the type. -/
def Exact (h : Hierarchy) (p : Program) (cs : List VirtualCall) (is : List TypeInstance)
    (m : Assembly) : Prop :=
  ∀ type slot key, m.InSlot type slot key → ∃ i ∈ is, i.key = type ∧ h.RunsFirst p cs slot i key

variable {m : Assembly}

theorem Exact.mono {m' : Assembly} (hm : h.Exact p cs is m) (cs' : List VirtualCall)
    (is' : List TypeInstance) (hsub : ∀ type slot key, m'.InSlot type slot key →
      m.InSlot type slot key) : h.Exact p (cs ++ cs') (is ++ is') m' := by
  intro type slot key hfill
  obtain ⟨i, hi, hkey, hfirst⟩ := hm type slot key (hsub type slot key hfill)
  exact ⟨i, List.mem_append_left _ hi, hkey, hfirst.append cs'⟩

/-- Where the calls before have left no slot free, the targets of a call fill only slots that none
of those goes through. -/
theorem Exact.fillAll {done rest : List VirtualCall} (hm : h.Exact p (done ++ c :: rest) is m)
    (hdone : ∀ d ∈ done, ∀ i ∈ is, ∀ k, h.Runs p d i k → m.Filled i.key d.slot)
    (hts : ∀ t ∈ ts, ∃ i ∈ is, h.Runs p c i t.key ∧ t.filling = ⟨c.slot, i.key⟩) :
    h.Exact p (done ++ c :: rest) is (m.fillAll ts) := by
  induction ts generalizing m with
  | nil => exact hm
  | cons t ts ih =>
    rw [List.forall_mem_cons] at hts
    obtain ⟨⟨i, hi, hruns, hfilling⟩, hts⟩ := hts
    refine ih (fun type slot key hfill => ?_)
      (fun d hd i hi k hk => (hdone d hd i hi k hk).fill t.filling t.key) hts
    rcases hfill.of_fill with hold | ⟨rfl, rfl, rfl, hfree⟩
    · exact hm type slot key hold
    · rw [hfilling] at hfree ⊢
      exact ⟨i, hi, rfl, done, c, rest, rfl, rfl, hruns, fun d hd hslot k hk =>
        hfree (hslot ▸ hdone d hd i hi k hk)⟩

/-- **A round of dispatch keeps the slots exact.** -/
theorem Exact.fillAll_targets {done : List VirtualCall} (hm : h.Exact p (done ++ cs) is m)
    (hdone : ∀ d ∈ done, ∀ i ∈ is, ∀ k, h.Runs p d i k → m.Filled i.key d.slot)
    (hts : h.targets p is cs = .ok ts) : h.Exact p (done ++ cs) is (m.fillAll ts) := by
  induction cs generalizing done m ts with
  | nil =>
    obtain rfl := Except.ok.inj hts
    exact hm
  | cons c cs ih =>
    obtain ⟨here, rest, hhere, hrest, rfl⟩ := targets_cons_eq_ok hts
    have hhere' : h.Exact p (done ++ c :: cs) is (m.fillAll here) :=
      hm.fillAll hdone fun t ht => by
        obtain ⟨i, hi, hti⟩ := (mem_targetsOf hhere).mp ht
        exact ⟨i, hi, target?_eq_some hti⟩
    rw [Assembly.fillAll_append]
    rw [List.append_cons] at hhere' ⊢
    refine ih hhere' (fun d hd i hi k hk => ?_) hrest
    rcases List.mem_append.mp hd with hd | hd
    · exact (hdone d hd i hi k hk).fillAll here
    · obtain rfl := List.mem_singleton.mp hd
      obtain ⟨o, ho⟩ := exists_target?_of_targetsOf hhere i hi
      obtain ⟨t, rfl, -⟩ := hk.exists_target ho
      have hfilled := m.filled_fillAll ((mem_targetsOf hhere).mpr ⟨i, hi, ho⟩)
      rwa [(target?_eq_some ho).2] at hfilled

end Hierarchy

end Monomorph
