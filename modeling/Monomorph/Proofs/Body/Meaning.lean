import Mathlib.Logic.Function.Basic
import Monomorph.Body.Basic
import Monomorph.Proofs.Op.Views

/-!
# Body/Meaning — what happens when a body runs

A store keeps a value under every name.  Running an operation is an **event**: what it does, with
the values it reads.  What an operation gives and which way a branch goes may depend, in any way at
all, on the event and on all events before it — so an interpretation (`Meaning`) is free to keep a
memory, to read inputs, and to treat equal operations at two places differently.  A merge is no
event: it moves a value, chosen by the block control comes from.
-/

namespace Monomorph

/-- What every name holds. -/
abbrev Store (V : Type) := String → V

/-! ## Operations without their versions -/

/-- Slots as they show in an event: which temporary is read does not, only what it holds. -/
def Renaming.blank : Renaming where
  temp _ := ⟨0, ""⟩
  var v := .ofBase v.base

/-- Every register as its first version. -/
def Renaming.first : Renaming where
  temp t := .ofId t.id
  var v := .ofBase v.base

/-- An instruction as it shows in an event. -/
def Instr.plain {α : Type} (i : Instr α) : Instr α :=
  (i.mapSlots .blank).mapTarget .first

/-- A merge of versions. -/
def Instr.isMerge {α : Type} : Instr α → Bool
  | .phi .. => true
  | _ => false

/-- An operation as it happens: its operands and slots by their values. -/
structure Event (V : Type) where
  position : Position
  instr : Instr V
  slots : List V

/-- An interpretation of the operations. -/
structure Meaning (V : Type) where
  literal : Literal → V
  /-- What an event gives, after the events before it. -/
  gives : List (Event V) → Event V → V
  /-- Whether a branch goes on to the first of its labels. -/
  takes : List (Event V) → Event V → Bool

/-- A body on its way: what the names hold, and what has happened. -/
structure Running (V : Type) where
  store : Store V
  past : List (Event V)

namespace Meaning

variable {V : Type} (m : Meaning V)

def value (σ : Store V) : Operand → V
  | .register r => σ r.name
  | .literal l => m.literal l

/-- An operation with the values it reads. -/
def event (σ : Store V) (o : Op) : Event V where
  position := o.position
  instr := (o.instr.map (m.value σ)).plain
  slots := o.instr.slots.map fun r => σ r.name

/-- One operation of a block that control has come to from `origin`. -/
def step (origin : Option String) (s : Running V) (o : Op) : Running V :=
  match o.instr with
  | .phi inputs target => match origin.bind inputs.get? with
    | some r => { s with store := Function.update s.store target.name (s.store r.name) }
    | none => s
  | i =>
    let e := m.event s.store o
    { store := match i.target? with
        | some r => Function.update s.store r.name (m.gives s.past e)
        | none => s.store
      past := s.past ++ [e] }

/-- A row of operations. -/
def steps (origin : Option String) (s : Running V) (ops : List Op) : Running V :=
  ops.foldl (m.step origin) s

/-- The label a terminator goes on to. -/
def target (s : Running V) (o : Op) : Option String :=
  match o.instr with
  | .jump l => some l
  | .branch _ x y | .branchNone _ x y =>
      if m.takes s.past (m.event s.store o) then some x else some y
  | _ => none

/-- The label a block goes on to once its operations have run. -/
def next (s : Running V) (b : Block) : Option String :=
  b.terminator?.bind (m.target s)

end Meaning

namespace Blocks

/-- The operations of a block, none if there is no such block. -/
def opsAt (bs : Blocks) (l : String) : List Op :=
  match bs.get? l with
  | some b => b.ops
  | none => []

end Blocks

namespace Meaning

variable {V : Type} (m : Meaning V)

/-- The blocks of a given way, one after another. -/
def along (bs : Blocks) : Option String → Running V → List String → Running V
  | _, s, [] => s
  | origin, s, l :: rest => along bs (some l) (m.steps origin s (bs.opsAt l)) rest

/-- At most so many blocks, beginning at one and going on as the branches decide: the labels control
has been at, and what has come of it. -/
def execute (bs : Blocks) : Nat → Option String → Running V → String → List String × Running V
  | 0, _, s, _ => ([], s)
  | n + 1, origin, s, l => match bs.get? l with
    | none => ([], s)
    | some b =>
        let s := m.steps origin s b.ops
        match m.next s b with
        | none => ([l], s)
        | some next =>
            let (visited, s) := execute bs n (some l) s next
            (l :: visited, s)

end Meaning

/-! ## Events do not see versions -/

theorem Instr.plain_mapSlots {α : Type} (i : Instr α) {r : Renaming}
    (h : Renaming.blank.comp r = .blank) : (i.mapSlots r).plain = i.plain := by
  rw [plain, plain, mapSlots_mapSlots, h]

theorem Instr.plain_mapTarget {α : Type} (i : Instr α) {r : Renaming}
    (h : Renaming.first.comp r = .first) : (i.mapTarget r).plain = i.plain := by
  rw [plain, plain, ← mapTarget_mapSlots, mapTarget_mapTarget, h]

@[simp] theorem Instr.isMerge_map {α β : Type} (i : Instr α) (f : α → β) :
    (i.map f).isMerge = i.isMerge := by
  cases i <;> rfl

@[simp] theorem Instr.isMerge_mapSlots {α : Type} (i : Instr α) (r : Renaming) :
    (i.mapSlots r).isMerge = i.isMerge := by
  cases i <;> rfl

@[simp] theorem Instr.isMerge_mapTarget {α : Type} (i : Instr α) (r : Renaming) :
    (i.mapTarget r).isMerge = i.isMerge := by
  cases i <;> rfl

@[simp] theorem Register.name_rename_byName (f : Register → String) (r : Register) :
    (r.rename (.byName f)).name = f r := by
  cases r <;> rfl

@[simp] theorem Register.base_rename_byName (f : Register → String) (r : Register) :
    (r.rename (.byName f)).base = r.base := by
  cases r <;> rfl

@[simp] theorem Register.name_withName (n : String) (r : Register) : (r.withName n).name = n := by
  cases r <;> rfl

@[simp] theorem Register.base_withName (n : String) (r : Register) :
    (r.withName n).base = r.base := by
  cases r <;> rfl

@[simp] theorem Register.withName_name (r : Register) : r.withName r.name = r := by
  cases r <;> rfl

theorem Register.rename_byName_const (n : String) (r : Register) :
    r.rename (.byName fun _ => n) = r.withName n := by
  cases r <;> rfl

theorem Op.mem_reads_of_operand {o : Op} {r : Register} (h : .register r ∈ o.instr.operands) :
    r ∈ o.reads :=
  List.mem_append_left _ (List.mem_filterMap.mpr ⟨_, h, rfl⟩)

/-! ## Steps -/

namespace Meaning

variable {V : Type} (m : Meaning V)

/-- **An event is what the reads see.** -/
theorem event_congr {σ σ' : Store V} {o : Op} (h : ∀ r ∈ o.reads, σ r.name = σ' r.name) :
    m.event σ o = m.event σ' o := by
  have hmap : o.instr.map (m.value σ) = o.instr.map (m.value σ') := by
    refine Instr.map_congr fun a ha => ?_
    cases a with
    | register r => exact h r (Op.mem_reads_of_operand ha)
    | literal l => rfl
  have hslots : (o.instr.slots.map fun r => σ r.name) = o.instr.slots.map fun r => σ' r.name :=
    List.map_congr_left fun r hr => h r (List.mem_append_right _ hr)
  rw [event, event, hmap, hslots]

theorem step_merge {origin : Option String} {s : Running V} {p : Position}
    {inputs : Table Register} {target : Register} :
    m.step origin s ⟨p, .phi inputs target⟩ = match origin.bind inputs.get? with
      | some r => { s with store := Function.update s.store target.name (s.store r.name) }
      | none => s := rfl

/-- An operation that is no merge: one event, and one name written at most. -/
theorem step_event {o : Op} (h : o.instr.isMerge = false) (origin : Option String)
    (s : Running V) :
    m.step origin s o = ⟨match o.instr.target? with
        | some r => Function.update s.store r.name (m.gives s.past (m.event s.store o))
        | none => s.store, s.past ++ [m.event s.store o]⟩ := by
  rw [step]
  split
  · rename_i hi
    rw [hi] at h
    cases h
  · rfl

@[simp] theorem steps_nil (origin : Option String) (s : Running V) : m.steps origin s [] = s := rfl

@[simp] theorem steps_cons (origin : Option String) (s : Running V) (o : Op) (ops : List Op) :
    m.steps origin s (o :: ops) = m.steps origin (m.step origin s o) ops := rfl

theorem steps_append (origin : Option String) (s : Running V) (l r : List Op) :
    m.steps origin s (l ++ r) = m.steps origin (m.steps origin s l) r :=
  List.foldl_append

/-- The block a way ends at runs last. -/
theorem along_concat (bs : Blocks) (origin : Option String) (s : Running V) (way : List String)
    (l : String) :
    m.along bs origin s (way ++ [l])
      = m.steps (way.getLast?.or origin) (m.along bs origin s way) (bs.opsAt l) := by
  induction way generalizing origin s with
  | nil => rfl
  | cons u way ih =>
    have hlast : way.getLast?.or (some u) = (u :: way).getLast?.or origin := by
      rw [List.getLast?_cons]
      cases way.getLast? <;> rfl
    rw [List.cons_append, along, ih, along, hlast]

end Meaning

theorem Blocks.opsAt_of_get? {bs : Blocks} {l : String} {b : Block} (h : bs.get? l = some b) :
    bs.opsAt l = b.ops := by
  rw [opsAt, h]

end Monomorph
