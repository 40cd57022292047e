import Monomorph.Assembly.Vtables

/-!
# Assembly/Subtypes — the supertypes of every nominal type

A row of the subtype table lists a type and everything it provides at any distance, in order.  A
question is answered by halving a row, so the answer holds for rows in order and for no others.
-/

namespace Monomorph.Assembly

/-- A listing in order and the members of another. -/
def addAll (l extra : List String) : List String :=
  extra.foldl (fun l s => Listing.insertNewBy id s l) l

/-- A type and the supertypes of its providers, which must be in the table; `missing` says what is
wrong where one is not. -/
def supertypes (table : Table (List String)) (missing : String → Fault) (key : String)
    (provides : List String) : Except Fault (List String) :=
  provides.foldlM
    (fun l p => match table.get? p with
      | some row => .ok (addAll l row)
      | none => .error (missing p)) [key]

/-- Rows of types in turn, by their providers. -/
def addRows (missing : String → String → Fault) :
    List (String × List String) → Table (List String) → Except Fault (Table (List String))
  | [], table => .ok table
  | (key, provides) :: rest, table => do
      let row ← supertypes table (missing key) key provides
      addRows missing rest (table.insert key row)

/-- Record the supertypes of every concept and entity. -/
def recordSubtypes (m : Assembly) : Except Fault Assembly := do
  let order ← m.conceptOrder
  let concepts := order.map fun k => (k, ((m.concepts.get? k).map (·.provides)).getD [])
  let table ← addRows (fun _ _ => .supertypesUnknown) concepts ∅
  let entities := m.entities.entries.map fun e => (e.1, e.2.provides)
  let table ← addRows (fun k p => .entityProvidesUnknown k p) entities table
  return { m with subtypes := table }

/-- The place where halving the `size` places from `base` ends up for a text. -/
def halve (row : List String) (s : String) (base size : Nat) : Nat :=
  if 1 < size then
    let half := size / 2
    let middle := base + half
    let above := match row[middle]? with
      | some k => decide (s < k)
      | none => true
    halve row s (if above then base else middle) (size - half)
  else base
termination_by size

/-- Whether halving a row finds a text. -/
def findsInRow (row : List String) (s : String) : Bool :=
  row[halve row s 0 row.length]? = some s

/-- Whether a type is another one or has it among its supertypes.  A key without a row is a subtype
of itself only. -/
def isSubtype (m : Assembly) (sub sup : String) : Bool :=
  sub = sup || ((m.subtypes.get? sub).any fun row => findsInRow row sup)

/-- The entities below a type. -/
def entitiesOf (m : Assembly) (sup : String) : List String :=
  m.entities.keys.filter fun k => m.isSubtype k sup

end Monomorph.Assembly
