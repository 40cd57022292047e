/-!
# WorkQueue — pending work, each key taken on once

Items leave in the order they came.  A key is remembered for the life of the queue: work pushed
under a key seen before is dropped, also after the first item under it has been taken out.
-/

namespace Monomorph

/-- Items waiting in order, and every key ever taken on, the latest first. -/
structure WorkQueue (α : Type) where
  items : List α := []
  seen : List String := []
  nodup : seen.Nodup := by simp

namespace WorkQueue

variable {α : Type}

instance : EmptyCollection (WorkQueue α) := ⟨{}⟩

/-- Whether a key was ever taken on, waiting or done. -/
def contains (q : WorkQueue α) (key : String) : Bool :=
  decide (key ∈ q.seen)

/-- Take on an item under a key, unless the key was seen before. -/
def push (q : WorkQueue α) (key : String) (item : α) : WorkQueue α :=
  if h : key ∈ q.seen then q
  else ⟨q.items ++ [item], key :: q.seen, List.nodup_cons.2 ⟨h, q.nodup⟩⟩

/-- The first item, and the queue without it. -/
def pop (q : WorkQueue α) : Option (α × WorkQueue α) :=
  match q.items with
  | [] => none
  | a :: r => some (a, { q with items := r })

/-- Number of items waiting. -/
def size (q : WorkQueue α) : Nat :=
  q.items.length

def isEmpty (q : WorkQueue α) : Bool :=
  q.items.isEmpty

/-- Number of keys ever taken on. -/
def seenCount (q : WorkQueue α) : Nat :=
  q.seen.length

end WorkQueue

end Monomorph
