/-!
# Listing — lists kept in the order of a text key

`sortBy` orders a list by a text key and leaves equal keys in the order they came; `distinctBy`
also drops every element whose key was seen before.  Text is compared by code point, which is the
order of its UTF-8 bytes.
-/

namespace Monomorph.Listing

variable {α : Type}

/-- Insert in front of the first element whose key is not smaller — equal keys stay in order when
a list is inserted from its end. -/
def insertBy (key : α → String) (a : α) : List α → List α
  | [] => [a]
  | b :: r => if key b < key a then b :: insertBy key a r else a :: b :: r

/-- The elements in the order of their keys, equal keys in the order given. -/
def sortBy (key : α → String) (l : List α) : List α :=
  l.foldr (insertBy key) []

/-- Insert by key, unless the key is already there. -/
def insertNewBy (key : α → String) (a : α) : List α → List α
  | [] => [a]
  | b :: r =>
      if key a < key b then a :: b :: r
      else if key a = key b then b :: r
      else b :: insertNewBy key a r

/-- One element per key, in the order of the keys — of equal keys the first given is kept. -/
def distinctBy (key : α → String) (l : List α) : List α :=
  l.foldl (fun kept a => insertNewBy key a kept) []

/-- The texts in order, each once. -/
def distinct (l : List String) : List String :=
  distinctBy id l

end Monomorph.Listing
