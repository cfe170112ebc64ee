/-!
# Sets as strictly increasing lists

The library keeps its small sets (reasons of a conflict, variables to repair, rows to inspect) as
lists that increase strictly with respect to the order of their elements. Inserting keeps the order,
so the least element is the head and two equal sets are equal lists.
-/

namespace ArithDecide.SortedSet

variable {α : Type} [LT α] [DecidableRel (α := α) (· < ·)]

/-- Inserts an element at its place; nothing changes when it is there already. -/
def insert (a : α) : List α → List α
  | [] => [a]
  | b :: rest => if a < b then a :: b :: rest else if b < a then b :: insert a rest else b :: rest

/-- The elements of two sets. -/
def union (left right : List α) : List α :=
  right.foldl (fun acc a => insert a acc) left

/-- The set of the elements of a list in any order, with repetitions. -/
def ofList (elements : List α) : List α :=
  union [] elements

end ArithDecide.SortedSet
