/-
Module: TokenScan.Text.Sorted
Purpose: Sets as strictly increasing lists. Sorting and dropping repeats gives each finite set one
  list, so two sets are equal exactly when their lists are. Texts are ordered by code point, which
  is the order of their UTF-8 bytes.
Main exports: dropRepeats, sortDistinct, TextSet, TextSet.ofList, TextSet.inter
-/

namespace TokenScan

/-- Keeps the first of each run of equal neighbours. -/
def dropRepeats {α : Type} [DecidableEq α] : List α → List α
  | [] => []
  | [x] => [x]
  | x :: y :: rest => if x = y then dropRepeats (y :: rest) else x :: dropRepeats (y :: rest)

/-- The members of a list in the given order, each once. -/
def sortDistinct {α : Type} [DecidableEq α] (le : α → α → Bool) (xs : List α) : List α :=
  dropRepeats (xs.mergeSort le)

/-- Dropping repeats keeps every member. -/
@[simp] theorem mem_dropRepeats {α : Type} [DecidableEq α] {a : α} {xs : List α} :
    a ∈ dropRepeats xs ↔ a ∈ xs := by
  induction xs using dropRepeats.induct with
  | case1 => simp [dropRepeats]
  | case2 x => simp [dropRepeats]
  | case3 y rest ih => simp [dropRepeats, ih]
  | case4 x y rest h ih => simp [dropRepeats, h, ih]

/-- Sorting and dropping repeats keeps every member. -/
@[simp] theorem mem_sortDistinct {α : Type} [DecidableEq α] {le : α → α → Bool} {a : α}
    {xs : List α} : a ∈ sortDistinct le xs ↔ a ∈ xs := by
  simp [sortDistinct, List.mem_mergeSort]

/-- A finite set of texts, held in increasing order without repeats. -/
abbrev TextSet := List String

namespace TextSet

/-- The set of the texts in a list. -/
def ofList (xs : List String) : TextSet :=
  sortDistinct (fun a b => decide (a ≤ b)) xs

/-- The texts in both sets. -/
def inter (s t : TextSet) : TextSet :=
  s.filter fun x => t.contains x

/-- The set of a list has the members of the list. -/
@[simp] theorem mem_ofList {x : String} {xs : List String} : x ∈ ofList xs ↔ x ∈ xs :=
  mem_sortDistinct

/-- The intersection has the members of both sets. -/
@[simp] theorem mem_inter {x : String} {s t : TextSet} : x ∈ inter s t ↔ x ∈ s ∧ x ∈ t := by
  simp [inter]

end TextSet

end TokenScan
