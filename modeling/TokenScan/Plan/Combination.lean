/-
Module: TokenScan.Plan.Combination
Purpose: The complete key tuples over pinned texts, and their number, which is counted before any
  tuple is built and stops growing at the largest 128-bit number.
Main exports: maxCount, combinationCount, tuples, combinations
-/
import TokenScan.Plan.Pins

namespace TokenScan

/-- The greatest count of combinations that is told apart. -/
def maxCount : Nat := 0xffffffffffffffffffffffffffffffff

/-- The number of combinations over some columns, cut off at `maxCount`; none if a column is not
    pinned. -/
def combinationCount (pins : Pins) (columns : List String) : Option Nat :=
  columns.foldlM (fun count column =>
    (pins.texts? column).map fun texts => min (count * texts.length) maxCount) 1

/-- One member of each list, in every way; the first place varies slowest. -/
def tuples : List TextSet → List (List String)
  | [] => [[]]
  | texts :: rest =>
    let tails := tuples rest
    texts.flatMap fun text => tails.map (text :: ·)

/-- The complete tuples over some columns. There are none without columns, or when a column is not
    pinned, since part of a key has no token. -/
def combinations (pins : Pins) (columns : List String) : List (List String) :=
  match columns.mapM pins.texts? with
  | some (first :: rest) =>
    if (first :: rest).any List.isEmpty then [] else tuples (first :: rest)
  | _ => []

end TokenScan
