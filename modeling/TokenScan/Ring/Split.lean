/-
Module: TokenScan.Ring.Split
Purpose: Division of a ring into contiguous splits of nearly equal width, and the split that owns a
  token, found from a closed form and corrected against the bounds.
Main exports: Split, Partitioner.splits, Partitioner.splitFor
-/
import TokenScan.Ring.Range

namespace TokenScan

/-- One share of a scan: a contiguous range of tokens. -/
structure Split where
  index : UInt64
  range : TokenRange
deriving DecidableEq, Repr, Inhabited

namespace Partitioner

/-- The first token of split `i` out of `n`: the minimum plus `i / n` of the ring's width, rounded
    down. -/
def splitLower (p : Partitioner) (n i : Nat) : Token :=
  p.minToken + p.ring.width * i / n

/-- The tokens of split `i` out of `n`: up to the last one before the next split. -/
def splitRange (p : Partitioner) (n i : Nat) : TokenRange :=
  .closed (p.splitLower n i) (p.splitLower n (i + 1) - 1)

/-- The ring in `n` splits, in ring order. -/
def splits (p : Partitioner) (n : UInt64) : List Split :=
  (List.range n.toNat).map fun i => ⟨UInt64.ofNat i, p.splitRange n.toNat i⟩

/-- The inverse of `splitLower` up to rounding. -/
def splitGuess (p : Partitioner) (n : Nat) (t : Token) : Nat :=
  ((t - p.minToken) * n / p.ring.width).toNat

/-- Moves up while the next split also starts at or below the token, at most the given number of
    times. -/
def climb (p : Partitioner) (n : Nat) (t : Token) : Nat → Nat → Nat
  | 0, i => i
  | fuel + 1, i => if i + 1 < n ∧ p.splitLower n (i + 1) ≤ t then climb p n t fuel (i + 1) else i

/-- Moves down while the split starts above the token. -/
def descend (p : Partitioner) (n : Nat) (t : Token) : Nat → Nat
  | 0 => 0
  | i + 1 => if t < p.splitLower n (i + 1) then descend p n t i else i + 1

/-- The index of the split that owns a token; tokens off the ring have none. -/
def splitFor (p : Partitioner) (n : UInt64) (t : Token) : Option Nat :=
  if n.toNat = 0 ∨ ¬ p.ring.contains t then none
  else
    let guess := p.splitGuess n.toNat t
    some (descend p n.toNat t (climb p n.toNat t (n.toNat - guess) guess))

end Partitioner

end TokenScan
