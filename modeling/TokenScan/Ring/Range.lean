/-
Module: TokenScan.Ring.Range
Purpose: Tokens, the ring of each partitioner, and closed ranges of tokens. A token is an integer of
  any size, so one type serves both rings.
Main exports: Token, TokenRange, TokenRange.closed, Partitioner, Partitioner.ofName?,
  Partitioner.ring
-/
import TokenScan.Number.Numeral

namespace TokenScan

/-- A position on a ring. -/
abbrev Token := Int

/-- All tokens from `lower` to `upper`, both included. A range that was shipped may hold its bounds
    in either order. -/
structure TokenRange where
  lower : Token
  upper : Token
deriving DecidableEq, Repr, Inhabited

namespace TokenRange

/-- The range between two tokens, in whichever order they come. -/
def closed (a b : Token) : TokenRange :=
  if a ≤ b then ⟨a, b⟩ else ⟨b, a⟩

/-- The token lies in the range; a reversed range holds none. -/
def contains (r : TokenRange) (t : Token) : Bool :=
  r.lower ≤ t && t ≤ r.upper

/-- The ranges share a token, when neither is reversed. -/
def overlaps (r s : TokenRange) : Bool :=
  r.lower ≤ s.upper && s.lower ≤ r.upper

/-- The number of tokens in the range. -/
def width (r : TokenRange) : Int :=
  r.upper - r.lower + 1

/-- The two bounds in brackets. -/
def text (r : TokenRange) : String :=
  "[" ++ Number.Numeral.text r.lower ++ ", " ++ Number.Numeral.text r.upper ++ "]"

end TokenRange

/-- How a cluster hashes partition keys onto its ring. -/
inductive Partitioner where
  | murmur3
  | random
deriving DecidableEq, Repr, Inhabited

namespace Partitioner

/-- The class name by which clusters report the partitioner. -/
def className : Partitioner → String
  | .murmur3 => "org.apache.cassandra.dht.Murmur3Partitioner"
  | .random => "org.apache.cassandra.dht.RandomPartitioner"

/-- The text of a name after its last point. -/
def shortName (name : List Char) : List Char :=
  (name.reverse.takeWhile (· ≠ '.')).reverse

/-- The partitioner of a class name, a bare class name, or a short name. -/
def ofName? (name : String) : Option Partitioner :=
  let short := String.ofList (shortName name.toList)
  if short ∈ ["Murmur3Partitioner", "Murmur3", "murmur3"] then some .murmur3
  else if short ∈ ["RandomPartitioner", "Random", "random"] then some .random
  else none

/-- What is said of a name that no partitioner has. -/
def unknownMessage (name : String) : String :=
  "unsupported partitioner: '" ++ name ++ "'"

/-- The first token of the ring. -/
def minToken : Partitioner → Token
  | .murmur3 => -0x8000000000000000
  | .random => 0

/-- The last token of the ring. -/
def maxToken : Partitioner → Token
  | .murmur3 => 0x7fffffffffffffff
  | .random => 0x80000000000000000000000000000000

/-- The whole ring as one range. -/
def ring (p : Partitioner) : TokenRange :=
  .closed p.minToken p.maxToken

end Partitioner

end TokenScan
