/-
Module: TokenScan.Ring.KeyTarget
Purpose: The token of a serialized partition key, and the target that a row scanner selects by: a
  key with its token.
Main exports: Partitioner.tokenWith, Partitioner.tokenOf, KeyTarget, KeyTarget.matchesKey,
  KeyTarget.skips, KeyTarget.ringOrder
-/
import TokenScan.Ring.Range
import TokenScan.Hash.Murmur
import TokenScan.Hash.Md5
import TokenScan.Text.Sorted

namespace TokenScan

open TokenScan.Number

/-- The token of a key under Murmur3: the first half of its hash. The empty key has the least token,
    so a hash that comes out as that one is moved to the greatest. -/
def murmurToken (key : Bytes) : Token :=
  if key = [] then Partitioner.murmur3.minToken
  else
    let h := (Hash.Murmur.hash key 0).1.toInt
    if h = Partitioner.murmur3.minToken then Partitioner.murmur3.maxToken else h

/-- The token of a key under Random for a digest of sixteen bytes: its magnitude as a signed number.
    The empty key is just below the ring. -/
def randomToken (digest : Bytes → Bytes) (key : Bytes) : Token :=
  if key = [] then -1 else (TwosComplement.value (digest key)).natAbs

/-- The token that a partitioner gives to a serialized partition key, for a digest of sixteen bytes.
    -/
def Partitioner.tokenWith (digest : Bytes → Bytes) : Partitioner → Bytes → Token
  | .murmur3, key => murmurToken key
  | .random, key => randomToken digest key

/-- The token that a cluster gives to a serialized partition key. -/
def Partitioner.tokenOf : Partitioner → Bytes → Token :=
  tokenWith Hash.Md5.digest

/-- One partition to read: its serialized key and the token of that key. -/
structure KeyTarget where
  key : Bytes
  token : Token
deriving DecidableEq, Repr, Inhabited

namespace KeyTarget

/-- The range may hold the partition. -/
def overlaps (k : KeyTarget) (r : TokenRange) : Bool :=
  r.contains k.token

/-- The partition of this key is the one to read. -/
def matchesKey (k : KeyTarget) (key : Bytes) : Bool :=
  k.key = key

/-- The partition of this key and token is not the one to read; the token is looked at first. -/
def skips (k : KeyTarget) (key : Bytes) (token : Token) : Bool :=
  k.token ≠ token || !k.matchesKey key

/-- Ring order: by token, then by the bytes of the key. -/
def atMost (a b : KeyTarget) : Bool :=
  if a.token ≠ b.token then a.token < b.token else a.key ≤ b.key

/-- The targets in ring order, each once. -/
def ringOrder (targets : List KeyTarget) : List KeyTarget :=
  sortDistinct atMost targets

end KeyTarget

end TokenScan
