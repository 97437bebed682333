/-
Module: TokenScan.Transport.Plan
Purpose: Tokens, ranges, splits, targets, counters and whole scans as data items. A token is its
  sign and the digits of its magnitude to the base 2 ^ 32, least significant first.
Main exports: the Shippable instances of TokenRange, Partitioner, Split, KeyTarget,
  OutputPartitioning, Counters and ScanPlan, tokenItem, token?
-/
import TokenScan.Transport.Filter
import TokenScan.Plan.Scan
import TokenScan.Plan.Event

namespace TokenScan.Transport

open TokenScan.Cbor

/-- The low `count` digits of a number to the base 2 ^ 32, least significant first. -/
def limbs : Nat → Nat → List Nat
  | 0, _ => []
  | count + 1, n => n % 0x100000000 :: limbs count (n / 0x100000000)

/-- The number of digits of a number to the base 2 ^ 32. -/
def limbCount (n : Nat) : Nat :=
  if n = 0 then 0 else n.log2 / 32 + 1

/-- The number of some digits to the base 2 ^ 32, least significant first. -/
def ofLimbs (digits : List Nat) : Nat :=
  digits.foldr (fun d n => d + 0x100000000 * n) 0

/-- The item of a token. -/
def tokenItem (t : Token) : Item :=
  .array [.int t.sign, .array ((limbs (limbCount t.natAbs) t.natAbs).map .unsigned)]

/-- The token of an item. -/
def token? (item : Item) : Option Token :=
  match item.untagged with
  | .array [sign, digits] => do
    let sign ← int? 1 sign
    let .array digits := digits.untagged | none
    let digits ← digits.mapM (natBelow? 0x100000000)
    if sign = 1 ∨ sign = 0 ∨ sign = -1 then return sign * ofLimbs digits else none
  | _ => none

instance : Shippable Token where
  toItem := tokenItem
  ofItem? := token?

instance : Shippable TokenRange where
  toItem r := record [("lower", toItem r.lower), ("upper", toItem r.upper)]
  ofItem? item := do
    let [lower, upper] ← fields? ["lower", "upper"] item | none
    return ⟨← ofItem? lower, ← ofItem? upper⟩

instance : Shippable Partitioner where
  toItem
    | .murmur3 => .text "Murmur3"
    | .random => .text "Random"
  ofItem? := plainVariant? ["Murmur3", "Random"] [.murmur3, .random]

instance : Shippable Split where
  toItem s := record [("index", toItem s.index), ("range", toItem s.range)]
  ofItem? item := do
    let [index, range] ← fields? ["index", "range"] item | none
    return ⟨← ofItem? index, ← ofItem? range⟩

instance : Shippable KeyTarget where
  toItem k := record [("key", .bytes k.key), ("token", toItem k.token)]
  ofItem? item := do
    let [key, token] ← fields? ["key", "token"] item | none
    return ⟨← bytes? key, ← ofItem? token⟩

instance : Shippable OutputPartitioning where
  toItem p := record [("num_partitions", toItem p.count)]
  ofItem? item := do
    let [count] ← fields? ["num_partitions"] item | none
    return ⟨← ofItem? count⟩

/-- The names of the totals on the wire. -/
def counterNames : List String :=
  ["push_calls", "filters_pushed", "filters_unsupported", "plans_targeted", "plans_unrestricted",
   "plans_failed", "partition_keys_resolved", "max_partition_keys", "cardinality_rejections",
   "cardinality_degradations"]

/-- The totals in the order of their names. -/
def counterValues (c : Counters) : List UInt64 :=
  [c.pushCalls, c.filtersPushed, c.filtersUnsupported, c.plansTargeted, c.plansUnrestricted,
   c.plansFailed, c.keysResolved, c.maxKeys, c.cardinalityRejections, c.cardinalityDegradations]

instance : Shippable Counters where
  toItem c := record (counterNames.zip ((counterValues c).map toItem))
  ofItem? item := do
    let totals ← (← fields? counterNames item).mapM (ofItem? (α := UInt64))
    let [a, b, c, d, e, f, g, h, i, j] := totals | none
    return ⟨a, b, c, d, e, f, g, h, i, j⟩

/-- The names of the fields of a scan on the wire. -/
def scanPlanNames : List String :=
  ["keyspace", "table", "columns", "pushed_filters", "residual_filters", "partition_key_filters",
   "partitioner", "input_partitions", "partitioning"]

instance : Shippable ScanPlan where
  toItem p := record
    [("keyspace", toItem p.keyspace), ("table", toItem p.table), ("columns", toItem p.columns),
     ("pushed_filters", toItem p.pushed), ("residual_filters", toItem p.residual),
     ("partition_key_filters", toItem p.targets), ("partitioner", toItem p.partitioner),
     ("input_partitions", toItem p.splits), ("partitioning", toItem p.partitioning)]
  ofItem? item := do
    let [keyspace, table, columns, pushed, residual, targets, partitioner, splits, partitioning] ←
      fields? scanPlanNames item | none
    return ⟨← ofItem? keyspace, ← ofItem? table, ← ofItem? columns, ← ofItem? pushed,
      ← ofItem? residual, ← ofItem? targets, ← ofItem? partitioner, ← ofItem? splits,
      ← ofItem? partitioning⟩

end TokenScan.Transport
