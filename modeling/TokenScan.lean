import TokenScan.Plan.Planner
import TokenScan.Transport.Plan
import TokenScan.Transport.Schema
import TokenScan.Transport.Payload
import TokenScan.Settings.Reading
import TokenScan.Version
import TokenScan.Proofs.TokenPlacement
import TokenScan.Proofs.PinnedValues
import TokenScan.Proofs.Traversal
import TokenScan.Proofs.KeyTuples
import TokenScan.Proofs.FilterEquality
import TokenScan.Proofs.PlanTargets
import TokenScan.Proofs.TableColumns
import TokenScan.Proofs.BuiltTables
import TokenScan.Proofs.PlannerHistory
import TokenScan.Proofs.SplitReaders
import TokenScan.Proofs.PlannedKeys
import TokenScan.Proofs.KeyLayout
import TokenScan.Proofs.PinCompleteness
import TokenScan.Proofs.PlanFreshness
import TokenScan.Proofs.CombinationGuard
import TokenScan.Proofs.RingTiling
import TokenScan.Proofs.SplitTargets
import TokenScan.Proofs.ResidualFilters
import TokenScan.Proofs.ItemReading
import TokenScan.Proofs.ItemRoundTrip
import TokenScan.Proofs.ShippedShapes
import TokenScan.Proofs.ShippedFilters
import TokenScan.Proofs.ShippedSchemas
import TokenScan.Proofs.ShippedPlans
import TokenScan.Proofs.TransportRoundTrip
import TokenScan.Proofs.ReaderStability
import TokenScan.Proofs.DamagedPayloads
import TokenScan.Proofs.PlannerLifecycle
import TokenScan.Proofs.RepeatedPushes
import TokenScan.Proofs.FailedRequests
import TokenScan.Proofs.CounterTotals
import TokenScan.Proofs.RearrangedFilters
import TokenScan.Proofs.KeyDecoding
import TokenScan.Proofs.KeyFaults
import TokenScan.Proofs.PlanFailures
import TokenScan.Proofs.SplitOwners
import TokenScan.Proofs.FloatRounding
import TokenScan.Proofs.ShortestDecimals
import TokenScan.Proofs.IntegerLiterals
import TokenScan.Proofs.WholeFloats
import TokenScan.Proofs.FloatPins
import TokenScan.Proofs.WrittenIntegers
import TokenScan.Proofs.IntegerColumns
import TokenScan.Proofs.DateNumbers
import TokenScan.Proofs.NumberFaults
import TokenScan.Proofs.FloatTexts
import TokenScan.Proofs.LiteralTexts
import TokenScan.Proofs.CalendarDays
import TokenScan.Proofs.DateColumns
import TokenScan.Proofs.InstantColumns
import TokenScan.Proofs.SignMagnitude
import TokenScan.Proofs.VarintColumns
import TokenScan.Proofs.TokenRanges
import TokenScan.Proofs.HexTexts
import TokenScan.Proofs.HexColumns
import TokenScan.Hash.Textbook
import TokenScan.Proofs.TailSwitch
import TokenScan.Proofs.HashInjectivity
import TokenScan.Proofs.TextOrder
import TokenScan.Proofs.PinMaps
import TokenScan.Proofs.TupleOrder
import TokenScan.Proofs.NamedColumns
