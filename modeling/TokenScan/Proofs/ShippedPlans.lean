/-
Module: TokenScan.Proofs.ShippedPlans
Purpose: Schemas, settings, tokens and whole scans come back from their items. All but a scan come
  back as they were; in a scan the filters come back quieted.
Main exports: ofLimbs_limbs, ScanPlan.quieted, ScanPlan.HoldsNaN and the Faithful instances of the
  types that a scan is made of
-/
import TokenScan.Proofs.ShippedFilters
import TokenScan.Transport.Plan

namespace TokenScan

namespace ScanPlan

/-- The scan with its filters quieted. -/
def quieted (p : ScanPlan) : ScanPlan :=
  { p with pushed := p.pushed.map Filter.quieted, residual := p.residual.map Filter.quieted }

/-- A constant in one of the filters is not a number. -/
def HoldsNaN (p : ScanPlan) : Prop :=
  ∃ filter ∈ p.pushed ++ p.residual, filter.HoldsNaN

theorem quieted_of_not_holdsNaN {p : ScanPlan} (h : ¬ p.HoldsNaN) : p.quieted = p := by
  have hfilters : ∀ filters : List Filter, (∀ filter ∈ filters, filter ∈ p.pushed ++ p.residual) →
      filters.map Filter.quieted = filters := by
    intro filters hsub
    have hkept : ∀ filter ∈ filters, filter.quieted = filter := by
      intro filter hfilter
      apply Filter.quieted_of_not_holdsNaN
      exact fun hnan => h ⟨filter, hsub filter hfilter, hnan⟩
    rw [List.map_congr_left hkept, List.map_id']
  rw [quieted, hfilters p.pushed fun _ => List.mem_append_left _,
    hfilters p.residual fun _ => List.mem_append_right _]

end ScanPlan

namespace Transport

open TokenScan.Cbor
open TokenScan.Cbor.Item

/-! ### Tokens -/

theorem limbs_lt {count n : Nat} : ∀ d ∈ limbs count n, d < 0x100000000 := by
  induction count generalizing n with
  | zero => simp [limbs]
  | succ count ih =>
      rw [limbs, List.forall_mem_cons]
      exact ⟨Nat.mod_lt _ (by decide), ih⟩

/-- The digits of a number make it up again if there are enough of them. -/
theorem ofLimbs_limbs {count n : Nat} (hn : n < 0x100000000 ^ count) :
    ofLimbs (limbs count n) = n := by
  induction count generalizing n with
  | zero =>
      rw [Nat.pow_zero] at hn
      exact (Nat.lt_one_iff.1 hn).symm
  | succ count ih =>
      have hrest : n / 0x100000000 < 0x100000000 ^ count := by
        rw [Nat.div_lt_iff_lt_mul (by decide), ← Nat.pow_succ]
        exact hn
      have hdigits := ih hrest
      simp only [ofLimbs] at hdigits
      rw [limbs, ofLimbs, List.foldr_cons, hdigits]
      exact Nat.mod_add_div n _

theorem lt_pow_limbCount (n : Nat) : n < 0x100000000 ^ limbCount n := by
  unfold limbCount
  split
  · next hzero => rw [hzero]; decide
  · next hzero =>
      calc
        n < 2 ^ (n.log2 + 1) := Nat.lt_log2_self
        _ ≤ 2 ^ (32 * (n.log2 / 32 + 1)) := Nat.pow_le_pow_right (by decide) (by omega)
        _ = 0x100000000 ^ (n.log2 / 32 + 1) := Nat.pow_mul ..

/-- Digits are read as they were sent. -/
theorem mapM_natBelow?_limbs (count n : Nat) :
    ((limbs count n).map unsigned).mapM (natBelow? 0x100000000) = some (limbs count n) := by
  rw [option_mapM_eq_some_iff, List.forall₂_map_left_iff, List.forall₂_same]
  intro d hd
  simp only [natBelow?, untagged]
  exact if_pos (limbs_lt d hd)

theorem settled_token (t : Token) : (tokenItem t).settled = tokenItem t := by
  have hdigits : ∀ digits : List Nat, settledAll (digits.map unsigned) = digits.map unsigned := by
    intro digits
    rw [settledAll_eq_map, List.map_map]
    rfl
  simp only [tokenItem, settled, settledAll, settled_int, hdigits]

theorem fits_sign (t : Token) : Number.TwosComplement.fits 1 t.sign = true := by
  rcases Int.sign_trichotomy t with h | h | h <;> rw [h] <;> decide

/-- A token is made up of its sign and the digits of its magnitude. -/
theorem token?_tokenItem (t : Token) : token? (tokenItem t) = some t := by
  simp only [tokenItem, token?, untagged, int?_int (fits_sign t), mapM_natBelow?_limbs,
    ofLimbs_limbs (lt_pow_limbCount _), Option.bind_eq_bind, Option.bind_some,
    if_pos (Int.sign_trichotomy t), Int.sign_mul_natAbs]
  rfl

instance : Faithful Token where
  received := id
  withinWords t := by
    refine ⟨withinWords_int (by decide) (fits_sign t), ?_, trivial⟩
    rw [WithinWords, withinWordsAll_iff, List.forall_mem_map]
    intro d hd
    exact (limbs_lt d hd).trans (by decide)
  ofItem?_settled t := by
    simp only [toItem, settled_token]
    exact token?_tokenItem t
  write_received _ := rfl

instance : Faithful TokenRange where
  received := id
  withinWords r := by
    apply withinWords_record
    simp
  ofItem?_settled r := by
    apply bind_fields?_settled
    · rfl
    · decide
    · simp only [List.map_cons, List.map_nil, ofItem?_settled, Option.bind_eq_bind,
        Option.bind_some]
      rfl
  write_received _ := rfl

instance : Faithful Split where
  received := id
  withinWords s := by
    apply withinWords_record
    simp
  ofItem?_settled s := by
    apply bind_fields?_settled
    · rfl
    · decide
    · simp only [List.map_cons, List.map_nil, ofItem?_settled, Option.bind_eq_bind,
        Option.bind_some]
      rfl
  write_received _ := rfl

instance : Faithful KeyTarget where
  received := id
  withinWords k := by
    apply withinWords_record
    simp [withinWords, WithinWords]
  ofItem?_settled k := by
    apply bind_fields?_settled
    · rfl
    · decide
    · simp only [List.map_cons, List.map_nil, ofItem?_settled, Option.bind_eq_bind,
        Option.bind_some, settled, bytes?, untagged]
      rfl
  write_received _ := rfl

instance : Faithful Partitioner where
  received := id
  withinWords p := by cases p <;> exact trivial
  ofItem?_settled p := by
    cases p with
    | murmur3 | random =>
        apply plainVariant?_text
        · rfl
        · rfl
  write_received _ := rfl

instance : Faithful OutputPartitioning where
  received := id
  withinWords p := by
    apply withinWords_record
    simp
  ofItem?_settled p := by
    apply bind_fields?_settled
    · rfl
    · decide
    · simp only [List.map_cons, List.map_nil, ofItem?_settled, Option.bind_eq_bind,
        Option.bind_some]
      rfl
  write_received _ := rfl

instance : Faithful Counters where
  received := id
  withinWords c := by
    apply withinWords_record
    simp [counterNames, counterValues, withinWords]
  ofItem?_settled c := by
    apply bind_fields?_settled
    · rfl
    · decide
    · simp only [counterNames, counterValues, List.map_cons, List.map_nil, List.zip_cons_cons,
        List.zip_nil_left, List.mapM_cons, List.mapM_nil, ofItem?_settled, Option.bind_eq_bind,
        Option.bind_some, Option.pure_def]
      rfl
  write_received _ := rfl

instance : Faithful ScanPlan where
  received := ScanPlan.quieted
  withinWords p := by
    apply withinWords_record
    simp
  ofItem?_settled p := by
    apply bind_fields?_settled
    · rfl
    · decide
    · simp only [List.map_cons, List.map_nil, ofItem?_settled, Option.bind_eq_bind,
        Option.bind_some]
      simp only [received, List.map_id_fun, id]
      rfl
  write_received p := by
    apply write_record_congr
    simp only [ScanPlan.quieted, List.forall₂_cons, List.forall₂_nil_left_iff, true_and, and_true]
    exact ⟨write_received p.pushed, write_received p.residual⟩

end Transport

end TokenScan
