/-
Module: TokenScan.Proofs.WholeFloats
Purpose: The integers among the floats, and the integers that their texts show. Many integers are
  rounded to one large float; the text of a float that is an integer shows, of these, one that ends
  in as many zeros as any of them does.
Main exports: Format.nearest_lt_of_whole, Format.ShortestWhole, decimal_of_whole, Binary64.Denotes,
  Binary64.Roundest, Binary64.ShortestOf, Binary64.roundest_of_natAbs_le, Binary64.text_of_denotes
-/
import TokenScan.Proofs.IntegerLiterals
import TokenScan.Proofs.ShortestDecimals

namespace TokenScan.Binary

open TokenScan.Number

/-! ### Whole numbers of a format -/

namespace Format

variable {f : Format}

theorem nearest_whole (f : Format) (m : Nat) : f.nearest m 1 = f.nearest (m * f.scale) f.scale :=
  f.nearest_congr Nat.one_pos f.scale_pos (by ring)

theorem nearest_whole_mono (f : Format) {m m' : Nat} (h : m ≤ m') :
    f.nearest m 1 ≤ f.nearest m' 1 :=
  f.nearest_mono Nat.one_pos Nat.one_pos (by simpa using h)

/-- A short significand times a power of two needs no rounding. -/
theorem exact_whole {significand : Nat} (h : significand < 2 ^ (f.fractionBits + 1))
    (exponent : Nat) : f.Exact (significand * 2 ^ exponent * f.scale) := by
  rcases Nat.eq_zero_or_pos significand with rfl | hpos
  · simp [Exact]
  have hbelow : significand * 2 ^ exponent * f.scale <
      2 ^ (f.fractionBits + 1 + (exponent + f.scale.log2)) := by
    rw [pow_add _ (f.fractionBits + 1), pow_add _ exponent, two_pow_log2_scale, ← mul_assoc]
    exact Nat.mul_lt_mul_of_pos_right (Nat.mul_lt_mul_of_pos_right h (by positivity)) f.scale_pos
  have hunits := Nat.mul_pos (Nat.mul_pos hpos (show 0 < 2 ^ exponent by positivity)) f.scale_pos
  have hlog := (Nat.log2_lt hunits.ne').2 hbelow
  calc 2 ^ ((significand * 2 ^ exponent * f.scale).log2 - f.fractionBits)
      ∣ 2 ^ (exponent + f.scale.log2) := Nat.pow_dvd_pow 2 (by omega)
    _ ∣ significand * 2 ^ exponent * f.scale := by
        rw [pow_add, two_pow_log2_scale, mul_assoc]
        exact Nat.dvd_mul_left _ _

theorem exact_two_pow (f : Format) (exponent : Nat) : f.Exact (2 ^ exponent * f.scale) := by
  have hone : 1 < 2 ^ (f.fractionBits + 1) := Nat.one_lt_two_pow (Nat.succ_ne_zero _)
  have hexact := exact_whole hone exponent
  rwa [one_mul] at hexact

theorem nearest_lt_of_whole {m m' : Nat} (hm : f.Exact (m * f.scale)) (hm' : f.Exact (m' * f.scale))
    (hlt : m < m') (hfinite : f.nearest m 1 < f.infinity) : f.nearest m 1 < f.nearest m' 1 := by
  rw [nearest_whole] at hfinite ⊢
  rw [nearest_whole f m']
  exact nearest_lt_of_exact hm hm' (Nat.mul_lt_mul_of_pos_right hlt f.scale_pos) hfinite

/-- Of the numbers that are rounded to the same float as `m`, `n` ends in the most zeros, and of
    those with as many zeros it is nearest to `m`. -/
structure ShortestWhole (f : Format) (m n : Nat) : Prop where
  sameFloat : f.nearest n 1 = f.nearest m 1
  roundest : ∀ u k, f.nearest u 1 = f.nearest m 1 → 10 ^ k ∣ u → 10 ^ k ∣ n
  nearest : ∀ u, f.nearest u 1 = f.nearest m 1 → (∀ k, 10 ^ k ∣ n → 10 ^ k ∣ u) →
    ((n : Int) - m).natAbs ≤ ((u : Int) - m).natAbs

end Format

/-! ### The decimal of a whole number -/

section WholeDecimal

variable {f : Format} {bits m : Nat} (hpos : 0 < m) (hbits : bits < f.infinity)
  (hunits : f.units bits = m * f.scale)

include hunits

theorem miss_of_den_eq_one {d : Decimal} (hden : d.den = 1) :
    d.miss f bits = ((d.num : Int) - m).natAbs * f.scale := by
  have hproduct : ((d.num * f.scale : Nat) : Int) - (m * f.scale * 1 : Nat) =
      ((d.num : Int) - m) * f.scale := by
    push_cast
    ring
  rw [Decimal.miss, hunits, hden, hproduct, Int.natAbs_mul, Int.natAbs_natCast]

include hbits

theorem nearest_of_units : f.nearest m 1 = bits := by
  rw [Format.nearest_whole, ← hunits, Format.nearest_units_of_lt hbits]

theorem readsAs_iff_of_dvd {u k : Nat} (hdvd : 10 ^ k ∣ u) :
    (Decimal.mk (u / 10 ^ k) k).ReadsAs f bits ↔ f.nearest u 1 = f.nearest m 1 := by
  rw [nearest_of_units hbits hunits, Decimal.ReadsAs, Decimal.num_eq, Decimal.den_eq]
  simp [Nat.div_mul_cancel hdvd]

include hpos

/-- The decimal of a whole number is whole, and the shortest that is rounded to the float. -/
theorem decimal_of_whole :
    let d := Shortest.decimal f bits
    0 ≤ d.exponent ∧ 0 < d.num ∧ f.ShortestWhole m d.num := by
  intro d
  have hbitsPos : 0 < bits := by
    rw [Nat.pos_iff_ne_zero]
    rintro rfl
    have hproduct := Nat.mul_pos hpos f.scale_pos
    simp [← hunits, Format.units, Format.magnitude] at hproduct
  obtain ⟨hreads, hcoarsest, hnearest⟩ := Shortest.decimal_isShortest hbitsPos hbits
  have hunit : 10 ^ 0 ∣ m := by simp
  have hinteger := (readsAs_iff_of_dvd hbits hunits hunit).2 rfl
  have hexponent : 0 ≤ d.exponent := hcoarsest _ hinteger
  obtain ⟨places, hplaces⟩ := Int.eq_ofNat_of_zero_le hexponent
  have hnum : d.num = d.coefficient * 10 ^ places := by
    rw [Decimal.num_eq, hplaces, Int.toNat_natCast]
  have hden : ∀ d' : Decimal, d'.exponent = places → d'.den = 1 := by
    intro d' h
    simp [Decimal.den_eq, h]
  have hsame : f.nearest d.num 1 = f.nearest m 1 := by
    rw [nearest_of_units hbits hunits, ← hden d hplaces]
    exact hreads
  refine ⟨hexponent, ?_, hsame, ?_, ?_⟩
  · rw [Nat.pos_iff_ne_zero]
    intro hzero
    rw [hzero, nearest_of_units hbits hunits, Format.nearest_zero] at hsame
    exact hbitsPos.ne hsame
  · intro u k hu hdvd
    have hle := hcoarsest _ ((readsAs_iff_of_dvd hbits hunits hdvd).2 hu)
    have hk : k ≤ places := by
      rw [← Int.ofNat_le, ← hplaces]
      exact hle
    rw [hnum]
    exact (Nat.pow_dvd_pow 10 hk).trans (Nat.dvd_mul_left _ _)
  · intro u hu hzeros
    have hdvd : 10 ^ places ∣ u := hzeros places (hnum ▸ Nat.dvd_mul_left _ _)
    have hmiss := hnearest _ ((readsAs_iff_of_dvd hbits hunits hdvd).2 hu) hplaces.symm
    rw [miss_of_den_eq_one hunits (hden d hplaces), miss_of_den_eq_one hunits (hden _ rfl)] at hmiss
    have hvalue : (Decimal.mk (u / 10 ^ places) places).num = u := by
      rw [Decimal.num_eq, Int.toNat_natCast, Nat.div_mul_cancel hdvd]
    rw [hvalue] at hmiss
    exact Nat.le_of_mul_le_mul_right hmiss f.scale_pos

end WholeDecimal

/-! ### Integers and their floats -/

namespace Binary64

/-- The float is finite, and it is the integer. -/
def Denotes (bits : UInt64) (z : Int) : Prop :=
  binary64.isFinite bits.toNat = true ∧
    (if binary64.isNegative bits.toNat then -(binary64.units bits.toNat : Int)
      else binary64.units bits.toNat) = z * binary64.scale

instance (bits : UInt64) (z : Int) : Decidable (Denotes bits z) :=
  inferInstanceAs (Decidable (_ ∧ _))

/-- No integer that is rounded to the same float ends in more zeros. -/
def Roundest (z : Int) : Prop :=
  ∀ (u : Int) (k : Nat), ofInt u = ofInt z → 10 ^ k ∣ u → 10 ^ k ∣ z

/-- Of the integers that are rounded to the same float as `z`, `w` ends in the most zeros, and of
    those with as many zeros it is nearest to `z`. -/
structure ShortestOf (z w : Int) : Prop where
  sameFloat : ofInt w = ofInt z
  roundest : Roundest w
  nearest : ∀ u, ofInt u = ofInt z → (∀ k : Nat, 10 ^ k ∣ w → 10 ^ k ∣ u) → |w - z| ≤ |u - z|

theorem ofInt_eq_iff {u z : Int} :
    ofInt u = ofInt z ↔
      (u < 0 ↔ z < 0) ∧ binary64.nearest u.natAbs 1 = binary64.nearest z.natAbs 1 := by
  have hsign : binary64.signBit = 2 ^ 63 := by decide
  have hbound : ∀ m, binary64.nearest m 1 < 2 ^ 63 := fun m =>
    lt_of_le_of_lt (min_le_right _ _) (by decide)
  have hu := hbound u.natAbs
  have hz := hbound z.natAbs
  constructor
  · intro h
    have hbits := congrArg UInt64.toNat h
    simp only [ofInt, Format.withSign, hsign, decide_eq_true_eq, UInt64.toNat_ofNat'] at hbits
    split_ifs at hbits <;> omega
  · rintro ⟨hiff, hnearest⟩
    simp only [ofInt, hiff, hnearest]

theorem ShortestOf.eq_iff {z w : Int} (h : ShortestOf z w) : w = z ↔ Roundest z := by
  constructor
  · rintro rfl
    exact h.roundest
  · intro hz
    have hdist := h.nearest z rfl fun k => hz w k h.sameFloat
    rw [sub_self, abs_zero] at hdist
    exact sub_eq_zero.1 (abs_nonpos_iff.1 hdist)

/-- The numbers up to two to the fifty-third are floats of their own, and so is the second after it;
    the one in between is rounded. -/
theorem eq_of_nearest_eq {m u : Nat} (hm : m ≤ 2 ^ 53)
    (h : binary64.nearest u 1 = binary64.nearest m 1) : u = m ∨ u = 2 ^ 53 + 1 := by
  have hshort : ∀ a ≤ 2 ^ 53, binary64.Exact (a * binary64.scale) := by
    intro a ha
    rcases Nat.lt_or_eq_of_le ha with hlt | rfl
    · have hexact := Format.exact_whole (f := binary64) hlt 0
      rwa [pow_zero, mul_one] at hexact
    · exact binary64.exact_two_pow 53
  have hfinite : binary64.nearest m 1 < binary64.infinity :=
    lt_of_le_of_lt (binary64.nearest_whole_mono hm) (by decide +kernel)
  rcases Nat.lt_trichotomy u m with hlt | heq | hgt
  · rw [← h] at hfinite
    have hless := Format.nearest_lt_of_whole (hshort u (hlt.le.trans hm)) (hshort m hm) hlt hfinite
    exact absurd h hless.ne
  · exact .inl heq
  · right
    by_contra hne
    obtain ⟨next, hexact, hmnext, hnextu⟩ :
        ∃ next, binary64.Exact (next * binary64.scale) ∧ m < next ∧ next ≤ u := by
      rcases Nat.lt_or_eq_of_le hm with hlt | rfl
      · exact ⟨m + 1, hshort (m + 1) hlt, Nat.lt_succ_self m, hgt⟩
      · exact ⟨(2 ^ 52 + 1) * 2 ^ 1, Format.exact_whole (by decide) 1, by decide, by omega⟩
    have hless := Format.nearest_lt_of_whole (hshort m hm) hexact hmnext hfinite
    exact absurd h (hless.trans_le (binary64.nearest_whole_mono hnextu)).ne'

/-- An integer up to two to the fifty-third shares its float with none that ends in more zeros. -/
theorem roundest_of_natAbs_le {z : Int} (h : z.natAbs ≤ 2 ^ 53) : Roundest z := by
  intro u k hsame hdvd
  obtain ⟨hsign, hnearest⟩ := ofInt_eq_iff.1 hsame
  rcases eq_of_nearest_eq h hnearest with heq | hodd
  · have huz : u = z := by omega
    exact huz ▸ hdvd
  · cases k with
    | zero => simp
    | succ k =>
        have hten : (10 : Int) ∣ u := (Dvd.intro_left _ (pow_succ (10 : Int) k).symm).trans hdvd
        omega

theorem ShortestOf.of_natAbs {z : Int} {n : Nat} {negative : Bool} (hsign : z < 0 ↔ negative = true)
    (hpos : 0 < n) (h : binary64.ShortestWhole z.natAbs n) :
    ShortestOf z (if negative then -(n : Int) else n) := by
  have hdvd : ∀ (k : Nat) (u : Int), (10 : Int) ^ k ∣ u ↔ 10 ^ k ∣ u.natAbs := by
    intro k u
    rw [← Int.natCast_dvd]
    norm_num
  generalize hw : (if negative then -(n : Int) else n) = w
  have habs : w.natAbs = n := by
    split_ifs at hw <;> omega
  have hwsign : w < 0 ↔ z < 0 := by
    cases negative with
    | false =>
        have hpositive : ¬ z < 0 := fun hz => Bool.false_ne_true (hsign.1 hz)
        simp only [Bool.false_eq_true, if_false] at hw
        omega
    | true =>
        have hnegative : z < 0 := hsign.2 rfl
        simp only [if_true] at hw
        omega
  have hofInt : ofInt w = ofInt z := ofInt_eq_iff.2 ⟨hwsign, habs ▸ h.sameFloat⟩
  refine ⟨hofInt, ?_, ?_⟩
  · intro u k hu hzeros
    rw [hdvd] at hzeros ⊢
    rw [habs]
    exact h.roundest _ k (ofInt_eq_iff.1 (hu.trans hofInt)).2 hzeros
  · intro u hu hzeros
    obtain ⟨husign, hunear⟩ := ofInt_eq_iff.1 hu
    have hle := h.nearest u.natAbs hunear fun k hk =>
      (hdvd k u).1 (hzeros k ((hdvd k w).2 (habs ▸ hk)))
    rw [Int.abs_eq_natAbs, Int.abs_eq_natAbs]
    omega

theorem shortestOf_zero : ShortestOf 0 0 where
  sameFloat := rfl
  roundest _ _ _ _ := dvd_zero _
  nearest u _ _ := by simp

/-- A decimal without places after the point is laid out as a numeral. -/
theorem nat?_layout {d : Decimal} (h : 0 ≤ d.exponent) :
    Numeral.nat? (Shortest.layout d) = some d.num := by
  rw [Shortest.layout, if_pos h]
  exact Numeral.nat?_append_zeros (Numeral.nat?_digits d.coefficient) d.exponent.toNat

theorem toList_text {bits : UInt64} (h : binary64.isFinite bits.toNat = true) :
    (text bits).toList = Numeral.signed (binary64.isNegative bits.toNat)
      (if binary64.magnitude bits.toNat = 0 then ['0']
        else Shortest.layout (Shortest.decimal binary64 (binary64.magnitude bits.toNat))) := by
  have hfinite : binary64.magnitude bits.toNat < binary64.infinity := of_decide_eq_true h
  have hnumber : binary64.isNaN bits.toNat = false := decide_eq_false (not_lt.2 hfinite.le)
  have hbounded : binary64.isInfinite bits.toNat = false := decide_eq_false hfinite.ne
  simp only [text, hnumber, hbounded, Bool.false_eq_true, if_false]
  by_cases hzero : binary64.magnitude bits.toNat = 0
  · cases binary64.isNegative bits.toNat <;> simp [Numeral.signed, hzero]
  · cases binary64.isNegative bits.toNat <;> simp [Numeral.signed, hzero]

section Denoted

variable {bits : UInt64} {z : Int} (h : Denotes bits z)

include h

theorem units_of_denotes : binary64.units bits.toNat = z.natAbs * binary64.scale := by
  have habs := congrArg Int.natAbs h.2
  rw [Int.natAbs_mul, Int.natAbs_natCast] at habs
  rw [← habs]
  split_ifs <;> simp

theorem neg_iff_of_denotes (hzero : binary64.magnitude bits.toNat ≠ 0) :
    z < 0 ↔ binary64.isNegative bits.toNat = true := by
  have hunits : (0 : Int) < binary64.units bits.toNat := by
    have hpos := Format.units_pos (Nat.pos_of_ne_zero hzero) (of_decide_eq_true h.1)
    rw [Format.units_magnitude] at hpos
    exact_mod_cast hpos
  have hscale : (0 : Int) < binary64.scale := by exact_mod_cast binary64.scale_pos
  have hproduct : z < 0 ↔ z * binary64.scale < 0 := by
    rw [← mul_lt_mul_iff_left₀ hscale, zero_mul]
  rw [hproduct, ← h.2]
  split_ifs with hneg
  · exact iff_of_true (neg_neg_of_pos hunits) hneg
  · exact iff_of_false hunits.le.not_gt hneg

/-- The integer that is shown has no more binary digits. -/
theorem natAbs_lt_of_shortestOf {w : Int} (hw : ShortestOf z w) {k : Nat}
    (hlt : z.natAbs < 2 ^ k) : w.natAbs < 2 ^ k := by
  obtain ⟨-, hsame⟩ := ofInt_eq_iff.1 hw.sameFloat
  have hz : binary64.Exact (z.natAbs * binary64.scale) :=
    units_of_denotes h ▸ (Format.exact_units bits.toNat).1
  have hfinite : binary64.nearest z.natAbs 1 < binary64.infinity := by
    rw [Format.nearest_whole, ← units_of_denotes h, Format.nearest_units h.1]
    exact of_decide_eq_true h.1
  by_contra hge
  have hless := Format.nearest_lt_of_whole hz (binary64.exact_two_pow k) hlt hfinite
  exact absurd hsame (hless.trans_le (binary64.nearest_whole_mono (not_lt.1 hge))).ne'

/-- The text of a float that is an integer is a numeral for the shortest of the integers that are
    rounded to it. -/
theorem text_of_denotes :
    ∃ cs n, (text bits).toList = Numeral.signed (binary64.isNegative bits.toNat) cs ∧
      Numeral.nat? cs = some n ∧
      ShortestOf z (if binary64.isNegative bits.toNat then -(n : Int) else n) := by
  have hbound : binary64.magnitude bits.toNat < binary64.infinity := of_decide_eq_true h.1
  have hunits : binary64.units (binary64.magnitude bits.toNat) = z.natAbs * binary64.scale := by
    rw [Format.units_magnitude, units_of_denotes h]
  rw [toList_text h.1]
  by_cases hzero : binary64.magnitude bits.toNat = 0
  · have hz : z = 0 := by
      have hproduct : z.natAbs * binary64.scale = 0 := by
        rw [← hunits, hzero]
        rfl
      exact Int.natAbs_eq_zero.1 ((Nat.mul_eq_zero.1 hproduct).resolve_right binary64.scale_pos.ne')
    refine ⟨['0'], 0, by rw [if_pos hzero], rfl, ?_⟩
    simpa [hz] using shortestOf_zero
  · have hunitsPos := Format.units_pos (Nat.pos_of_ne_zero hzero) hbound
    have hpos : 0 < z.natAbs := Nat.pos_of_mul_pos_right (hunits ▸ hunitsPos)
    obtain ⟨hexponent, hnumPos, hshortest⟩ := decimal_of_whole hpos hbound hunits
    refine ⟨_, _, by rw [if_neg hzero], nat?_layout hexponent, ?_⟩
    exact ShortestOf.of_natAbs (neg_iff_of_denotes h hzero) hnumPos hshortest

end Denoted

end Binary64

end TokenScan.Binary
