/-
Module: TokenScan.Proofs.ShortestDecimals
Purpose: What the search for the text of a float finds. Grids of decimals are tried from the
  coarsest one; since rounding is monotone, a grid has a decimal that is rounded to the float only
  if one of the two neighbours of the float on the grid is. So the decimal that is found is rounded
  to the float, no decimal with a greater exponent is, and none with the same exponent is nearer.
Main exports: Decimal.ReadsAs, Decimal.miss, Decimal.IsShortest, Shortest.onGrid_eq_some,
  Shortest.onGrid_eq_none, Shortest.search_spec, Shortest.decimal_isShortest
-/
import TokenScan.Binary.Shortest
import TokenScan.Proofs.FloatRounding

namespace TokenScan.Binary

open TokenScan.Number

variable {f : Format} {bits : Nat}

theorem Format.nearest_units_of_lt (h : bits < f.infinity) :
    f.nearest (f.units bits) f.scale = bits := by
  have hbound : f.infinity ≤ f.signBit := by
    rw [Format.infinity, Format.signBit, Nat.shiftLeft_eq, Nat.shiftLeft_eq, Nat.shiftLeft_eq,
      one_mul, one_mul, pow_add]
    exact Nat.mul_le_mul_right _ (Nat.sub_le _ _)
  have hmagnitude : f.magnitude bits = bits := Nat.mod_eq_of_lt (h.trans_le hbound)
  rw [Format.nearest_units, hmagnitude]
  rw [Format.isFinite, hmagnitude]
  exact decide_eq_true h

theorem Format.units_pos (hpos : 0 < bits) (hbits : bits < f.infinity) : 0 < f.units bits := by
  rw [Nat.pos_iff_ne_zero]
  intro hzero
  have hnearest := Format.nearest_units_of_lt hbits
  rw [hzero, Format.nearest_zero] at hnearest
  exact hpos.ne hnearest

namespace Decimal

variable {d d' : Decimal}

/-- The decimal is rounded to the float. -/
def ReadsAs (d : Decimal) (f : Format) (bits : Nat) : Prop :=
  f.nearest d.num d.den = bits

/-- How far the decimal is from the float, in the unit that decimals of its exponent share. -/
def miss (d : Decimal) (f : Format) (bits : Nat) : Nat :=
  ((d.num * f.scale : Nat) - (f.units bits * d.den : Nat) : Int).natAbs

/-- Of the decimals that are rounded to the float it has the greatest exponent, and of those with
    this exponent none is nearer. -/
structure IsShortest (d : Decimal) (f : Format) (bits : Nat) : Prop where
  readsAs : d.ReadsAs f bits
  coarsest : ∀ d' : Decimal, d'.ReadsAs f bits → d'.exponent ≤ d.exponent
  nearest : ∀ d' : Decimal, d'.ReadsAs f bits → d'.exponent = d.exponent →
    d.miss f bits ≤ d'.miss f bits

theorem num_eq (d : Decimal) : d.num = d.coefficient * 10 ^ d.exponent.toNat := rfl

theorem den_eq (d : Decimal) : d.den = 10 ^ (-d.exponent).toNat := rfl

theorem den_pos (d : Decimal) : 0 < d.den :=
  Nat.pow_pos (by decide)

/-- What lies between a decimal that is rounded to the float and the float is rounded to it too. -/
theorem ReadsAs.of_le (hbits : bits < f.infinity) (h : d.ReadsAs f bits)
    (hle : d.num * d'.den ≤ d'.num * d.den) (hbelow : d'.num * f.scale ≤ f.units bits * d'.den) :
    d'.ReadsAs f bits := by
  apply Nat.le_antisymm
  · calc f.nearest d'.num d'.den ≤ f.nearest (f.units bits) f.scale :=
          f.nearest_mono d'.den_pos f.scale_pos hbelow
      _ = bits := Format.nearest_units_of_lt hbits
  · calc bits = f.nearest d.num d.den := h.symm
      _ ≤ f.nearest d'.num d'.den := f.nearest_mono d.den_pos d'.den_pos hle

theorem ReadsAs.of_ge (hbits : bits < f.infinity) (h : d.ReadsAs f bits)
    (hle : d'.num * d.den ≤ d.num * d'.den) (habove : f.units bits * d'.den ≤ d'.num * f.scale) :
    d'.ReadsAs f bits := by
  apply Nat.le_antisymm
  · calc f.nearest d'.num d'.den ≤ f.nearest d.num d.den :=
          f.nearest_mono d'.den_pos d.den_pos hle
      _ = bits := h
  · calc bits = f.nearest (f.units bits) f.scale := (Format.nearest_units_of_lt hbits).symm
      _ ≤ f.nearest d'.num d'.den := f.nearest_mono f.scale_pos d'.den_pos habove

end Decimal

namespace Shortest

/-! ### One grid -/

section Grid

variable (f bits) (exponent : Int)

/-- The float in steps of the grid, rounded down. -/
def floorOn : Nat :=
  f.units bits * 10 ^ (-exponent).toNat / (f.scale * 10 ^ exponent.toNat)

/-- What is left of the float above that, in the unit of `Decimal.miss`. -/
def restOn : Nat :=
  f.units bits * 10 ^ (-exponent).toNat % (f.scale * 10 ^ exponent.toNat)

/-- One step of the grid, in the unit of `Decimal.miss`. -/
def stepOn : Nat :=
  f.scale * 10 ^ exponent.toNat

/-- The neighbour of the float on the grid that is not greater. -/
def below : Decimal :=
  ⟨floorOn f bits exponent, exponent⟩

/-- The neighbour of the float on the grid that is greater. -/
def above : Decimal :=
  ⟨floorOn f bits exponent + 1, exponent⟩

theorem restOn_lt : restOn f bits exponent < stepOn f exponent :=
  Nat.mod_lt _ (Nat.mul_pos f.scale_pos (Nat.pow_pos (by decide)))

theorem float_on_grid : f.units bits * 10 ^ (-exponent).toNat =
    floorOn f bits exponent * stepOn f exponent + restOn f bits exponent :=
  (Nat.div_add_mod' _ _).symm

theorem num_mul_scale (c : Nat) :
    (Decimal.mk c exponent).num * f.scale = c * stepOn f exponent := by
  rw [Decimal.num_eq, stepOn]
  ring

variable {f bits exponent}

/-- A decimal of the grid lies a whole number of steps, and the rest, away. -/
theorem miss_eq (c : Nat) : (Decimal.mk c exponent).miss f bits =
    ((c * stepOn f exponent : Nat) -
      (floorOn f bits exponent * stepOn f exponent + restOn f bits exponent : Nat) :
        Int).natAbs := by
  rw [Decimal.miss, num_mul_scale, Decimal.den_eq, float_on_grid]

theorem readsAs_below (hbits : bits < f.infinity) {c : Nat}
    (h : (Decimal.mk c exponent).ReadsAs f bits) (hc : c ≤ floorOn f bits exponent) :
    (below f bits exponent).ReadsAs f bits := by
  apply h.of_le hbits
  · exact Nat.mul_le_mul_right _ (Nat.mul_le_mul_right _ hc)
  · rw [below, num_mul_scale, Decimal.den_eq, float_on_grid]
    exact Nat.le_add_right _ _

theorem readsAs_above (hbits : bits < f.infinity) {c : Nat}
    (h : (Decimal.mk c exponent).ReadsAs f bits) (hc : floorOn f bits exponent < c) :
    (above f bits exponent).ReadsAs f bits := by
  apply h.of_ge hbits
  · exact Nat.mul_le_mul_right _ (Nat.mul_le_mul_right _ hc)
  · rw [above, num_mul_scale, Decimal.den_eq, float_on_grid, Nat.succ_mul]
    exact Nat.add_le_add_left (restOn_lt f bits exponent).le _

theorem miss_below_le {c : Nat} (hc : c ≤ floorOn f bits exponent) :
    (below f bits exponent).miss f bits ≤ (Decimal.mk c exponent).miss f bits := by
  have hsteps := Nat.mul_le_mul_right (stepOn f exponent) hc
  rw [below, miss_eq, miss_eq]
  omega

theorem miss_above_le {c : Nat} (hc : floorOn f bits exponent < c) :
    (above f bits exponent).miss f bits ≤ (Decimal.mk c exponent).miss f bits := by
  have hsteps := Nat.mul_le_mul_right (stepOn f exponent) (Nat.succ_le_of_lt hc)
  have hrest := restOn_lt f bits exponent
  rw [Nat.succ_mul] at hsteps
  rw [above, miss_eq, miss_eq, Nat.succ_mul]
  omega

theorem miss_below_le_above (h : 2 * restOn f bits exponent ≤ stepOn f exponent) :
    (below f bits exponent).miss f bits ≤ (above f bits exponent).miss f bits := by
  rw [below, above, miss_eq, miss_eq, Nat.succ_mul]
  omega

theorem miss_above_le_below (h : stepOn f exponent ≤ 2 * restOn f bits exponent) :
    (above f bits exponent).miss f bits ≤ (below f bits exponent).miss f bits := by
  have hrest := restOn_lt f bits exponent
  rw [below, above, miss_eq, miss_eq, Nat.succ_mul]
  omega

/-- One of the two neighbours of the float is taken, the nearer one if both are rounded to it. -/
theorem onGrid_cases (f : Format) (bits : Nat) (exponent : Int) :
    (onGrid f bits exponent = some (below f bits exponent) ∧
        (below f bits exponent).ReadsAs f bits ∧
        ((above f bits exponent).ReadsAs f bits →
          2 * restOn f bits exponent < stepOn f exponent)) ∨
      (onGrid f bits exponent = some (above f bits exponent) ∧
        (above f bits exponent).ReadsAs f bits ∧
        ((below f bits exponent).ReadsAs f bits →
          stepOn f exponent ≤ 2 * restOn f bits exponent)) ∨
      (onGrid f bits exponent = none ∧ ¬ (below f bits exponent).ReadsAs f bits ∧
        ¬ (above f bits exponent).ReadsAs f bits) := by
  simp only [onGrid, Nat.pow_eq, Decimal.ReadsAs, below, above, floorOn, restOn, stepOn]
  generalize f.units bits * 10 ^ (-exponent).toNat / (f.scale * 10 ^ exponent.toNat) = quotient
  generalize f.units bits * 10 ^ (-exponent).toNat % (f.scale * 10 ^ exponent.toNat) = rest
  by_cases hbelow : f.nearest (Decimal.mk quotient exponent).num
      (Decimal.mk quotient exponent).den = bits
  · by_cases habove : f.nearest (Decimal.mk (quotient + 1) exponent).num
        (Decimal.mk (quotient + 1) exponent).den = bits
    · by_cases hrest : 2 * rest < f.scale * 10 ^ exponent.toNat
      · exact .inl (by simp [hbelow, habove, hrest])
      · exact .inr (.inl (by simp [hbelow, habove, hrest, not_lt.1 hrest]))
    · exact .inl (by simp [hbelow, habove])
  · by_cases habove : f.nearest (Decimal.mk (quotient + 1) exponent).num
        (Decimal.mk (quotient + 1) exponent).den = bits
    · exact .inr (.inl (by simp [hbelow, habove]))
    · exact .inr (.inr (by simp [hbelow, habove]))

theorem onGrid_eq_none (hbits : bits < f.infinity) (h : onGrid f bits exponent = none)
    (d : Decimal) (hd : d.exponent = exponent) : ¬ d.ReadsAs f bits := by
  obtain ⟨c, e⟩ := d
  subst hd
  intro hreads
  obtain ⟨hsome, -⟩ | ⟨hsome, -⟩ | ⟨-, hbelow, habove⟩ := onGrid_cases f bits e
  · exact absurd (hsome.symm.trans h) (Option.some_ne_none _)
  · exact absurd (hsome.symm.trans h) (Option.some_ne_none _)
  · rcases Nat.lt_or_ge (floorOn f bits e) c with hc | hc
    · exact habove (readsAs_above hbits hreads hc)
    · exact hbelow (readsAs_below hbits hreads hc)

theorem onGrid_eq_some (hbits : bits < f.infinity) {d : Decimal}
    (h : onGrid f bits exponent = some d) :
    d.exponent = exponent ∧ d.ReadsAs f bits ∧
      ∀ d' : Decimal, d'.ReadsAs f bits → d'.exponent = exponent →
        d.miss f bits ≤ d'.miss f bits := by
  obtain ⟨hsome, hreads, hnearer⟩ | ⟨hsome, hreads, hnearer⟩ | ⟨hnone, -⟩ :=
    onGrid_cases f bits exponent
  · obtain rfl := Option.some.inj (hsome.symm.trans h)
    refine ⟨rfl, hreads, ?_⟩
    rintro ⟨c, e⟩ hc rfl
    rcases Nat.lt_or_ge (floorOn f bits e) c with hlt | hge
    · have hrest := hnearer (readsAs_above hbits hc hlt)
      exact (miss_below_le_above hrest.le).trans (miss_above_le hlt)
    · exact miss_below_le hge
  · obtain rfl := Option.some.inj (hsome.symm.trans h)
    refine ⟨rfl, hreads, ?_⟩
    rintro ⟨c, e⟩ hc rfl
    rcases Nat.lt_or_ge (floorOn f bits e) c with hlt | hge
    · exact miss_above_le hlt
    · have hrest := hnearer (readsAs_below hbits hc hge)
      exact (miss_above_le_below hrest).trans (miss_below_le hge)
  · exact absurd (hnone.symm.trans h) (Option.some_ne_none d).symm

end Grid

/-! ### The search -/

/-- The search ends at the first grid that holds a decimal, if it has fuel up to some such grid. -/
theorem search_spec (hbits : bits < f.infinity) {d : Decimal} (hd : d.ReadsAs f bits)
    (fuel : Nat) (start : Int) (hstart : d.exponent ≤ start) (hfuel : start < d.exponent + fuel) :
    let found := search f bits fuel start
    onGrid f bits found.exponent = some found ∧
      ∀ e, found.exponent < e → e ≤ start → onGrid f bits e = none := by
  induction fuel generalizing start with
  | zero => omega
  | succ fuel ih =>
      intro found
      cases hgrid : onGrid f bits start with
      | some first =>
          have hfound : found = first := by simp [found, search, hgrid]
          obtain ⟨hexponent, -⟩ := onGrid_eq_some hbits hgrid
          rw [hfound, hexponent]
          exact ⟨hgrid, fun e hlt hle => absurd hlt (not_lt.2 hle)⟩
      | none =>
          have hfound : found = search f bits fuel (start - 1) := by simp [found, search, hgrid]
          have hne : d.exponent ≠ start := fun h => onGrid_eq_none hbits hgrid d h hd
          obtain ⟨hsome, hnone⟩ := ih (start - 1) (by omega) (by push_cast at hfuel; omega)
          rw [← hfound] at hsome hnone
          refine ⟨hsome, ?_⟩
          intro e hlt hle
          rcases Int.lt_or_eq_of_le hle with hbefore | rfl
          · exact hnone e hlt (by omega)
          · exact hgrid

/-! ### The first grid and the last -/

/-- The exponent of the first grid. -/
def start (f : Format) (bits : Nat) : Int :=
  leadingExponent (f.units bits) f.scale + 1

/-- The float is less than the first power of ten that is tried. -/
theorem lt_pow_start (f : Format) (bits : Nat) :
    f.units bits * 10 ^ (-start f bits).toNat < f.scale * 10 ^ (start f bits).toNat := by
  rw [start, leadingExponent]
  split_ifs with hle
  · have hlength : 0 < (Numeral.digits (f.units bits / f.scale)).length := Nat.length_toDigits_pos
    have hquot := (Nat.length_toDigits_le_iff (by decide) hlength).1 le_rfl
    rw [Nat.div_lt_iff_lt_mul f.scale_pos, mul_comm] at hquot
    simpa using hquot
  · obtain ⟨length, hlength⟩ : ∃ length,
        (Numeral.digits ((f.scale - 1) / f.units bits)).length = length + 1 :=
      Nat.exists_eq_add_one.2 Nat.length_toDigits_pos
    have hpow : f.units bits * 10 ^ length < f.scale := by
      rcases Nat.eq_zero_or_pos length with rfl | hpos
      · omega
      · have hquot : ¬ (f.scale - 1) / f.units bits < 10 ^ length := by
          rw [← Nat.length_toDigits_le_iff (by decide) hpos]
          exact not_le.2 (hlength ▸ Nat.lt_succ_self length)
        have hbound := Nat.div_mul_le_self (f.scale - 1) (f.units bits)
        have hprod := Nat.mul_le_mul_right (f.units bits) (not_lt.1 hquot)
        have hscale := f.scale_pos
        rw [mul_comm (10 ^ length)] at hprod
        omega
    have hnegative : (-(-((length + 1 : Nat) : Int) + 1)).toNat = length := by omega
    have hpositive : (-((length + 1 : Nat) : Int) + 1).toNat = 0 := by omega
    rw [hlength, hnegative, hpositive, pow_zero, mul_one]
    exact hpow

/-- The first grid is no finer than the one that holds the least unit. -/
theorem neg_log2_le_start (f : Format) (bits : Nat) : -(f.scale.log2 : Int) ≤ start f bits := by
  rw [start, leadingExponent]
  split_ifs with hle
  · omega
  · have hlength : (Numeral.digits ((f.scale - 1) / f.units bits)).length ≤ f.scale.log2 + 1 := by
      rw [Numeral.digits, Nat.length_toDigits_le_iff (by decide) (Nat.succ_pos _)]
      calc (f.scale - 1) / f.units bits ≤ f.scale - 1 := Nat.div_le_self _ _
        _ < 2 ^ (f.scale.log2 + 1) := (Nat.sub_le _ _).trans_lt Nat.lt_log2_self
        _ ≤ 10 ^ (f.scale.log2 + 1) := Nat.pow_le_pow_left (by decide) _
    omega

/-- Twice the float is another float, so nothing as great as that is rounded to it. -/
theorem lt_double_of_readsAs (hpos : 0 < bits) (hbits : bits < f.infinity) {d : Decimal}
    (hd : d.ReadsAs f bits) : d.num * f.scale < 2 * f.units bits * d.den := by
  by_contra hge
  have hunits := Format.units_pos hpos hbits
  obtain ⟨hexact, -⟩ := Format.exact_units (f := f) bits
  have hlt : f.nearest (f.units bits) f.scale < f.nearest (2 * f.units bits) f.scale := by
    apply Format.nearest_lt_of_exact hexact (hexact.double hunits) (by omega)
    rwa [Format.nearest_units_of_lt hbits]
  have hle := f.nearest_mono f.scale_pos d.den_pos (not_lt.1 hge)
  rw [Format.nearest_units_of_lt hbits] at hlt
  rw [Decimal.ReadsAs] at hd
  omega

/-- The float itself is a decimal of the grid of its least unit. -/
def exactly (f : Format) (bits : Nat) : Decimal :=
  ⟨f.units bits * 5 ^ f.scale.log2, -f.scale.log2⟩

theorem exactly_readsAs (hbits : bits < f.infinity) : (exactly f bits).ReadsAs f bits := by
  have hvalue : (exactly f bits).num * f.scale = f.units bits * (exactly f bits).den := by
    have hpositive : (-(f.scale.log2 : Int)).toNat = 0 := by omega
    have hnegative : (-(-(f.scale.log2 : Int))).toNat = f.scale.log2 := by omega
    rw [Decimal.num_eq, Decimal.den_eq, exactly, hpositive, hnegative, pow_zero, mul_one]
    calc f.units bits * 5 ^ f.scale.log2 * f.scale
        = f.units bits * 5 ^ f.scale.log2 * 2 ^ f.scale.log2 := by rw [f.two_pow_log2_scale]
      _ = f.units bits * 10 ^ f.scale.log2 := by rw [mul_assoc, ← Nat.mul_pow]
  rw [Decimal.ReadsAs, f.nearest_congr (Decimal.den_pos _) f.scale_pos hvalue,
    Format.nearest_units_of_lt hbits]

/-- Decimals above the first grid are too great to be rounded to the float. -/
theorem exponent_le_start (hpos : 0 < bits) (hbits : bits < f.infinity) {d : Decimal}
    (hd : d.ReadsAs f bits) : d.exponent ≤ start f bits := by
  by_contra hlt
  obtain ⟨c, e⟩ := d
  have hdouble := lt_double_of_readsAs hpos hbits hd
  have hc : 0 < c := by
    rw [Nat.pos_iff_ne_zero]
    rintro rfl
    rw [Decimal.ReadsAs, Decimal.num_eq, Nat.zero_mul, Format.nearest_zero] at hd
    exact hpos.ne hd
  have hpow := lt_pow_start f bits
  generalize start f bits = s at hlt hpow
  obtain ⟨k, hk⟩ : ∃ k, e.toNat + (-s).toNat = s.toNat + (-e).toNat + (k + 1) :=
    ⟨(e - s).toNat - 1, by simp only at hlt; omega⟩
  have hfar : f.scale * 10 ^ e.toNat * 10 ^ (-s).toNat <
      f.scale * 10 ^ e.toNat * 10 ^ (-s).toNat := by
    calc f.scale * 10 ^ e.toNat * 10 ^ (-s).toNat
        ≤ c * 10 ^ e.toNat * f.scale * 10 ^ (-s).toNat := by
          apply Nat.mul_le_mul_right
          rw [mul_comm f.scale, mul_assoc]
          exact Nat.le_mul_of_pos_left _ hc
      _ < 2 * f.units bits * 10 ^ (-e).toNat * 10 ^ (-s).toNat :=
          Nat.mul_lt_mul_of_pos_right hdouble (Nat.pow_pos (by decide))
      _ = 2 * (f.units bits * 10 ^ (-s).toNat) * 10 ^ (-e).toNat := by ring
      _ ≤ 10 * (f.scale * 10 ^ s.toNat) * 10 ^ (-e).toNat :=
          Nat.mul_le_mul_right _ (Nat.mul_le_mul (by decide) hpow.le)
      _ ≤ 10 * (f.scale * 10 ^ s.toNat) * 10 ^ (-e).toNat * 10 ^ k :=
          Nat.le_mul_of_pos_right _ (Nat.pow_pos (by decide))
      _ = f.scale * 10 ^ (s.toNat + (-e).toNat + (k + 1)) := by ring
      _ = f.scale * 10 ^ e.toNat * 10 ^ (-s).toNat := by rw [← hk, pow_add, mul_assoc]
  exact Nat.lt_irrefl _ hfar

/-- The text of a float shows the shortest decimal that is rounded to it. -/
theorem decimal_isShortest (hpos : 0 < bits) (hbits : bits < f.infinity) :
    (decimal f bits).IsShortest f bits := by
  have hstart := neg_log2_le_start f bits
  have hfuel : start f bits < -f.scale.log2 + (start f bits + f.scale.log2 + 1).toNat := by omega
  obtain ⟨hgrid, hcoarser⟩ := search_spec hbits (exactly_readsAs hbits)
    (start f bits + f.scale.log2 + 1).toNat (start f bits) hstart hfuel
  have hdecimal : decimal f bits =
      search f bits (start f bits + f.scale.log2 + 1).toNat (start f bits) := rfl
  rw [← hdecimal] at hgrid hcoarser
  obtain ⟨-, hreads, hnearest⟩ := onGrid_eq_some hbits hgrid
  refine ⟨hreads, ?_, hnearest⟩
  intro d hd
  by_contra hlt
  exact onGrid_eq_none hbits
    (hcoarser d.exponent (not_le.1 hlt) (exponent_le_start hpos hbits hd)) d rfl hd

end Shortest

end TokenScan.Binary
