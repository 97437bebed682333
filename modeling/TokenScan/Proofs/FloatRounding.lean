/-
Module: TokenScan.Proofs.FloatRounding
Purpose: What rounding to a float respects. It depends on the quotient alone and is monotone, and
  every finite magnitude is rounded to itself; so all that lies between two quotients that round to
  one float rounds to that float, and quotients that need no rounding are told apart.
Main exports: Format.roundDiv_mono, Format.steps, Format.nearest_eq, Format.nearest_mono,
  Format.nearest_congr, Format.nearest_units, Format.Exact, Format.nearest_lt_of_exact
-/
import Mathlib.Data.Nat.Log
import Mathlib.Tactic.Linarith
import Mathlib.Tactic.Positivity
import Mathlib.Tactic.Ring
import TokenScan.Binary.Format

namespace TokenScan.Binary.Format

/-! ### Rounded quotients -/

theorem div_le_roundDiv (num den : Nat) : num / den ≤ roundDiv num den := by
  simp only [roundDiv]
  split_ifs <;> omega

theorem roundDiv_le_succ (num den : Nat) : roundDiv num den ≤ num / den + 1 := by
  simp only [roundDiv]
  split_ifs <;> omega

/-- A quotient that comes out even is not rounded. -/
@[simp] theorem roundDiv_mul_left {den : Nat} (hden : 0 < den) (q : Nat) :
    roundDiv (q * den) den = q := by
  simp [roundDiv, hden]

/-- The greater quotient is not rounded to less. -/
theorem roundDiv_mono {num den num' den' : Nat} (hden : 0 < den) (hden' : 0 < den')
    (h : num * den' ≤ num' * den) : roundDiv num den ≤ roundDiv num' den' := by
  have hquot : num / den ≤ num' / den' := by
    rw [Nat.le_div_iff_mul_le hden']
    apply Nat.le_of_mul_le_mul_right _ hden
    calc num / den * den' * den = num / den * den * den' := by ring
      _ ≤ num * den' := Nat.mul_le_mul_right _ (Nat.div_mul_le_self _ _)
      _ ≤ num' * den := h
  rcases Nat.lt_or_eq_of_le hquot with hlt | heq
  · calc roundDiv num den ≤ num / den + 1 := roundDiv_le_succ num den
      _ ≤ num' / den' := hlt
      _ ≤ roundDiv num' den' := div_le_roundDiv num' den'
  · -- With one whole part it is the remainders that are compared.
    have hrest : num % den * den' ≤ num' % den' * den := by
      have hnum := Nat.div_add_mod num den
      have hnum' := Nat.div_add_mod num' den'
      rw [heq] at hnum
      have hsplit : (den * (num' / den') + num % den) * den' ≤
          (den' * (num' / den') + num' % den') * den := by
        rw [hnum, hnum']
        exact h
      linarith
    simp only [roundDiv, heq]
    generalize num % den = rest at hrest
    generalize num' % den' = rest' at hrest
    have hlow : den ≤ 2 * rest → den' ≤ 2 * rest' := by
      intro hhalf
      apply Nat.le_of_mul_le_mul_right _ hden
      nlinarith
    have hhigh : den < 2 * rest → den' < 2 * rest' := by
      intro hhalf
      apply Nat.lt_of_mul_lt_mul_right (a := den)
      nlinarith
    split_ifs <;> omega

/-! ### Rounding to a pattern -/

variable (f : Format)

theorem scale_pos : 0 < f.scale := by
  simp [scale, Nat.shiftLeft_eq]

/-- Units halve down from one. -/
theorem two_pow_log2_scale : 2 ^ f.scale.log2 = f.scale := by
  rw [scale, Nat.shiftLeft_eq, one_mul, Nat.log2_two_pow]

/-- The steps of the exponent above the least that a quotient needs. -/
def steps (num den : Nat) : Nat :=
  (num * f.scale / den).log2 - f.fractionBits

theorem nearest_eq (num den : Nat) : f.nearest num den =
    min (f.steps num den * 2 ^ f.fractionBits +
      roundDiv (num * f.scale) (den * 2 ^ f.steps num den)) f.infinity := by
  simp only [nearest, steps, Nat.shiftLeft_eq]

section Quotients

variable {num den num' den' : Nat} (hden : 0 < den) (hden' : 0 < den')

include hden

/-- The rounded significand is at most one bit longer than the fraction, or the power after. -/
theorem significand_le :
    roundDiv (num * f.scale) (den * 2 ^ f.steps num den) ≤ 2 ^ (f.fractionBits + 1) := by
  have hlog : (num * f.scale / den).log2 + 1 ≤ f.fractionBits + 1 + f.steps num den := by
    rw [steps]
    omega
  have hbelow : num * f.scale < 2 ^ (f.fractionBits + 1) * (den * 2 ^ f.steps num den) := by
    have hquot : num * f.scale / den < 2 ^ (f.fractionBits + 1 + f.steps num den) :=
      Nat.lt_log2_self.trans_le (Nat.pow_le_pow_right (by decide) hlog)
    rw [Nat.div_lt_iff_lt_mul hden, pow_add] at hquot
    linarith
  calc roundDiv (num * f.scale) (den * 2 ^ f.steps num den)
      ≤ roundDiv (2 ^ (f.fractionBits + 1) * 1) 1 :=
        roundDiv_mono (by positivity) (by decide) (by linarith)
    _ = 2 ^ (f.fractionBits + 1) := roundDiv_mul_left (by decide) _

/-- Above the least exponent the significand has its leading bit. -/
theorem le_significand (hsteps : 0 < f.steps num den) :
    2 ^ f.fractionBits ≤ roundDiv (num * f.scale) (den * 2 ^ f.steps num den) := by
  have hlog : (num * f.scale / den).log2 = f.fractionBits + f.steps num den := by
    rw [steps] at hsteps ⊢
    omega
  have hne : num * f.scale / den ≠ 0 := by
    intro hzero
    rw [hzero, Nat.log2_zero] at hlog
    omega
  have habove : 2 ^ f.fractionBits * (den * 2 ^ f.steps num den) ≤ num * f.scale := by
    have hquot := Nat.log2_self_le hne
    rw [hlog, Nat.le_div_iff_mul_le hden, pow_add] at hquot
    linarith
  calc 2 ^ f.fractionBits = roundDiv (2 ^ f.fractionBits * 1) 1 :=
        (roundDiv_mul_left (by decide) _).symm
    _ ≤ roundDiv (num * f.scale) (den * 2 ^ f.steps num den) :=
        roundDiv_mono (by decide) (by positivity) (by linarith)

include hden'

/-- A greater quotient needs no fewer steps. -/
theorem steps_mono (h : num * den' ≤ num' * den) : f.steps num den ≤ f.steps num' den' := by
  have hquot : num * f.scale / den ≤ num' * f.scale / den' := by
    rw [Nat.le_div_iff_mul_le hden']
    apply Nat.le_of_mul_le_mul_right _ hden
    calc num * f.scale / den * den' * den = num * f.scale / den * den * den' := by ring
      _ ≤ num * f.scale * den' := Nat.mul_le_mul_right _ (Nat.div_mul_le_self _ _)
      _ = num * den' * f.scale := by ring
      _ ≤ num' * den * f.scale := Nat.mul_le_mul_right _ h
      _ = num' * f.scale * den := by ring
  rw [steps, steps, Nat.log2_eq_log_two, Nat.log2_eq_log_two]
  exact Nat.sub_le_sub_right (Nat.log_mono_right hquot) _

/-- Rounding to a float is monotone. -/
theorem nearest_mono (h : num * den' ≤ num' * den) : f.nearest num den ≤ f.nearest num' den' := by
  rw [nearest_eq, nearest_eq]
  apply min_le_min_right
  rcases Nat.lt_or_eq_of_le (f.steps_mono hden hden' h) with hlt | heq
  · -- The significand may carry into the next exponent, but not past it.
    have hlow : roundDiv (num * f.scale) (den * 2 ^ f.steps num den) ≤ 2 ^ (f.fractionBits + 1) :=
      f.significand_le hden
    have hhigh : 2 ^ f.fractionBits ≤
        roundDiv (num' * f.scale) (den' * 2 ^ f.steps num' den') :=
      f.le_significand hden' (by omega)
    have hstep : (f.steps num den + 1) * 2 ^ f.fractionBits ≤
        f.steps num' den' * 2 ^ f.fractionBits := Nat.mul_le_mul_right _ hlt
    rw [pow_succ] at hlow
    linarith
  · rw [heq]
    apply Nat.add_le_add_left
    apply roundDiv_mono (by positivity) (by positivity)
    calc num * f.scale * (den' * 2 ^ f.steps num' den')
        = num * den' * (f.scale * 2 ^ f.steps num' den') := by ring
      _ ≤ num' * den * (f.scale * 2 ^ f.steps num' den') := Nat.mul_le_mul_right _ h
      _ = num' * f.scale * (den * 2 ^ f.steps num' den') := by ring

/-- Rounding looks at the quotient alone. -/
theorem nearest_congr (h : num * den' = num' * den) : f.nearest num den = f.nearest num' den' :=
  Nat.le_antisymm (f.nearest_mono hden hden' h.le) (f.nearest_mono hden' hden h.ge)

end Quotients

@[simp] theorem nearest_zero (den : Nat) : f.nearest 0 den = 0 := by
  simp [nearest, roundDiv]

/-! ### Numbers that need no rounding -/

/-- So many units are a significand of the format and steps, with nothing to round away. -/
def Exact (units : Nat) : Prop :=
  2 ^ (units.log2 - f.fractionBits) ∣ units

variable {f}

theorem Exact.double {units : Nat} (hpos : 0 < units) (h : f.Exact units) :
    f.Exact (2 * units) := by
  rw [Exact, Nat.log2_two_mul hpos.ne']
  rcases Nat.lt_or_ge units.log2 f.fractionBits with hlt | hge
  · rw [Nat.sub_eq_zero_of_le hlt, pow_zero]
    exact one_dvd _
  · rw [Nat.succ_sub hge, pow_succ']
    exact Nat.mul_dvd_mul_left 2 h

/-- The fields of a number that needs no rounding are its steps and its significand. -/
theorem nearest_of_exact {units : Nat} (h : f.Exact units) :
    f.nearest units f.scale = min ((units.log2 - f.fractionBits) * 2 ^ f.fractionBits +
      units / 2 ^ (units.log2 - f.fractionBits)) f.infinity := by
  have hscale := f.scale_pos
  have hsteps : f.steps units f.scale = units.log2 - f.fractionBits := by
    rw [steps, Nat.mul_div_cancel _ hscale]
  have hproduct : units * f.scale = units / 2 ^ (units.log2 - f.fractionBits) *
      (f.scale * 2 ^ (units.log2 - f.fractionBits)) := by
    calc units * f.scale = units / 2 ^ (units.log2 - f.fractionBits) *
          2 ^ (units.log2 - f.fractionBits) * f.scale := by rw [Nat.div_mul_cancel h]
      _ = _ := by ring
  rw [nearest_eq, hsteps, hproduct, roundDiv_mul_left (by positivity)]

/-- Of two numbers that need no rounding the greater has the greater pattern. -/
theorem nearest_lt_of_exact {units units' : Nat} (h : f.Exact units) (h' : f.Exact units')
    (hlt : units < units') (hfinite : f.nearest units f.scale < f.infinity) :
    f.nearest units f.scale < f.nearest units' f.scale := by
  have hlog : units.log2 ≤ units'.log2 := by
    rw [Nat.log2_eq_log_two, Nat.log2_eq_log_two]
    exact Nat.log_mono_right hlt.le
  rw [nearest_of_exact h] at hfinite ⊢
  rw [nearest_of_exact h']
  refine lt_min ?_ hfinite
  apply lt_of_le_of_lt (min_le_left _ _)
  rcases Nat.lt_or_eq_of_le (Nat.sub_le_sub_right hlog f.fractionBits) with hsteps | hsteps
  · have hlow : units / 2 ^ (units.log2 - f.fractionBits) < 2 ^ (f.fractionBits + 1) := by
      rw [Nat.div_lt_iff_lt_mul (by positivity), ← pow_add]
      exact Nat.lt_log2_self.trans_le (Nat.pow_le_pow_right (by decide) (by omega))
    have hhigh : 2 ^ f.fractionBits ≤ units' / 2 ^ (units'.log2 - f.fractionBits) := by
      rw [Nat.le_div_iff_mul_le (by positivity), ← pow_add]
      have hsum : f.fractionBits + (units'.log2 - f.fractionBits) = units'.log2 := by omega
      rw [hsum]
      exact Nat.log2_self_le (by omega)
    have hstep : (units.log2 - f.fractionBits + 1) * 2 ^ f.fractionBits ≤
        (units'.log2 - f.fractionBits) * 2 ^ f.fractionBits := Nat.mul_le_mul_right _ hsteps
    rw [pow_succ] at hlow
    linarith
  · rw [Exact, ← hsteps] at h'
    rw [← hsteps]
    exact Nat.add_lt_add_left (Nat.div_lt_div_of_lt_of_dvd h' hlt) _

/-! ### Finite magnitudes -/

theorem units_eq (bits : Nat) : f.units bits =
    if f.magnitude bits / 2 ^ f.fractionBits = 0 then f.magnitude bits
    else (2 ^ f.fractionBits + f.magnitude bits % 2 ^ f.fractionBits) *
      2 ^ (f.magnitude bits / 2 ^ f.fractionBits - 1) := by
  have hfraction : bits % 2 ^ f.fractionBits = f.magnitude bits % 2 ^ f.fractionBits := by
    rw [magnitude, signBit, Nat.shiftLeft_eq, one_mul, pow_add]
    exact (Nat.mod_mul_left_mod bits _ _).symm
  simp only [units, Nat.shiftRight_eq_div_pow, Nat.shiftLeft_eq, one_mul, hfraction]
  split_ifs with hzero
  · exact Nat.mod_eq_of_lt ((Nat.div_eq_zero_iff_lt (by positivity)).1 hzero)
  · rfl

theorem units_magnitude (bits : Nat) : f.units (f.magnitude bits) = f.units bits := by
  have hmagnitude : f.magnitude (f.magnitude bits) = f.magnitude bits := Nat.mod_mod _ _
  rw [units_eq, units_eq, hmagnitude]

/-- The fields of a magnitude are the steps and the significand of its units. -/
theorem exact_units (bits : Nat) :
    f.Exact (f.units bits) ∧
      ((f.units bits).log2 - f.fractionBits) * 2 ^ f.fractionBits +
        f.units bits / 2 ^ ((f.units bits).log2 - f.fractionBits) = f.magnitude bits := by
  rw [Exact, units_eq]
  generalize f.magnitude bits = magnitude
  have hfields := Nat.div_add_mod magnitude (2 ^ f.fractionBits)
  split_ifs with hzero
  · have hlt := (Nat.div_eq_zero_iff_lt (by positivity)).1 hzero
    have hsteps : magnitude.log2 - f.fractionBits = 0 := by
      rcases Nat.eq_zero_or_pos magnitude with rfl | hpos
      · simp
      · have := (Nat.log2_lt hpos.ne').2 hlt
        omega
    simp [hsteps]
  · have hfraction := Nat.mod_lt magnitude (show 0 < 2 ^ f.fractionBits by positivity)
    generalize magnitude % 2 ^ f.fractionBits = fraction at hfields hfraction
    have hexponent : 0 < magnitude / 2 ^ f.fractionBits := Nat.pos_of_ne_zero hzero
    generalize magnitude / 2 ^ f.fractionBits = exponent at hfields hexponent
    obtain ⟨steps, rfl⟩ := Nat.exists_eq_add_of_lt hexponent
    have hlog : ((2 ^ f.fractionBits + fraction) * 2 ^ steps).log2 = f.fractionBits + steps := by
      rw [Nat.log2_eq_iff (by positivity), pow_add, pow_succ, pow_add]
      constructor
      · exact Nat.mul_le_mul_right _ (Nat.le_add_right _ _)
      · nlinarith [show 0 < 2 ^ steps by positivity]
    simp only [Nat.zero_add, Nat.add_sub_cancel, hlog, Nat.add_sub_cancel_left]
    refine ⟨Nat.dvd_mul_left _ _, ?_⟩
    rw [Nat.mul_div_cancel _ (by positivity), ← hfields]
    ring

/-- A finite magnitude is rounded to itself. -/
theorem nearest_units {bits : Nat} (h : f.isFinite bits = true) :
    f.nearest (f.units bits) f.scale = f.magnitude bits := by
  obtain ⟨hexact, hfields⟩ := exact_units (f := f) bits
  rw [nearest_of_exact hexact, hfields]
  exact min_eq_left (of_decide_eq_true h).le

end TokenScan.Binary.Format
