/-
Module: TokenScan.Proofs.FloatTexts
Purpose: The text of a float is read back as that float. The shortest decimal of a float is laid out
  with a point or without one; either way the reader finds a decimal of the same value, which is
  rounded to the float. So a float literal pins a column of doubles to its own bits, except that
  every not-a-number is written alike and comes back as the quiet one.
Main exports: Positional, Positional.decimal?_eq, layout_positional, Positional.read?_signed,
  Binary64.read?_text, float_pin_of_double
-/
import Mathlib.Data.List.TakeWhile
import TokenScan.Filter.Literal
import TokenScan.Proofs.WholeFloats

namespace TokenScan.Binary

open TokenScan.Number

/-! ### Positional notation -/

/-- Digits, or digits with a point before the last ones, and the decimal that they write. -/
inductive Positional : List Char → Decimal → Prop where
  | whole {cs : List Char} {n : Nat} (digits : Numeral.Digits cs n) : Positional cs ⟨n, 0⟩
  | pointed {whole fraction : List Char} {n : Nat} (nonempty : whole ≠ [])
      (digits : Numeral.Digits (whole ++ fraction) n) :
      Positional (whole ++ '.' :: fraction) ⟨n, -fraction.length⟩

namespace Positional

variable {f : Format} {cs : List Char} {d : Decimal}

theorem digit_or_point (h : Positional cs d) {c : Char} (hc : c ∈ cs) :
    c.isDigit = true ∨ c = '.' := by
  cases h with
  | whole hdigits => exact .inl (hdigits.digits c hc)
  | pointed hne hdigits =>
      rcases List.mem_append.1 hc with hwhole | hrest
      · exact .inl (hdigits.digits c (List.mem_append_left _ hwhole))
      · rcases List.mem_cons.1 hrest with rfl | hfraction
        · exact .inr rfl
        · exact .inl (hdigits.digits c (List.mem_append_right _ hfraction))

theorem exists_head (h : Positional cs d) : ∃ c rest, cs = c :: rest ∧ c.isDigit = true := by
  cases h with
  | whole hdigits =>
      obtain ⟨c, rest, rfl⟩ := List.exists_cons_of_ne_nil hdigits.nonempty
      exact ⟨c, rest, rfl, hdigits.digits c List.mem_cons_self⟩
  | pointed hne hdigits =>
      obtain ⟨c, rest, rfl⟩ := List.exists_cons_of_ne_nil hne
      exact ⟨c, _, rfl, hdigits.digits c List.mem_cons_self⟩

theorem ne_cons (h : Positional cs d) {c : Char} (hc : c.isDigit = false) (rest : List Char) :
    cs ≠ c :: rest := by
  obtain ⟨head, tail, rfl, hhead⟩ := h.exists_head
  intro heq
  rw [(List.cons.inj heq).1, hc] at hhead
  exact Bool.noConfusion hhead

/-- The reader takes the digits together and counts those after the point. -/
theorem decimal?_eq (h : Positional cs d) : Literal.decimal? cs = some d := by
  cases h with
  | whole hdigits =>
      have htake : cs.takeWhile Char.isDigit = cs := List.takeWhile_eq_self_iff.2 hdigits.digits
      have hdrop : cs.dropWhile Char.isDigit = [] := List.dropWhile_eq_nil_iff.2 hdigits.digits
      simp only [Literal.decimal?, htake, hdrop, List.append_nil]
      rw [if_neg hdigits.nonempty, hdigits.number]
      rfl
  | @pointed whole fraction n hne hdigits =>
      have hwhole : ∀ c ∈ whole, c.isDigit = true := fun c hc =>
        hdigits.digits c (List.mem_append_left _ hc)
      have hfraction : ∀ c ∈ fraction, c.isDigit = true := fun c hc =>
        hdigits.digits c (List.mem_append_right _ hc)
      have hpoint : ¬ Char.isDigit '.' = true := by decide
      have htake : (whole ++ '.' :: fraction).takeWhile Char.isDigit = whole := by
        rw [List.takeWhile_append_of_pos hwhole, List.takeWhile_cons_of_neg hpoint, List.append_nil]
      have hdrop : (whole ++ '.' :: fraction).dropWhile Char.isDigit = '.' :: fraction := by
        rw [List.dropWhile_append_of_pos hwhole, List.dropWhile_cons_of_neg hpoint]
      simp only [Literal.decimal?, htake, hdrop, List.takeWhile_eq_self_iff.2 hfraction,
        List.dropWhile_eq_nil_iff.2 hfraction]
      rw [if_neg hdigits.nonempty, hdigits.number]
      simp [Literal.exponent?]

/-- No digit starts a word that stands for a magnitude. -/
theorem magnitude?_eq (h : Positional cs d) :
    Literal.magnitude? f cs = some (f.nearest d.num d.den) := by
  obtain ⟨c, rest, rfl, hc⟩ := h.exists_head
  have hword : ∀ letter letters, letter.isDigit = false →
      ¬ (c :: rest).map Char.toLower = letter :: letters := by
    intro letter letters hletter heq
    rw [List.map_cons, Text.toLower_of_isDigit hc] at heq
    rw [← (List.cons.inj heq).1, hc] at hletter
    exact Bool.noConfusion hletter
  simp only [Literal.magnitude?]
  rw [if_neg, if_neg, h.decimal?_eq]
  · rfl
  · exact hword 'n' _ (by decide)
  · rintro (heq | heq)
    · exact hword 'i' _ (by decide) heq
    · exact hword 'i' _ (by decide) heq

/-- An optional minus and a positional text are read as the nearest float with that sign. -/
theorem read?_signed (h : Positional cs d) (negative : Bool) :
    Literal.read? f (Numeral.signed negative cs) =
      some (f.withSign negative (f.nearest d.num d.den)) := by
  cases negative with
  | true =>
      rw [Numeral.signed, if_pos rfl, Literal.read?, h.magnitude?_eq]
      rfl
  | false =>
      rw [Numeral.signed, if_neg Bool.false_ne_true, Literal.read?, h.magnitude?_eq]
      · rfl
      · exact h.ne_cons (by decide)
      · exact h.ne_cons (by decide)

theorem not_isBlank (h : Positional cs d) (negative : Bool) :
    ∀ c ∈ Numeral.signed negative cs, Text.isBlank c = false := by
  have hplain : ∀ c ∈ cs, Text.isBlank c = false := by
    intro c hc
    rcases h.digit_or_point hc with hdigit | rfl
    · exact Text.isBlank_of_isDigit hdigit
    · decide
  cases negative with
  | true => exact List.forall_mem_cons.2 ⟨by decide, hplain⟩
  | false => exact hplain

end Positional

/-! ### The layout of a decimal -/

section Layout

variable {d : Decimal}

theorem layout_positional_of_nonneg (h : 0 ≤ d.exponent) :
    Positional (Shortest.layout d) ⟨d.num, 0⟩ :=
  .whole (Numeral.nat?_eq_some_iff.1 (Binary64.nat?_layout h))

theorem layout_positional_of_neg (h : d.exponent < 0) : Positional (Shortest.layout d) d := by
  obtain ⟨coefficient, exponent⟩ := d
  have hdigits := Numeral.Digits.of_nat coefficient
  obtain ⟨places, rfl⟩ : ∃ places : Nat, exponent = -(places : Int) :=
    ⟨exponent.natAbs, (Int.ofNat_natAbs_of_nonpos h.le).symm ▸ (neg_neg exponent).symm⟩
  simp only [Shortest.layout, if_neg (not_le.2 h), neg_neg, Int.toNat_natCast]
  generalize Numeral.digits coefficient = ds at hdigits ⊢
  split_ifs with hplaces
  · have hfraction : (ds.drop (ds.length - places)).length = places := by
      rw [List.length_drop]
      omega
    have hwhole : ds.take (ds.length - places) ≠ [] := by
      rw [← List.length_pos_iff, List.length_take]
      omega
    rw [← List.take_append_drop (ds.length - places) ds] at hdigits
    have hpositional := Positional.pointed hwhole hdigits
    rwa [hfraction] at hpositional
  · have hfraction : (List.replicate (places - ds.length) '0' ++ ds).length = places := by
      rw [List.length_append, List.length_replicate]
      omega
    have hzeros : Numeral.Digits (['0'] ++ (List.replicate (places - ds.length) '0' ++ ds))
        coefficient := by
      refine ⟨by simp, ?_, ?_⟩
      · intro c hc
        simp only [List.mem_append, List.mem_singleton, List.mem_replicate] at hc
        rcases hc with rfl | ⟨-, rfl⟩ | hc
        · decide
        · decide
        · exact hdigits.digits c hc
      · rw [Nat.ofDigitChars_append, Nat.ofDigitChars_append, Nat.ofDigitChars_replicate_zero]
        exact hdigits.number
    have hpositional := Positional.pointed (List.cons_ne_nil '0' []) hzeros
    rwa [hfraction] at hpositional

/-- The layout of a decimal writes a decimal of the same value. -/
theorem layout_positional (d : Decimal) :
    ∃ d', Positional (Shortest.layout d) d' ∧ d'.num * d.den = d.num * d'.den := by
  rcases lt_or_ge d.exponent 0 with hneg | hnonneg
  · exact ⟨d, layout_positional_of_neg hneg, rfl⟩
  · refine ⟨⟨d.num, 0⟩, layout_positional_of_nonneg hnonneg, ?_⟩
    have hden : d.den = 1 := by
      rw [Decimal.den_eq, Int.toNat_of_nonpos (by omega), pow_zero]
    rw [hden, Decimal.num_eq, Decimal.den_eq]
    simp

end Layout

/-! ### The texts of floats -/

theorem Format.withSign_magnitude {f : Format} {bits : Nat} (h : bits < 2 * f.signBit) :
    f.withSign (f.isNegative bits) (f.magnitude bits) = bits := by
  simp only [Format.withSign, Format.isNegative, Format.magnitude, decide_eq_true_eq]
  split_ifs with hneg
  · rw [Nat.mod_eq_sub_mod hneg, Nat.mod_eq_of_lt (by omega)]
    omega
  · exact Nat.mod_eq_of_lt (not_le.1 hneg)

namespace Binary64

variable (bits : UInt64)

theorem withSign_magnitude :
    binary64.withSign (binary64.isNegative bits.toNat) (binary64.magnitude bits.toNat) =
      bits.toNat :=
  Format.withSign_magnitude bits.toNat_lt

variable {bits}

/-- A finite float is written in positional notation, by a decimal that is rounded to it. -/
theorem exists_positional (h : binary64.isFinite bits.toNat = true) :
    ∃ cs d, (text bits).toList = Numeral.signed (binary64.isNegative bits.toNat) cs ∧
      Positional cs d ∧ binary64.nearest d.num d.den = binary64.magnitude bits.toNat := by
  have hbound : binary64.magnitude bits.toNat < binary64.infinity := of_decide_eq_true h
  rw [toList_text h]
  by_cases hzero : binary64.magnitude bits.toNat = 0
  · refine ⟨['0'], ⟨0, 0⟩, by rw [if_pos hzero], .whole (Numeral.nat?_eq_some_iff.1 rfl), ?_⟩
    rw [hzero, Decimal.num_eq, Nat.zero_mul, Format.nearest_zero]
  · obtain ⟨hreads, -, -⟩ := Shortest.decimal_isShortest (Nat.pos_of_ne_zero hzero) hbound
    obtain ⟨d, hpositional, hvalue⟩ :=
      layout_positional (Shortest.decimal binary64 (binary64.magnitude bits.toNat))
    refine ⟨_, d, by rw [if_neg hzero], hpositional, ?_⟩
    rw [binary64.nearest_congr d.den_pos (Decimal.den_pos _) hvalue]
    exact hreads

theorem text_of_isNaN (h : binary64.isNaN bits.toNat = true) : text bits = "NaN" := by
  simp only [text, h, if_true]

theorem toList_text_of_isInfinite (h : binary64.isInfinite bits.toNat = true) :
    (text bits).toList = Numeral.signed (binary64.isNegative bits.toNat) "inf".toList := by
  have hnumber : binary64.isNaN bits.toNat = false :=
    decide_eq_false (not_lt.2 (of_decide_eq_true h).le)
  simp only [text, hnumber, h, Bool.false_eq_true, if_false, if_true]
  cases binary64.isNegative bits.toNat <;> rfl

variable (bits)

theorem isNaN_or_isInfinite_or_isFinite : binary64.isNaN bits.toNat = true ∨
    binary64.isInfinite bits.toNat = true ∨ binary64.isFinite bits.toNat = true := by
  simp only [Format.isNaN, Format.isInfinite, Format.isFinite, decide_eq_true_eq]
  exact (lt_trichotomy _ _).imp_right (Or.imp_left Eq.symm)

/-- The text of a float is read back as the float, that of a not-a-number as the quiet one. -/
theorem read?_text : Literal.read? binary64 (text bits).toList =
    some (if binary64.isNaN bits.toNat then binary64.quietNaN else bits.toNat) := by
  rcases isNaN_or_isInfinite_or_isFinite bits with hnan | hinfinite | hfinite
  · rw [text_of_isNaN hnan, if_pos hnan]
    decide +kernel
  · have hmagnitude : binary64.magnitude bits.toNat = binary64.infinity :=
      of_decide_eq_true hinfinite
    have hnumber : ¬ binary64.isNaN bits.toNat = true := by simp [Format.isNaN, hmagnitude]
    have hsplit := withSign_magnitude bits
    rw [hmagnitude] at hsplit
    rw [toList_text_of_isInfinite hinfinite, if_neg hnumber]
    generalize binary64.isNegative bits.toNat = negative at hsplit ⊢
    rw [← hsplit]
    cases negative <;> decide +kernel
  · have hnumber : ¬ binary64.isNaN bits.toNat = true := by
      rw [Format.isNaN, decide_eq_true_eq]
      exact (of_decide_eq_true hfinite).not_gt
    obtain ⟨cs, d, htext, hpositional, hnearest⟩ := exists_positional hfinite
    rw [htext, hpositional.read?_signed, hnearest, withSign_magnitude, if_neg hnumber]

theorem trim_text : Text.trim (text bits).toList = (text bits).toList := by
  rcases isNaN_or_isInfinite_or_isFinite bits with hnan | hinfinite | hfinite
  · rw [text_of_isNaN hnan]
    decide
  · rw [toList_text_of_isInfinite hinfinite]
    cases binary64.isNegative bits.toNat <;> decide
  · obtain ⟨cs, d, htext, hpositional, -⟩ := exists_positional hfinite
    rw [htext, Text.trim_eq_self (hpositional.not_isBlank _)]

end Binary64

end TokenScan.Binary

namespace TokenScan

open TokenScan.Number
open TokenScan.Binary

/-- A float literal pins a column of doubles to its own bits; whatever not-a-number it is, it pins
    the column to the quiet one. -/
theorem float_pin_of_double (column : Column) (hcolumn : column.type = .double) (bits : UInt64) :
    Key.encodeLiteral column (Literal.float bits).render =
      .ok (bigEndian 8 (if binary64.isNaN bits.toNat then 0x7FF8000000000000 else bits.toNat)) := by
  rw [Key.encodeLiteral_eq_ok_iff, hcolumn]
  show (Key.orMalformed .double (Literal.read? binary64
    (Text.trim (Binary64.text bits).toList))).map (bigEndian 8) = _
  rw [Binary64.trim_text, Binary64.read?_text]
  rfl

/-- The least positive float, whose text has more than three hundred digits, and a not-a-number with
    a sign and a payload. -/
theorem float_pin_of_least_double :
    let column : Column := ⟨"pk", .partitionKey, 0, .double⟩
    column.type = .double ∧
      Key.encodeLiteral column (Literal.float 0x8000000000000001).render =
        .ok [0x80, 0, 0, 0, 0, 0, 0, 1] ∧
      Key.encodeLiteral column (Literal.float 0xFFF0000000000001).render =
        .ok [0x7F, 0xF8, 0, 0, 0, 0, 0, 0] := by
  intro column
  refine ⟨rfl, ?_, ?_⟩
  · rw [float_pin_of_double column rfl]
    decide +kernel
  · rw [float_pin_of_double column rfl]
    decide +kernel

end TokenScan
