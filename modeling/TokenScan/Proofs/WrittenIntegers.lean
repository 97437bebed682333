/-
Module: TokenScan.Proofs.WrittenIntegers
Purpose: The grammar of the integers that a column of a fixed width reads. An integer is written as
  digits with an optional sign, and a point with zeros may follow. A text writes one integer at most,
  and reading finds that integer if it has no more than 128 bits; so a longer one counts as not
  written at all. The reader of integers of any size finds it without that bound, but knows no point.
Main exports: Numeral.Writes, Numeral.int?_eq_some_iff, Key.IntegerText, Key.IntegerText.unique,
  Key.integer?_eq_some_iff, Key.varint?_of_integerText, Key.encodeInteger_eq_ok_iff,
  Key.encodeInteger_outOfRange_iff, Key.encodeInteger_malformed_iff
-/
import Mathlib.Data.List.TakeWhile
import TokenScan.Proofs.IntegerLiterals

namespace TokenScan

namespace Number.Numeral

/-- An optional sign and digits write an integer. -/
inductive Writes : List Char → Int → Prop where
  | unsigned {cs : List Char} {n : Nat} (digits : Digits cs n) : Writes cs n
  | plus {cs : List Char} {n : Nat} (digits : Digits cs n) : Writes ('+' :: cs) n
  | minus {cs : List Char} {n : Nat} (digits : Digits cs n) : Writes ('-' :: cs) (-n)

variable {cs : List Char} {z : Int}

theorem int?_of_writes (h : Writes cs z) : int? cs = some z := by
  cases h with
  | unsigned hdigits => exact int?_of_nat? (nat?_eq_some_iff.2 hdigits)
  | plus hdigits => rw [int?, nat?_eq_some_iff.2 hdigits]; rfl
  | minus hdigits => rw [int?, nat?_eq_some_iff.2 hdigits]; rfl

theorem int?_minus (cs : List Char) :
    int? ('-' :: cs) = (nat? cs).map fun n : Nat => -(n : Int) := by
  rw [int?]
  cases nat? cs <;> rfl

theorem int?_eq_some_iff : int? cs = some z ↔ Writes cs z := by
  refine ⟨fun h => ?_, int?_of_writes⟩
  unfold int? at h
  split at h
  · rw [← int?, int?_minus] at h
    obtain ⟨n, hdigits, rfl⟩ := Option.map_eq_some_iff.1 h
    exact .minus (nat?_eq_some_iff.1 hdigits)
  · obtain ⟨n, hdigits, rfl⟩ := Option.map_eq_some_iff.1 h
    exact .plus (nat?_eq_some_iff.1 hdigits)
  · obtain ⟨n, hdigits, rfl⟩ := Option.map_eq_some_iff.1 h
    exact .unsigned (nat?_eq_some_iff.1 hdigits)

/-- The text of an integer writes it. -/
theorem writes_chars (z : Int) : Writes (chars z) z :=
  int?_eq_some_iff.1 (int?_chars z)

theorem Writes.point_not_mem (h : Writes cs z) : '.' ∉ cs := by
  cases h with
  | unsigned hdigits => exact hdigits.not_mem (by decide)
  | plus hdigits =>
      exact List.not_mem_cons_of_ne_of_not_mem (by decide) (hdigits.not_mem (by decide))
  | minus hdigits =>
      exact List.not_mem_cons_of_ne_of_not_mem (by decide) (hdigits.not_mem (by decide))

theorem Writes.ne_point (h : Writes cs z) : ∀ c ∈ cs, decide (c ≠ '.') = true :=
  fun _ hc => decide_eq_true (ne_of_mem_of_not_mem hc h.point_not_mem)

end Number.Numeral

namespace Key

open Number

variable {cs : List Char} {z : Int}

/-- The text of an integer: a numeral, alone or with a point and one or more zeros after it. -/
inductive IntegerText : List Char → Int → Prop where
  | numeral {cs : List Char} {z : Int} (whole : Numeral.Writes cs z) : IntegerText cs z
  | pointed {cs : List Char} {z : Int} (whole : Numeral.Writes cs z) (zeros : Nat) :
      IntegerText (cs ++ '.' :: List.replicate (zeros + 1) '0') z

/-- A numeral is cut off before its point. -/
theorem span_point (h : Numeral.Writes cs z) (rest : List Char) :
    (cs ++ '.' :: rest).span (· ≠ '.') = (cs, '.' :: rest) := by
  rw [List.span_eq_takeWhile_dropWhile, List.takeWhile_append_of_pos h.ne_point,
    List.dropWhile_append_of_pos h.ne_point]
  simp

theorem IntegerText.writes_takeWhile (h : IntegerText cs z) :
    Numeral.Writes (cs.takeWhile (· ≠ '.')) z := by
  cases h with
  | numeral hwhole => rwa [List.takeWhile_eq_self_iff.2 hwhole.ne_point]
  | pointed hwhole zeros =>
      have hspan := span_point hwhole (List.replicate (zeros + 1) '0')
      rw [List.span_eq_takeWhile_dropWhile, Prod.mk.injEq] at hspan
      rwa [hspan.1]

/-- A text is that of one integer at most. -/
theorem IntegerText.unique {z' : Int} (h : IntegerText cs z) (h' : IntegerText cs z') : z = z' := by
  have hread := Numeral.int?_of_writes h.writes_takeWhile
  rw [Numeral.int?_of_writes h'.writes_takeWhile] at hread
  exact (Option.some.inj hread).symm

theorem boundedInt?_eq_some_iff :
    boundedInt? cs = some z ↔ Numeral.Writes cs z ∧ TwosComplement.fits 16 z = true := by
  rw [boundedInt?, Option.filter_eq_some_iff, Numeral.int?_eq_some_iff]

theorem integerText_of_integer? (h : integer? cs = some z) :
    IntegerText cs z ∧ TwosComplement.fits 16 z = true := by
  rw [integer?] at h
  split at h
  case h_1 w hwhole =>
    obtain rfl := Option.some.inj h
    obtain ⟨hwrites, hfits⟩ := boundedInt?_eq_some_iff.1 hwhole
    exact ⟨.numeral hwrites, hfits⟩
  case h_2 =>
    split at h
    case h_1 whole fraction hspan =>
      obtain ⟨⟨hne, hzeros⟩, hwhole⟩ := Option.ite_none_right_eq_some.1 h
      obtain ⟨hwrites, hfits⟩ := boundedInt?_eq_some_iff.1 hwhole
      obtain ⟨zeros, hlength⟩ := Nat.exists_eq_add_one.2 (List.length_pos_iff.2 hne)
      have hfraction : fraction = List.replicate (zeros + 1) '0' :=
        List.eq_replicate_iff.2 ⟨hlength, by simpa using hzeros⟩
      have hcs : cs = whole ++ '.' :: fraction := by
        rw [List.span_eq_takeWhile_dropWhile, Prod.mk.injEq] at hspan
        rw [← hspan.1, ← hspan.2, List.takeWhile_append_dropWhile]
      rw [hcs, hfraction]
      exact ⟨.pointed hwrites zeros, hfits⟩
    case h_2 => simp at h

theorem integer?_of_integerText (h : IntegerText cs z) (hfits : TwosComplement.fits 16 z = true) :
    integer? cs = some z := by
  cases h with
  | numeral hwhole => exact integer?_of_int? (Numeral.int?_of_writes hwhole) hfits
  | @pointed whole _ hwhole zeros =>
      have hnone : boundedInt? (whole ++ '.' :: List.replicate (zeros + 1) '0') = none := by
        rw [Option.eq_none_iff_forall_not_mem]
        intro z' hz'
        exact (boundedInt?_eq_some_iff.1 hz').1.point_not_mem (by simp)
      rw [integer?, hnone, span_point hwhole]
      simp [boundedInt?_eq_some_iff.2 ⟨hwhole, hfits⟩]

theorem integer?_eq_some_iff :
    integer? cs = some z ↔ IntegerText cs z ∧ TwosComplement.fits 16 z = true :=
  ⟨integerText_of_integer?, fun h => integer?_of_integerText h.1 h.2⟩

theorem integer?_eq_none_iff :
    integer? cs = none ↔ ∀ z, IntegerText cs z → TwosComplement.fits 16 z = false := by
  rw [Option.eq_none_iff_forall_not_mem]
  simp only [Option.mem_def, integer?_eq_some_iff, not_and, Bool.not_eq_true]

/-! ### Integers of any size -/

/-- Digits without underscores are a long numeral. -/
theorem longDigits?_of_digits {n : Nat} (h : Numeral.Digits cs n) : longDigits? cs = some n := by
  have hhead : cs.head?.any Char.isDigit = true := by
    obtain ⟨c, rest, rfl⟩ := List.exists_cons_of_ne_nil h.nonempty
    exact h.digits c List.mem_cons_self
  have hfilter : cs.filter (· ≠ '_') = cs := by
    rw [List.filter_eq_self]
    exact fun c hc => decide_eq_true (ne_of_mem_of_not_mem hc (h.not_mem (by decide)))
  rw [longDigits?, if_pos hhead, hfilter, Numeral.nat?_eq_some_iff.2 h]

theorem longDigits?_of_point (h : '.' ∈ cs) : longDigits? cs = none := by
  have hpoint : '.' ∈ cs.filter (· ≠ '_') := List.mem_filter.2 ⟨h, by decide⟩
  have hnone : Numeral.nat? (cs.filter (· ≠ '_')) = none := by
    refine if_neg ?_
    rintro ⟨-, hall⟩
    exact absurd (List.all_eq_true.1 hall '.' hpoint) (by decide)
  rw [longDigits?, hnone, ite_self]

/-- An optional sign and digits are read in full, however many there are. -/
theorem varint?_of_writes (h : Numeral.Writes cs z) : varint? cs = some z := by
  cases h with
  | unsigned hdigits =>
      rw [varint?, longDigits?_of_digits hdigits]
      · rfl
      · exact hdigits.ne_cons (by decide)
      · exact hdigits.ne_cons (by decide)
  | plus hdigits => rw [varint?, longDigits?_of_digits hdigits]; rfl
  | minus hdigits => rw [varint?, longDigits?_of_digits hdigits]; rfl

theorem varint?_of_point (h : '.' ∈ cs) : varint? cs = none := by
  unfold varint?
  split
  case h_1 rest => rw [longDigits?_of_point (List.mem_of_ne_of_mem (by decide) h)]; rfl
  case h_2 rest => rw [longDigits?_of_point (List.mem_of_ne_of_mem (by decide) h)]; rfl
  case h_3 => rw [longDigits?_of_point h]; rfl

/-- Of the texts of integers those without a point are read in full. -/
theorem varint?_of_integerText (h : IntegerText cs z) :
    varint? cs = if '.' ∈ cs then none else some z := by
  cases h with
  | numeral hwhole => rw [if_neg hwhole.point_not_mem, varint?_of_writes hwhole]
  | @pointed whole _ hwhole zeros =>
      have hpoint : '.' ∈ whole ++ '.' :: List.replicate (zeros + 1) '0' :=
        List.mem_append_right _ List.mem_cons_self
      rw [if_pos hpoint, varint?_of_point hpoint]

/-! ### The bytes of a written integer, and its faults -/

variable {type : ColumnType} {width : Nat}

theorem encodeInteger_eq_ok_iff (hwidth : width ≤ 16) {bytes : Bytes} :
    encodeInteger type width cs = .ok bytes ↔
      ∃ z, IntegerText cs z ∧ TwosComplement.fits width z = true ∧
        bytes = TwosComplement.fixed width z := by
  cases hread : integer? cs with
  | none =>
      rw [encodeInteger_of_none type width hread]
      refine iff_of_false (by simp) ?_
      rintro ⟨z, htext, hfits, -⟩
      have hwide := integer?_eq_none_iff.1 hread z htext
      rw [TwosComplement.fits_mono hwidth hfits] at hwide
      exact absurd hwide (by decide)
  | some z =>
      obtain ⟨htext, -⟩ := integer?_eq_some_iff.1 hread
      rw [encodeInteger_of_some type width hread]
      constructor
      · intro h
        split_ifs at h with hfits
        exact ⟨z, htext, hfits, (Except.ok.inj h).symm⟩
      · rintro ⟨z', htext', hfits, rfl⟩
        obtain rfl := htext.unique htext'
        rw [if_pos hfits]

theorem encodeInteger_outOfRange_iff :
    encodeInteger type width cs = .error (.outOfRange type) ↔
      ∃ z, IntegerText cs z ∧ TwosComplement.fits width z = false ∧
        TwosComplement.fits 16 z = true := by
  cases hread : integer? cs with
  | none =>
      rw [encodeInteger_of_none type width hread]
      refine iff_of_false (by simp) ?_
      rintro ⟨z, htext, -, hwide⟩
      rw [integer?_eq_none_iff.1 hread z htext] at hwide
      exact absurd hwide (by decide)
  | some z =>
      obtain ⟨htext, hwide⟩ := integer?_eq_some_iff.1 hread
      rw [encodeInteger_of_some type width hread]
      constructor
      · intro h
        split_ifs at h with hfits
        exact ⟨z, htext, Bool.eq_false_iff.2 hfits, hwide⟩
      · rintro ⟨z', htext', hfits, -⟩
        obtain rfl := htext.unique htext'
        rw [hfits]
        rfl

theorem encodeInteger_malformed_iff :
    encodeInteger type width cs = .error (.malformed type) ↔
      ∀ z, IntegerText cs z → TwosComplement.fits 16 z = false := by
  rw [← integer?_eq_none_iff]
  cases hread : integer? cs with
  | none => exact iff_of_true (encodeInteger_of_none type width hread) rfl
  | some z =>
      rw [encodeInteger_of_some type width hread]
      split_ifs <;> simp

end Key

end TokenScan
