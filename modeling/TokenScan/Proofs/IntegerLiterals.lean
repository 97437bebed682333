/-
Module: TokenScan.Proofs.IntegerLiterals
Purpose: Integers written in decimal and the key bytes they give. Digits with an optional minus in
  front hold no blank and are read back as the integer, also when zeros are appended; a literal that
  is read as an integer is written in the bytes of its column type if it fits them and is out of
  range if not.
Main exports: Numeral.signed, Numeral.nat?_append_zeros, Numeral.int?_signed, Numeral.int?_chars,
  Numeral.trim_text, Key.encodeText_timestamp_of_some,
  Key.encodeText_varint_of_some, Key.encodeInteger_of_int?
-/
import TokenScan.Key.Encoding
import TokenScan.Proofs.SignedBytes

namespace TokenScan

namespace Text

theorem toLower_of_isDigit {c : Char} (h : c.isDigit = true) : c.toLower = c := by
  have hbounds : 48 ≤ c.toNat ∧ c.toNat ≤ 57 := Char.isDigit_iff_toNat.1 h
  refine dif_neg ?_
  rintro ⟨hletter, -⟩
  rw [ge_iff_le, UInt32.le_iff_toNat_le] at hletter
  exact absurd (hletter.trans hbounds.2) (by decide)

theorem isBlank_of_isDigit {c : Char} (h : c.isDigit = true) : isBlank c = false := by
  have hbounds : 48 ≤ c.toNat ∧ c.toNat ≤ 57 := Char.isDigit_iff_toNat.1 h
  simp only [isBlank, blankRanges, List.any_cons, List.any_nil, Bool.or_false,
    Bool.or_eq_false_iff, Bool.and_eq_false_iff, decide_eq_false_iff_not]
  omega

end Text

namespace Number

namespace Numeral

/-- Digits with a minus in front of them when they are those of a negative integer. -/
def signed (negative : Bool) (cs : List Char) : List Char :=
  if negative then '-' :: cs else cs

theorem chars_eq_signed (z : Int) : chars z = signed (z < 0) (digits z.natAbs) := by
  simp [chars, signed]

/-- One or more ASCII digits and the number that they write. -/
structure Digits (cs : List Char) (n : Nat) : Prop where
  nonempty : cs ≠ []
  digits : ∀ c ∈ cs, c.isDigit = true
  number : Nat.ofDigitChars 10 cs 0 = n

theorem nat?_eq_some_iff {cs : List Char} {n : Nat} : nat? cs = some n ↔ Digits cs n := by
  rw [nat?, Option.ite_none_right_eq_some, Option.some.injEq, List.all_eq_true]
  exact ⟨fun ⟨⟨hne, hall⟩, hnumber⟩ => ⟨hne, hall, hnumber⟩,
    fun ⟨hne, hall, hnumber⟩ => ⟨⟨hne, hall⟩, hnumber⟩⟩

theorem Digits.of_nat (n : Nat) : Digits (Numeral.digits n) n :=
  nat?_eq_some_iff.1 (nat?_digits n)

/-- The text of an integer is the digits of a number, alone or after a minus. -/
theorem chars_cases (z : Int) :
    (∃ n : Nat, z = n ∧ chars z = digits n) ∨ ∃ n : Nat, z = -n ∧ chars z = '-' :: digits n := by
  rcases lt_or_ge z 0 with hneg | hnonneg
  · exact .inr ⟨z.natAbs, by omega, if_pos hneg⟩
  · exact .inl ⟨z.natAbs, by omega, if_neg (not_lt.2 hnonneg)⟩

theorem Digits.not_mem {cs : List Char} {n : Nat} (h : Digits cs n) {c : Char}
    (hc : c.isDigit = false) : c ∉ cs := by
  intro hmem
  rw [h.digits c hmem] at hc
  exact Bool.noConfusion hc

theorem Digits.ne_cons {cs : List Char} {n : Nat} (h : Digits cs n) {c : Char}
    (hc : c.isDigit = false) (rest : List Char) : cs ≠ c :: rest := by
  rintro rfl
  exact h.not_mem hc List.mem_cons_self

/-- Zeros at the end of the digits multiply the number. -/
theorem nat?_append_zeros {cs : List Char} {n : Nat} (h : nat? cs = some n) (k : Nat) :
    nat? (cs ++ List.replicate k '0') = some (n * 10 ^ k) := by
  rw [nat?_eq_some_iff] at h ⊢
  obtain ⟨hne, hall, rfl⟩ := h
  refine ⟨by simp [hne], ?_, ?_⟩
  · intro c hc
    rcases List.mem_append.1 hc with hc | hc
    · exact hall c hc
    · rw [List.eq_of_mem_replicate hc]
      decide
  · rw [Nat.ofDigitChars_append, Nat.ofDigitChars_replicate_zero, Nat.mul_comm]

theorem int?_of_nat? {cs : List Char} {n : Nat} (h : nat? cs = some n) :
    int? cs = some (n : Int) := by
  have hdigits := (nat?_eq_some_iff.1 h).digits
  unfold int?
  split
  · simp at hdigits
  · simp at hdigits
  · rw [h]
    rfl

/-- An optional minus and digits are read as the integer they write. -/
theorem int?_signed {cs : List Char} {n : Nat} (h : nat? cs = some n) (negative : Bool) :
    int? (signed negative cs) = some (if negative then -(n : Int) else n) := by
  cases negative with
  | false => exact int?_of_nat? h
  | true => simp [signed, int?, h]

theorem int?_chars (z : Int) : int? (chars z) = some z := by
  rcases chars_cases z with ⟨n, rfl, hchars⟩ | ⟨n, rfl, hchars⟩
  · rw [hchars, int?_of_nat? (nat?_digits n)]
  · rw [hchars, int?, nat?_digits]
    rfl

theorem not_isBlank_of_mem_signed {cs : List Char} {n : Nat} (h : nat? cs = some n)
    (negative : Bool) : ∀ c ∈ signed negative cs, Text.isBlank c = false := by
  have hall := (nat?_eq_some_iff.1 h).digits
  intro c hc
  cases negative with
  | false => exact Text.isBlank_of_isDigit (hall c hc)
  | true =>
      rcases List.mem_cons.1 hc with rfl | hc
      · decide
      · exact Text.isBlank_of_isDigit (hall c hc)

theorem not_isBlank_of_mem_chars (z : Int) : ∀ c ∈ chars z, Text.isBlank c = false := by
  rw [chars_eq_signed]
  exact not_isBlank_of_mem_signed (nat?_digits z.natAbs) (z < 0)

/-- The text of an integer has no blanks to drop. -/
theorem trim_text (z : Int) : Text.trim (text z).toList = chars z := by
  rw [text, String.toList_ofList, Text.trim_eq_self (not_isBlank_of_mem_chars z)]

end Numeral

end Number

namespace Key

open Number

theorem integer?_of_int? {cs : List Char} {z : Int} (hread : Numeral.int? cs = some z)
    (hfits : TwosComplement.fits 16 z = true) : integer? cs = some z := by
  rw [integer?, boundedInt?, hread, Option.filter_some, if_pos hfits]

/-! ### Types of one reader -/

section Reader

variable {value : String} {z : Int}

theorem encodeText_varint_of_some (hread : varint? (Text.trim value.toList) = some z) :
    encodeText .varint value = .ok (TwosComplement.minimal z) := by
  show (orMalformed .varint (varint? (Text.trim value.toList))).map _ = _
  rw [hread]
  rfl

theorem encodeText_varint_of_none (hread : varint? (Text.trim value.toList) = none) :
    encodeText .varint value = .error (.malformed .varint) := by
  show (orMalformed .varint (varint? (Text.trim value.toList))).map _ = _
  rw [hread]
  rfl

theorem encodeText_timestamp_of_some (hread : timestampMillis? (Text.trim value.toList) = some z) :
    encodeText .timestamp value = .ok (TwosComplement.fixed 8 z) := by
  show (orMalformed .timestamp (timestampMillis? (Text.trim value.toList))).map _ = _
  rw [hread]
  rfl

theorem timestampMillis?_chars (hfits : TwosComplement.fits 8 z = true) :
    timestampMillis? (Numeral.chars z) = some z := by
  rw [timestampMillis?, Numeral.int?_chars, Option.filter_some, if_pos hfits]

end Reader

/-! ### Integers of fixed width -/

section Bytes

variable (type : ColumnType) (width : Nat) {cs : List Char}

theorem encodeInteger_of_none (hread : integer? cs = none) :
    encodeInteger type width cs = .error (.malformed type) := by
  rw [encodeInteger, hread]
  rfl

/-- A literal that is read as an integer gives its bytes if it fits them. -/
theorem encodeInteger_of_some {z : Int} (hread : integer? cs = some z) :
    encodeInteger type width cs =
      if TwosComplement.fits width z then .ok (TwosComplement.fixed width z)
      else .error (.outOfRange type) := by
  rw [encodeInteger, hread]
  rfl

theorem encodeInteger_of_int? {z : Int} (hread : Numeral.int? cs = some z)
    (hfits : TwosComplement.fits 16 z = true) :
    encodeInteger type width cs =
      if TwosComplement.fits width z then .ok (TwosComplement.fixed width z)
      else .error (.outOfRange type) :=
  encodeInteger_of_some type width (integer?_of_int? hread hfits)

end Bytes

end Key

end TokenScan
