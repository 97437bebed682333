/-
Module: TokenScan.Proofs.HexTexts
Purpose: The grammar of bytes written in hexadecimal. A digit may be of either case, and two digits
  spell a byte, the high one first. Reading accepts exactly the texts that spell bytes, and two texts
  spell the same bytes exactly when they differ in nothing but the case of their digits.
Main exports: Hex.IsDigit, Hex.digit?_eq_some_iff, Hex.Spells, Hex.decode?_eq_some_iff,
  Hex.Spells.length_eq, Hex.Spells.eq_iff
-/
import TokenScan.Text.Hex

namespace TokenScan.Text.Hex

/-! ### Digits -/

/-- The digits in the order of their numbers. -/
def lowerDigits : List Char := "0123456789abcdef".toList

/-- The digits in the order of their numbers, the letters as capitals. -/
def upperDigits : List Char := "0123456789ABCDEF".toList

/-- The character is the digit of the number, in one of the two cases. -/
def IsDigit (c : Char) (n : Nat) : Prop :=
  lowerDigits[n]? = some c ∨ upperDigits[n]? = some c

variable {c : Char} {n : Nat}

theorem lt_of_digit? (h : digit? c = some n) : c.toNat < 128 := by
  have hbound : ∀ d : Char, c ≤ d → d.toNat < 128 → c.toNat < 128 := fun d hle hd =>
    Nat.lt_of_le_of_lt (UInt32.le_iff_toNat_le.1 hle) hd
  unfold digit? at h
  split at h
  · next hrange => exact hbound _ hrange.2 (by decide)
  · split at h
    · next hrange => exact hbound _ hrange.2 (by decide)
    · split at h
      · next hrange => exact hbound _ hrange.2 (by decide)
      · exact absurd h nofun

theorem IsDigit.lt (h : IsDigit c n) : n < 16 := by
  rcases h with h | h
  · exact (List.getElem?_eq_some_iff.1 h).1
  · exact (List.getElem?_eq_some_iff.1 h).1

/-- The reader of digits knows those of the two cases and no other characters. -/
theorem digit?_eq_some_iff : digit? c = some n ↔ IsDigit c n := by
  constructor
  · intro h
    have hascii : ∀ m < 128, ∀ k ∈ digit? (Char.ofNat m),
        lowerDigits[k]? = some (Char.ofNat m) ∨ upperDigits[k]? = some (Char.ofNat m) := by
      decide +kernel
    have hread := hascii c.toNat (lt_of_digit? h) n
    rw [Char.ofNat_toNat] at hread
    exact hread h
  · intro h
    have hread : ∀ k < 16, lowerDigits[k]?.bind digit? = some k ∧
        upperDigits[k]?.bind digit? = some k := by
      decide
    obtain ⟨hlower, hupper⟩ := hread n h.lt
    rcases h with h | h
    · rwa [h] at hlower
    · rwa [h] at hupper

/-- Without its case a digit is the one that is written. -/
theorem IsDigit.toLower_eq (h : IsDigit c n) : c.toLower = digit n := by
  have hcase : ∀ k < 16, lowerDigits[k]?.map Char.toLower = some (digit k) ∧
      upperDigits[k]?.map Char.toLower = some (digit k) := by
    decide
  obtain ⟨hlower, hupper⟩ := hcase n h.lt
  rcases h with h | h
  · rw [h] at hlower
    exact Option.some.inj hlower
  · rw [h] at hupper
    exact Option.some.inj hupper

theorem IsDigit.ne_hyphen (h : IsDigit c n) : c ≠ '-' := by
  rintro rfl
  exact absurd (digit?_eq_some_iff.2 h) nofun

/-! ### Pairs of digits -/

/-- Two digits to the byte spell bytes, the high digit first. -/
inductive Spells : List Char → Bytes → Prop where
  | nil : Spells [] []
  | cons {high low : Char} {h l : Nat} {rest : List Char} {bs : Bytes} (highDigit : IsDigit high h)
      (lowDigit : IsDigit low l) (spelt : Spells rest bs) :
      Spells (high :: low :: rest) (UInt8.ofNat (16 * h + l) :: bs)

variable {cs : List Char} {bs : Bytes}

theorem spells_of_decode? (h : decode? cs = some bs) : Spells cs bs := by
  fun_induction decode? cs generalizing bs with
  | case1 =>
      obtain rfl := Option.some.inj h
      exact .nil
  | case2 => exact absurd h nofun
  | case3 high low rest m k hlow hhigh ih =>
      obtain ⟨bytes, hrest, rfl⟩ := Option.map_eq_some_iff.1 h
      exact .cons (digit?_eq_some_iff.1 hhigh) (digit?_eq_some_iff.1 hlow) (ih hrest)
  | case4 => exact absurd h nofun

/-- Reading accepts exactly the texts that spell bytes. -/
theorem decode?_eq_some_iff : decode? cs = some bs ↔ Spells cs bs := by
  refine ⟨spells_of_decode?, fun h => ?_⟩
  induction h with
  | nil => rfl
  | cons highDigit lowDigit _ ih =>
      rw [decode?, digit?_eq_some_iff.2 highDigit, digit?_eq_some_iff.2 lowDigit, ih]
      rfl

theorem Spells.length_eq (h : Spells cs bs) : cs.length = 2 * bs.length := by
  induction h with
  | nil => rfl
  | cons _ _ _ ih => simp only [List.length_cons, ih, Nat.mul_add]

theorem Spells.hyphen_not_mem (h : Spells cs bs) : '-' ∉ cs := by
  induction h with
  | nil => exact List.not_mem_nil
  | cons highDigit lowDigit _ ih =>
      simp [highDigit.ne_hyphen.symm, lowDigit.ne_hyphen.symm, ih]

/-- In lower case the digits are those that the bytes are written with. -/
theorem Spells.map_toLower_eq (h : Spells cs bs) : cs.map Char.toLower = encode bs := by
  induction h with
  | nil => rfl
  | @cons high low m k rest bytes highDigit lowDigit _ ih =>
      have hbyte : (UInt8.ofNat (16 * m + k)).toNat = 16 * m + k := by
        have := highDigit.lt
        have := lowDigit.lt
        rw [UInt8.toNat_ofNat']
        omega
      have hhigh : (16 * m + k) / 16 = m := by
        have := lowDigit.lt
        omega
      have hlow : (16 * m + k) % 16 = k := by
        have := lowDigit.lt
        omega
      rw [List.map_cons, List.map_cons, ih, highDigit.toLower_eq, lowDigit.toLower_eq]
      simp only [encode, List.flatMap_cons, hbyte, hhigh, hlow, List.cons_append, List.nil_append]

/-- Two texts spell the same bytes exactly when they differ in nothing but case. -/
theorem Spells.eq_iff {cs' : List Char} {bs' : Bytes} (h : Spells cs bs) (h' : Spells cs' bs') :
    bs = bs' ↔ cs.map Char.toLower = cs'.map Char.toLower := by
  rw [h.map_toLower_eq, h'.map_toLower_eq]
  refine ⟨congrArg encode, fun hsame => ?_⟩
  have hread := congrArg decode? hsame
  rw [decode?_encode, decode?_encode] at hread
  exact Option.some.inj hread

end TokenScan.Text.Hex
