/-
Module: TokenScan.Proofs.TextOrder
Purpose: Texts are compared by code point here and by byte where keys and names travel, and both ways
  give one order. A character is written with a first byte that tells how many bytes follow, and each
  of those carries six bits, so a greater code point has either a greater first byte or the same form
  and greater digits.
Main exports: Ahead, marked, WrittenWith, exists_writtenWith, ahead_utf8EncodeChar, utf8_lt_utf8_iff
-/
import Mathlib
import TokenScan.Text.Utf8

namespace TokenScan

namespace Text

/-- The first bytes come before the second, whatever follows them. -/
def Ahead (xs ys : Bytes) : Prop :=
  ∀ u v : Bytes, xs ++ u < ys ++ v

/-- The byte that carries the last six bits of a number. -/
def lastSix (n : Nat) : UInt8 :=
  .ofNat (n % 64 + 128)

/-- The bytes of a number. The first carries the highest bits and a mark, each of the others six
    bits. -/
def marked (mark : Nat) : Nat → Nat → Bytes
  | 0, n => [.ofNat (n + mark)]
  | more + 1, n => marked mark more (n / 64) ++ [lastSix n]

/-- The mark and the number of further bytes that a code point is written with. -/
inductive WrittenWith (n : Nat) : Nat → Nat → Prop where
  | one (hhigh : n ≤ 127) : WrittenWith n 0 0
  | two (hlow : 127 < n) (hhigh : n ≤ 2047) : WrittenWith n 192 1
  | three (hlow : 2047 < n) (hhigh : n ≤ 65535) : WrittenWith n 224 2
  | four (hlow : 65535 < n) (hhigh : n < 0x110000) : WrittenWith n 240 3

/-! ### Marked numbers -/

theorem marked_eq_cons (mark more n : Nat) :
    ∃ rest, marked mark more n = .ofNat (n / 64 ^ more + mark) :: rest := by
  induction more generalizing n with
  | zero => exact ⟨[], by rw [Nat.pow_zero, Nat.div_one, marked]⟩
  | succ more ih =>
      obtain ⟨rest, hrest⟩ := ih (n / 64)
      refine ⟨rest ++ [lastSix n], ?_⟩
      rw [marked, hrest, Nat.div_div_eq_div_mul, Nat.pow_succ', List.cons_append]

theorem ahead_cons {m n : Nat} (hlt : m < n) (hn : n < 256) (xs ys : Bytes) :
    Ahead (.ofNat m :: xs) (.ofNat n :: ys) := by
  intro u v
  have hbytes : UInt8.ofNat m < UInt8.ofNat n := by
    rw [UInt8.lt_iff_toNat_lt, UInt8.toNat_ofNat_of_lt' (Nat.lt_trans hlt hn),
      UInt8.toNat_ofNat_of_lt' hn]
    exact hlt
  exact List.cons_lt_cons_iff.2 (.inl hbytes)

/-- Numbers with the same mark and as many bytes are ordered as their bytes. -/
theorem ahead_marked {mark more m n : Nat} (hlt : m < n) (hn : n / 64 ^ more + mark < 256) :
    Ahead (marked mark more m) (marked mark more n) := by
  induction more generalizing m n with
  | zero =>
      rw [Nat.pow_zero, Nat.div_one] at hn
      exact ahead_cons (Nat.add_lt_add_right hlt mark) hn [] []
  | succ more ih =>
      intro u v
      rw [marked, marked, List.append_assoc, List.append_assoc]
      -- Either the bytes in front decide, or they are the same and the last six bits do.
      have hfront : m / 64 ≤ n / 64 := Nat.div_le_div_right (Nat.le_of_lt hlt)
      rcases Nat.lt_or_eq_of_le hfront with hless | hsame
      · rw [Nat.pow_succ', ← Nat.div_div_eq_div_mul] at hn
        exact ih hless hn _ _
      · have hlast : m % 64 + 128 < n % 64 + 128 := by omega
        rw [hsame]
        exact List.append_left_lt (ahead_cons hlast (by omega) [] [] u v)

/-! ### Characters -/

theorem WrittenWith.first_lt {n mark more : Nat} (h : WrittenWith n mark more) :
    n / 64 ^ more + mark < 256 := by
  cases h <;> omega

/-- Of two code points that are written in different ways the greater has the greater first byte. -/
theorem WrittenWith.same_or_first_lt {m n mark mark' more more' : Nat}
    (hm : WrittenWith m mark more) (hn : WrittenWith n mark' more') (hlt : m < n) :
    (mark = mark' ∧ more = more') ∨ m / 64 ^ more + mark < n / 64 ^ more' + mark' := by
  cases hm <;> cases hn <;> omega

theorem exists_writtenWith (c : Char) : ∃ mark more, WrittenWith c.val.toNat mark more ∧
    String.utf8EncodeChar c = marked mark more c.val.toNat := by
  have hlast : c.val.toNat < 0x110000 := by
    rcases c.valid with hlow | hhigh
    · omega
    · exact hhigh.2
  simp only [String.utf8EncodeChar]
  split
  · next hone => exact ⟨0, 0, .one hone, rfl⟩
  · next hone =>
      split
      · next htwo =>
          have hfirst : c.val.toNat / 64 % 32 = c.val.toNat / 64 := by omega
          exact ⟨192, 1, .two (Nat.not_le.1 hone) htwo, by rw [hfirst]; rfl⟩
      · next htwo =>
          split
          · next hthree =>
              have hfirst : c.val.toNat / 4096 % 16 = c.val.toNat / 64 / 64 := by omega
              exact ⟨224, 2, .three (Nat.not_le.1 htwo) hthree, by rw [hfirst]; rfl⟩
          · next hthree =>
              have hfirst : c.val.toNat / 262144 % 8 = c.val.toNat / 64 / 64 / 64 := by omega
              have hsecond : c.val.toNat / 4096 = c.val.toNat / 64 / 64 := by omega
              exact ⟨240, 3, .four (Nat.not_le.1 hthree) hlast, by rw [hfirst, hsecond]; rfl⟩

theorem ahead_utf8EncodeChar {c d : Char} (hlt : c < d) :
    Ahead (String.utf8EncodeChar c) (String.utf8EncodeChar d) := by
  obtain ⟨mark, more, hc, hcbytes⟩ := exists_writtenWith c
  obtain ⟨mark', more', hd, hdbytes⟩ := exists_writtenWith d
  rw [hcbytes, hdbytes]
  rcases hc.same_or_first_lt hd hlt with ⟨rfl, rfl⟩ | hfirst
  · exact ahead_marked hlt hd.first_lt
  · obtain ⟨rest, hrest⟩ := marked_eq_cons mark more c.val.toNat
    obtain ⟨rest', hrest'⟩ := marked_eq_cons mark' more' d.val.toNat
    rw [hrest, hrest']
    exact ahead_cons hfirst hd.first_lt rest rest'

/-! ### Texts -/

theorem utf8_eq_flatMap (s : String) : utf8 s = s.toList.flatMap String.utf8EncodeChar := by
  have hbytes : s.toByteArray = s.toList.utf8Encode := by
    rw [← String.toByteArray_ofList, String.ofList_toList]
  rw [utf8, String.toUTF8_eq_toByteArray, hbytes]
  exact List.toList_data_toByteArray

theorem flatMap_utf8EncodeChar_lt {cs ds : List Char} (h : cs < ds) :
    cs.flatMap String.utf8EncodeChar < ds.flatMap String.utf8EncodeChar := by
  induction h with
  | @nil d ds =>
      obtain ⟨mark, more, -, hbytes⟩ := exists_writtenWith d
      obtain ⟨rest, hrest⟩ := marked_eq_cons mark more d.val.toNat
      rw [List.flatMap_nil, List.flatMap_cons, hbytes, hrest]
      exact List.nil_lt_cons _ _
  | rel hlt => exact ahead_utf8EncodeChar hlt _ _
  | cons _ ih => exact List.append_left_lt ih

/-- Texts are ordered as their bytes are. -/
theorem utf8_lt_utf8_iff {s t : String} : utf8 s < utf8 t ↔ s < t := by
  have hmono : ∀ {s t : String}, s < t → utf8 s < utf8 t := by
    intro s t hlt
    rw [utf8_eq_flatMap, utf8_eq_flatMap]
    exact flatMap_utf8EncodeChar_lt (String.lt_iff.1 hlt)
  refine ⟨?_, hmono⟩
  intro hlt
  by_cases hsame : s = t
  · rw [hsame] at hlt
    exact absurd hlt (List.lt_irrefl _)
  · apply Std.not_le.1
    intro hle
    have hback := hmono (Std.lt_of_le_of_ne hle (Ne.symm hsame))
    exact List.lt_irrefl _ (List.lt_trans hlt hback)

end Text

end TokenScan
