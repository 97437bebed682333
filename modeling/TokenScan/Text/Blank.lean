/-
Module: TokenScan.Text.Blank
Purpose: White space around a literal. A value pinned by a filter is read after the blanks at both
  of its ends are dropped, and "blank" is the Unicode property White_Space, not the ASCII class.
Main exports: isBlank, trim, trim_eq_self, trim_append_append, mem_trim
-/

namespace TokenScan.Text

/-- The code points of the Unicode property White_Space, as closed ranges in increasing order. -/
def blankRanges : List (Nat × Nat) :=
  [(0x09, 0x0D), (0x20, 0x20), (0x85, 0x85), (0xA0, 0xA0), (0x1680, 0x1680), (0x2000, 0x200A),
   (0x2028, 0x2029), (0x202F, 0x202F), (0x205F, 0x205F), (0x3000, 0x3000)]

/-- Membership in the Unicode property White_Space. -/
def isBlank (c : Char) : Bool :=
  blankRanges.any fun (low, high) => low ≤ c.toNat && c.toNat ≤ high

/-- The text without the blanks at its two ends; blanks inside stay. -/
def trim (cs : List Char) : List Char :=
  ((cs.dropWhile isBlank).reverse.dropWhile isBlank).reverse

/-- Nothing is left of no text. -/
@[simp] theorem trim_nil : trim [] = [] := rfl

/-! ### What stays -/

theorem dropWhile_isBlank_append {front : List Char} (hne : front ≠ [])
    (hplain : ∀ c ∈ front, isBlank c = false) (rest : List Char) :
    (front ++ rest).dropWhile isBlank = front ++ rest := by
  obtain ⟨c, cs, rfl⟩ := List.exists_cons_of_ne_nil hne
  rw [List.cons_append, List.dropWhile_cons_of_neg (by simp [hplain c List.mem_cons_self])]

/-- Only blanks at the ends of a text are dropped. -/
theorem trim_append_append {front back : List Char} (hfront : front ≠ [])
    (hfrontPlain : ∀ c ∈ front, isBlank c = false) (hback : back ≠ [])
    (hbackPlain : ∀ c ∈ back, isBlank c = false) (middle : List Char) :
    trim (front ++ (middle ++ back)) = front ++ (middle ++ back) := by
  have hlast : ∀ c ∈ back.reverse, isBlank c = false := fun c hc =>
    hbackPlain c (List.mem_reverse.1 hc)
  rw [trim, dropWhile_isBlank_append hfront hfrontPlain, ← List.append_assoc, List.reverse_append,
    dropWhile_isBlank_append (mt List.reverse_eq_nil_iff.1 hback) hlast, ← List.reverse_append,
    List.reverse_reverse]

/-- A text without blanks stays as it is. -/
theorem trim_eq_self {cs : List Char} (h : ∀ c ∈ cs, isBlank c = false) : trim cs = cs := by
  cases cs with
  | nil => rfl
  | cons c rest =>
    have hreverse : ∀ d ∈ (c :: rest).reverse, isBlank d = false := fun d hd =>
      h d (List.mem_reverse.1 hd)
    have hfront := dropWhile_isBlank_append (List.cons_ne_nil c rest) h []
    have hback := dropWhile_isBlank_append (by simp) hreverse []
    rw [List.append_nil] at hfront hback
    rw [trim, hfront, hback, List.reverse_reverse]

theorem mem_dropWhile_isBlank {c : Char} {cs : List Char} (hc : isBlank c = false) :
    c ∈ cs.dropWhile isBlank ↔ c ∈ cs := by
  induction cs with
  | nil => exact Iff.rfl
  | cons d ds ih =>
    rw [List.dropWhile_cons]
    split
    case isTrue hd =>
      have hne : c ≠ d := by
        rintro rfl
        rw [hd] at hc
        exact Bool.noConfusion hc
      rw [ih, List.mem_cons, or_iff_right hne]
    case isFalse => exact Iff.rfl

/-- Trimming takes blanks away and nothing else. -/
theorem mem_trim {c : Char} {cs : List Char} (hc : isBlank c = false) : c ∈ trim cs ↔ c ∈ cs := by
  rw [trim, List.mem_reverse, mem_dropWhile_isBlank hc, List.mem_reverse, mem_dropWhile_isBlank hc]

end TokenScan.Text
