/-
Module: TokenScan.Proofs.SortedSets
Purpose: Sorting and dropping repeats gives a strictly increasing list, for texts in the order of
  their code points and for targets in ring order. A strictly increasing list is determined by its
  members, which is why these lists can stand for sets.
Main exports: pairwise_sortDistinct, length_sortDistinct_le, TextSet.pairwise_ofList, TextSet.pairwise_inter,
  KeyTarget.Before, KeyTarget.pairwise_ringOrder, KeyTarget.mem_ringOrder
-/
import TokenScan.Ring.KeyTarget
import TokenScan.Text.Sorted

namespace TokenScan

/-! ### Dropping repeats -/

section Repeats

variable {α : Type} [DecidableEq α]

/-- In a sorted list equal members are neighbours, so none is left twice. -/
theorem pairwise_dropRepeats {le : α → α → Bool}
    (antisymm : ∀ a b, le a b = true → le b a = true → a = b) {xs : List α}
    (hsorted : xs.Pairwise fun a b => le a b = true) :
    (dropRepeats xs).Pairwise fun a b => le a b = true ∧ a ≠ b := by
  induction xs using dropRepeats.induct with
  | case1 => simp [dropRepeats]
  | case2 x => simp [dropRepeats]
  | case3 y rest ih =>
      simp only [dropRepeats]
      exact ih (List.pairwise_cons.1 hsorted).2
  | case4 x y rest hne ih =>
      obtain ⟨hx, htail⟩ := List.pairwise_cons.1 hsorted
      simp only [dropRepeats, if_neg hne]
      refine List.pairwise_cons.2 ⟨?_, ih htail⟩
      intro z hz
      have hz' : z ∈ y :: rest := mem_dropRepeats.1 hz
      refine ⟨hx z hz', ?_⟩
      rintro rfl
      -- A second `x` would come after `y`, which then lies between two equal members.
      have hyx : le y x = true := by
        rcases List.mem_cons.1 hz' with heq | hrest
        · exact absurd heq hne
        · exact (List.pairwise_cons.1 htail).1 x hrest
      exact hne (antisymm x y (hx y List.mem_cons_self) hyx)

theorem length_dropRepeats_le (xs : List α) : (dropRepeats xs).length ≤ xs.length := by
  induction xs using dropRepeats.induct with
  | case1 => simp [dropRepeats]
  | case2 x => simp [dropRepeats]
  | case3 y rest ih =>
      rw [dropRepeats, if_pos rfl]
      exact Nat.le_succ_of_le ih
  | case4 x y rest hne ih =>
      rw [dropRepeats, if_neg hne]
      exact Nat.succ_le_succ ih

theorem length_sortDistinct_le (le : α → α → Bool) (xs : List α) :
    (sortDistinct le xs).length ≤ xs.length := by
  calc (sortDistinct le xs).length ≤ (xs.mergeSort le).length := length_dropRepeats_le _
    _ = xs.length := List.length_mergeSort xs

/-- Sorting by a total order and dropping repeats gives a strictly increasing list. -/
theorem pairwise_sortDistinct {le : α → α → Bool}
    (trans : ∀ a b c, le a b = true → le b c = true → le a c = true)
    (total : ∀ a b, (le a b || le b a) = true)
    (antisymm : ∀ a b, le a b = true → le b a = true → a = b) (xs : List α) :
    (sortDistinct le xs).Pairwise fun a b => le a b = true ∧ a ≠ b :=
  pairwise_dropRepeats antisymm (List.pairwise_mergeSort trans total xs)

end Repeats

/-! ### Sets of texts -/

namespace TextSet

/-- The set of a list is strictly increasing. -/
theorem pairwise_ofList (xs : List String) : (ofList xs).Pairwise (· < ·) := by
  have htrans : ∀ a b c : String, decide (a ≤ b) = true → decide (b ≤ c) = true →
      decide (a ≤ c) = true := by
    intro a b c hab hbc
    rw [decide_eq_true_eq] at hab hbc ⊢
    exact Std.le_trans hab hbc
  have htotal : ∀ a b : String, (decide (a ≤ b) || decide (b ≤ a)) = true := by
    intro a b
    rw [Bool.or_eq_true, decide_eq_true_eq, decide_eq_true_eq]
    exact Std.le_total
  have hantisymm : ∀ a b : String, decide (a ≤ b) = true → decide (b ≤ a) = true → a = b := by
    intro a b hab hba
    rw [decide_eq_true_eq] at hab hba
    exact Std.le_antisymm hab hba
  apply (pairwise_sortDistinct htrans htotal hantisymm xs).imp
  intro a b hab
  obtain ⟨hle, hne⟩ := hab
  rw [decide_eq_true_eq] at hle
  exact Std.lt_of_le_of_ne hle hne

instance : Std.Associative TextSet.inter where
  assoc s t u := by
    simp only [inter, List.filter_filter]
    refine List.filter_congr fun text _ => ?_
    rw [Bool.eq_iff_iff]
    simp [and_comm]

/-- An intersection is strictly increasing where the first set is. -/
theorem pairwise_inter {s t : TextSet} (hs : s.Pairwise (· < ·)) : (inter s t).Pairwise (· < ·) :=
  hs.sublist List.filter_sublist

end TextSet

/-! ### Targets in ring order -/

namespace KeyTarget

/-- The target comes first on the ring: its token is less, or equal with a lesser key. -/
def Before (a b : KeyTarget) : Prop :=
  a.token < b.token ∨ (a.token = b.token ∧ a.key < b.key)

/-- Ring order is the strict order together with equality. -/
theorem atMost_iff {a b : KeyTarget} : a.atMost b = true ↔ a.Before b ∨ a = b := by
  cases a with
  | mk ka ta =>
  cases b with
  | mk kb tb =>
      simp only [atMost, Before, KeyTarget.mk.injEq]
      split
      · next hne =>
          simp only [decide_eq_true_eq]
          grind
      · next heq =>
          simp only [decide_eq_true_eq, List.le_iff_lt_or_eq]
          grind

/-- No target comes before itself. -/
theorem Before.irrefl {a : KeyTarget} : ¬ a.Before a := by
  rintro (htoken | ⟨-, hkey⟩)
  · exact absurd htoken (Int.lt_irrefl _)
  · exact absurd hkey (List.lt_irrefl _)

/-- Coming before is transitive. -/
theorem Before.trans {a b c : KeyTarget} (hab : a.Before b) (hbc : b.Before c) : a.Before c := by
  rcases hab with hab | ⟨hab, hkab⟩ <;> rcases hbc with hbc | ⟨hbc, hkbc⟩
  · exact .inl (Int.lt_trans hab hbc)
  · exact .inl (hbc ▸ hab)
  · exact .inl (hab ▸ hbc)
  · exact .inr ⟨hab.trans hbc, List.lt_trans hkab hkbc⟩

/-- Of two different targets one comes before the other. -/
theorem before_or_before {a b : KeyTarget} (hne : a ≠ b) : a.Before b ∨ b.Before a := by
  rcases Int.lt_trichotomy a.token b.token with hlt | heq | hgt
  · exact .inl (.inl hlt)
  · by_cases hkey : a.key < b.key
    · exact .inl (.inr ⟨heq, hkey⟩)
    · rcases List.le_iff_lt_or_eq.1 (List.not_lt.1 hkey) with hlt | hsame
      · exact .inr (.inr ⟨heq.symm, hlt⟩)
      · cases a
        cases b
        exact absurd (by simp_all) hne
  · exact .inr (.inl hgt)

/-- The targets in ring order are strictly increasing. -/
theorem pairwise_ringOrder (targets : List KeyTarget) : (ringOrder targets).Pairwise Before := by
  have htrans : ∀ a b c : KeyTarget, a.atMost b = true → b.atMost c = true → a.atMost c = true := by
    intro a b c hab hbc
    rw [atMost_iff] at hab hbc ⊢
    rcases hab with hab | rfl
    · rcases hbc with hbc | rfl
      · exact .inl (hab.trans hbc)
      · exact .inl hab
    · exact hbc
  have htotal : ∀ a b : KeyTarget, (a.atMost b || b.atMost a) = true := by
    intro a b
    simp only [Bool.or_eq_true, atMost_iff]
    by_cases heq : a = b
    · exact .inl (.inr heq)
    · exact (before_or_before heq).imp .inl .inl
  have hantisymm : ∀ a b : KeyTarget, a.atMost b = true → b.atMost a = true → a = b := by
    intro a b hab hba
    rcases atMost_iff.1 hab with hab | heq
    · rcases atMost_iff.1 hba with hba | heq
      · exact absurd (hab.trans hba) Before.irrefl
      · exact heq.symm
    · exact heq
  apply (pairwise_sortDistinct htrans htotal hantisymm targets).imp
  intro a b hab
  exact (atMost_iff.1 hab.1).resolve_right hab.2

/-- Ring order keeps every target. -/
@[simp] theorem mem_ringOrder {target : KeyTarget} {targets : List KeyTarget} :
    target ∈ ringOrder targets ↔ target ∈ targets :=
  mem_sortDistinct

end KeyTarget

end TokenScan
