/-
Module: TokenScan.Proofs.FilterEquality
Purpose: What equality of filters leaves open. Floats are compared as numbers, so two equal filters
  may differ in the signs of zeros and in nothing else, and a filter that holds a not-a-number equals
  none. Two filters that are equal and pin a column pin the same one, and with the same texts unless a
  zero is among their constants.
Main exports: Literal.IsZero, Literal.same_iff, Filter.HoldsNaN, Filter.same_self_iff,
  Filter.sameList_self_iff, Filter.same_trans, Filter.sameList_trans, Filter.shape_of_same,
  Filter.pinOn_eq_of_same
-/
import TokenScan.Proofs.PinnedValues
import TokenScan.Proofs.Traversal

namespace TokenScan

namespace Literal

/-- A float that is zero, of either sign. -/
def IsZero : Literal → Prop
  | .float bits => Binary.binary64.magnitude bits.toNat = 0
  | _ => False

/-- A float that is not a number. -/
def IsNaN : Literal → Prop
  | .float bits => Binary.binary64.isNaN bits.toNat = true
  | _ => False

theorem IsZero.not_isNaN {a : Literal} (h : a.IsZero) : ¬ a.IsNaN := by
  cases a with
  | float bits =>
      simp only [IsZero] at h
      simp [IsNaN, Binary.Format.isNaN, h]
  | _ => exact h.elim

/-- Two literals are equal when they are one literal and not a not-a-number, or both zero. -/
theorem same_iff {a b : Literal} :
    a.same b = true ↔ (a = b ∧ ¬ a.IsNaN) ∨ (a.IsZero ∧ b.IsZero) := by
  cases a with
  | float m =>
      cases b with
      | float n =>
          have hzero := @IsZero.not_isNaN (.float m)
          have hzero' := @IsZero.not_isNaN (.float n)
          simp only [same, Binary.Binary64.same, IsZero, IsNaN, Bool.and_eq_true, Bool.or_eq_true,
            Bool.not_eq_true', beq_iff_eq, Literal.float.injEq] at hzero hzero' ⊢
          grind
      | _ => simp [same, IsZero]
  | _ => cases b <;> simp [same, IsZero, IsNaN]

theorem same_trans {a b c : Literal} (hab : a.same b = true) (hbc : b.same c = true) :
    a.same c = true := by
  rw [same_iff] at hab hbc ⊢
  grind

/-- A literal equals itself unless it is not a number. -/
theorem same_self_iff {a : Literal} : a.same a = true ↔ ¬ a.IsNaN := by
  rw [same_iff]
  constructor
  · rintro (⟨-, hnumber⟩ | ⟨hzero, -⟩)
    · exact hnumber
    · exact hzero.not_isNaN
  · exact fun hnumber => .inl ⟨rfl, hnumber⟩

theorem same_isNull {a b : Literal} (h : a.same b = true) : a.isNull = b.isNull := by
  rcases same_iff.1 h with ⟨rfl, -⟩ | ⟨ha, hb⟩
  · rfl
  · cases a <;> cases b <;> simp_all [IsZero, isNull]

/-- Where no zero is concerned, equal literals read the same. -/
theorem render_eq_of_same {a b : Literal} (h : a.same b = true) (hzero : ¬ a.IsZero) :
    a.render = b.render := by
  rcases same_iff.1 h with ⟨rfl, -⟩ | ⟨ha, -⟩
  · rfl
  · exact absurd ha hzero

theorem map_render_eq_of_same {as bs : List Literal}
    (h : List.Forall₂ (fun a b => a.same b = true) as bs) (hzero : ∀ a ∈ as, ¬ a.IsZero) :
    as.map render = bs.map render := by
  induction h with
  | nil => rfl
  | cons hhead _ ih =>
      rw [List.map_cons, List.map_cons, render_eq_of_same hhead (hzero _ List.mem_cons_self),
        ih fun a ha => hzero a (List.mem_cons_of_mem _ ha)]

end Literal

namespace Filter

theorem sameLiterals_iff {as bs : List Literal} :
    sameLiterals as bs = true ↔ List.Forall₂ (fun a b => a.same b = true) as bs := by
  induction as generalizing bs with
  | nil => cases bs <;> simp [sameLiterals]
  | cons a as ih => cases bs <;> simp [sameLiterals, ih]

theorem sameList_iff {fs gs : List Filter} :
    sameList fs gs = true ↔ List.Forall₂ (fun f g => f.same g = true) fs gs := by
  induction fs generalizing gs with
  | nil => cases gs <;> simp [sameList]
  | cons f fs ih => cases gs <;> simp [sameList, ih]

/-- A constant somewhere in the filter is not a number. -/
def HoldsNaN : Filter → Prop
  | .compare _ _ value => value.IsNaN
  | .isIn _ values => ∃ value ∈ values, value.IsNaN
  | .and left right => left.HoldsNaN ∨ right.HoldsNaN
  | .or left right => left.HoldsNaN ∨ right.HoldsNaN
  | .not filter => filter.HoldsNaN
  | _ => False

/-- A filter equals itself unless it holds a not-a-number. -/
theorem same_self_iff {f : Filter} : f.same f = true ↔ ¬ f.HoldsNaN := by
  induction f with
  | compare op column value => simp [same, HoldsNaN, Literal.same_self_iff]
  | isIn column values =>
      simp [same, HoldsNaN, sameLiterals_iff, List.forall₂_same, Literal.same_self_iff]
  | isNull column | isNotNull column | matchText op column pattern => simp [same, HoldsNaN]
  | and left right ihl ihr | or left right ihl ihr => simp [same, HoldsNaN, ihl, ihr]
  | not filter ih => simp [same, HoldsNaN, ih]

theorem sameList_self_iff {fs : List Filter} :
    sameList fs fs = true ↔ ∀ f ∈ fs, ¬ f.HoldsNaN := by
  simp [sameList_iff, List.forall₂_same, same_self_iff]

/-- Equality of filters is transitive. -/
theorem same_trans {f g h : Filter} (hfg : f.same g = true) (hgh : g.same h = true) :
    f.same h = true := by
  induction f generalizing g h with
  | compare op column value =>
      cases g <;> simp [same] at hfg
      cases h <;> simp [same] at hgh ⊢
      exact ⟨⟨hfg.1.1.trans hgh.1.1, hfg.1.2.trans hgh.1.2⟩, Literal.same_trans hfg.2 hgh.2⟩
  | isIn column values =>
      cases g <;> simp [same, sameLiterals_iff] at hfg
      cases h <;> simp [same, sameLiterals_iff] at hgh ⊢
      exact ⟨hfg.1.trans hgh.1,
        forall₂_trans (r := fun a b : Literal => a.same b = true) Literal.same_trans hfg.2 hgh.2⟩
  | isNull column | isNotNull column =>
      cases g <;> simp [same] at hfg
      cases h <;> simp [same] at hgh ⊢
      exact hfg.trans hgh
  | matchText op column pattern =>
      cases g <;> simp [same] at hfg
      cases h <;> simp [same] at hgh ⊢
      exact ⟨⟨hfg.1.1.trans hgh.1.1, hfg.1.2.trans hgh.1.2⟩, hfg.2.trans hgh.2⟩
  | and left right ihl ihr | or left right ihl ihr =>
      cases g <;> simp [same] at hfg
      cases h <;> simp [same] at hgh ⊢
      exact ⟨ihl hfg.1 hgh.1, ihr hfg.2 hgh.2⟩
  | not filter ih =>
      cases g <;> simp [same] at hfg
      cases h <;> simp [same] at hgh ⊢
      exact ih hfg hgh

theorem sameList_trans {fs gs hs : List Filter} (hfg : sameList fs gs = true)
    (hgh : sameList gs hs = true) : sameList fs hs = true := by
  rw [sameList_iff] at hfg hgh ⊢
  exact forall₂_trans (r := fun f g : Filter => f.same g = true) same_trans hfg hgh

theorem any_isNull_of_sameLiterals {as bs : List Literal} (h : sameLiterals as bs = true) :
    as.any Literal.isNull = bs.any Literal.isNull := by
  rw [sameLiterals_iff] at h
  induction h with
  | nil => rfl
  | cons hhead _ ih => rw [List.any_cons, List.any_cons, Literal.same_isNull hhead, ih]

/-- Equal filters have one shape: they pin the same column, to equal constants. -/
theorem shape_of_same {f g : Filter} (h : f.same g = true) :
    f.shape.column? = g.shape.column? ∧
      List.Forall₂ (fun a b => a.same b = true) f.shape.literals g.shape.literals := by
  cases f with
  | compare op column value =>
      cases g with
      | compare op' column' value' =>
          simp only [same, Bool.and_eq_true, decide_eq_true_eq] at h
          obtain ⟨⟨rfl, rfl⟩, hvalue⟩ := h
          cases op with
          | equal =>
              simp only [shape, ← Literal.same_isNull hvalue]
              split
              · exact ⟨rfl, .nil⟩
              · exact ⟨rfl, .cons hvalue .nil⟩
          | _ => exact ⟨rfl, .nil⟩
      | _ => simp [same] at h
  | isIn column values =>
      cases g with
      | isIn column' values' =>
          simp only [same, Bool.and_eq_true, decide_eq_true_eq] at h
          obtain ⟨rfl, hvalues⟩ := h
          simp only [shape, ← any_isNull_of_sameLiterals hvalues]
          split
          · exact ⟨rfl, .nil⟩
          · exact ⟨rfl, sameLiterals_iff.1 hvalues⟩
      | _ => simp [same] at h
  | _ => cases g <;> first | exact ⟨rfl, .nil⟩ | simp [same] at h

/-- Equal filters pin a column with the same texts when no constant is a zero. -/
theorem pinOn_eq_of_same {f g : Filter} (h : f.same g = true) {column : String}
    (hzero : f.Pins column → ∀ literal ∈ f.shape.literals, ¬ literal.IsZero) :
    f.pinOn column = g.pinOn column := by
  obtain ⟨hcolumn, hliterals⟩ := shape_of_same h
  simp only [pinOn, ← hcolumn]
  split
  · next hpins => rw [Literal.map_render_eq_of_same hliterals (hzero hpins)]
  · rfl

/-- Equal lists of filters leave a column the same texts when no pin on it holds a zero. -/
theorem pinnedTexts_eq_of_sameList {fs gs : List Filter} (h : sameList fs gs = true)
    {column : String}
    (hzero : ∀ f ∈ fs, f.Pins column → ∀ literal ∈ f.shape.literals, ¬ literal.IsZero) :
    pinnedTexts fs column = pinnedTexts gs column := by
  have hpins : fs.filterMap (·.pinOn column) = gs.filterMap (·.pinOn column) := by
    rw [sameList_iff] at h
    induction h with
    | nil => rfl
    | cons hhead _ ih =>
        rw [List.filterMap_cons, List.filterMap_cons,
          pinOn_eq_of_same hhead (hzero _ List.mem_cons_self),
          ih fun f hf => hzero f (List.mem_cons_of_mem _ hf)]
  simp only [pinnedTexts, hpins]

end Filter

end TokenScan
