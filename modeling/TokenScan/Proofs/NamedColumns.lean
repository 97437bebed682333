/-
Module: TokenScan.Proofs.NamedColumns
Purpose: The columns that a filter looks at are those named at the leaves of its tree, whatever its
  shape. A row scanner that knows some columns evaluates a filter exactly when it knows all of these,
  so it can evaluate a compound filter when it can evaluate the parts, and one that knows more columns
  takes over more filters and gives back none that it took before.
Main exports: Filter.Names, Filter.mem_references_iff, DataLayer.supports_iff,
  DataLayer.enforces_of_wider, support_of_named_columns
-/
import Mathlib
import TokenScan.Proofs.PlannerHistory
import TokenScan.Proofs.TextOrder

namespace TokenScan

/-- The column is named at a leaf of the filter. -/
inductive Filter.Names (column : String) : Filter → Prop where
  | compare (op : Comparison) (value : Literal) : Names column (.compare op column value)
  | isIn (values : List Literal) : Names column (.isIn column values)
  | isNull : Names column (.isNull column)
  | isNotNull : Names column (.isNotNull column)
  | matchText (op : TextMatch) (pattern : String) : Names column (.matchText op column pattern)
  | andLeft {left : Filter} (hleft : Names column left) (right : Filter) :
      Names column (.and left right)
  | andRight (left : Filter) {right : Filter} (hright : Names column right) :
      Names column (.and left right)
  | orLeft {left : Filter} (hleft : Names column left) (right : Filter) :
      Names column (.or left right)
  | orRight (left : Filter) {right : Filter} (hright : Names column right) :
      Names column (.or left right)
  | not {f : Filter} (hfilter : Names column f) : Names column (.not f)

namespace Filter

variable {f left right : Filter} {column : String}

theorem mem_columns_iff : column ∈ f.columns ↔ f.Names column := by
  constructor
  · intro h
    induction f with
    | compare op name value => exact List.mem_singleton.1 h ▸ .compare op value
    | isIn name values => exact List.mem_singleton.1 h ▸ .isIn values
    | isNull name => exact List.mem_singleton.1 h ▸ .isNull
    | isNotNull name => exact List.mem_singleton.1 h ▸ .isNotNull
    | matchText op name pattern => exact List.mem_singleton.1 h ▸ .matchText op pattern
    | and left right ihleft ihright =>
        rcases List.mem_append.1 h with hleft | hright
        · exact .andLeft (ihleft hleft) right
        · exact .andRight left (ihright hright)
    | or left right ihleft ihright =>
        rcases List.mem_append.1 h with hleft | hright
        · exact .orLeft (ihleft hleft) right
        · exact .orRight left (ihright hright)
    | not f ih => exact .not (ih h)
  · intro h
    induction h with
    | compare | isIn | isNull | isNotNull | matchText => exact List.mem_singleton_self column
    | andLeft _ _ ih | orLeft _ _ ih => exact List.mem_append_left _ ih
    | andRight _ _ ih | orRight _ _ ih => exact List.mem_append_right _ ih
    | not _ ih => exact ih

theorem mem_references_iff : column ∈ f.references ↔ f.Names column := by
  rw [references, TextSet.mem_ofList, mem_columns_iff]

/-- Every filter looks at some column. -/
theorem columns_ne_nil (f : Filter) : f.columns ≠ [] := by
  induction f with
  | compare | isIn | isNull | isNotNull | matchText => exact List.cons_ne_nil _ _
  | and left right ihleft _ | or left right ihleft _ => exact List.append_ne_nil_of_left_ne_nil ihleft _
  | not f ih => exact ih

theorem references_ne_nil (f : Filter) : f.references ≠ [] := by
  obtain ⟨column, hcolumn⟩ := List.exists_mem_of_ne_nil _ f.columns_ne_nil
  exact List.ne_nil_of_mem (TextSet.mem_ofList.2 hcolumn)

/-- The columns are in the order of their bytes, each once. -/
theorem pairwise_references (f : Filter) : (f.references.map Text.utf8).Pairwise (· < ·) := by
  rw [List.pairwise_map]
  exact (TextSet.pairwise_ofList f.columns).imp Text.utf8_lt_utf8_iff.2

theorem names_and_iff : (Filter.and left right).Names column ↔
    left.Names column ∨ right.Names column := by
  simp only [← mem_columns_iff, columns, List.mem_append]

theorem names_or_iff : (Filter.or left right).Names column ↔
    left.Names column ∨ right.Names column := by
  simp only [← mem_columns_iff, columns, List.mem_append]

theorem names_not_iff : (Filter.not f).Names column ↔ f.Names column := by
  simp only [← mem_columns_iff, columns]

end Filter

section Supports

variable {digest : Bytes → Bytes} {table : Table} {partitioner : Partitioner} {splitCount : UInt64}
  {filterable : List String}

/-- The row scanner of a table evaluates exactly the filters that name no column beyond those it
    knows. -/
theorem DataLayer.supports_iff {f : Filter} :
    (ofTableWith digest table partitioner splitCount filterable).supports f = true ↔
      ∀ column, f.Names column → column ∈ filterable := by
  simp [ofTableWith, f.references_ne_nil, Filter.mem_references_iff]

/-- A filter that names what two others name is evaluated when both are. -/
theorem DataLayer.supports_of_parts {f left right : Filter}
    (hnames : ∀ column, f.Names column ↔ left.Names column ∨ right.Names column) :
    let layer := ofTableWith digest table partitioner splitCount filterable
    layer.supports f = (layer.supports left && layer.supports right) := by
  intro layer
  rw [Bool.eq_iff_iff, Bool.and_eq_true, supports_iff, supports_iff, supports_iff]
  simp only [hnames, or_imp, forall_and]

end Supports

/-! ### More columns -/

section Wider

variable {layer wider : DataLayer} (htable : wider.table = layer.table)
  (hsupports : ∀ f, layer.supports f = true → wider.supports f = true)

include htable hsupports

/-- A source of the same table whose row scanner evaluates more takes over what it took over before. -/
theorem DataLayer.enforces_of_wider {f : Filter} (h : layer.enforces f = true) :
    wider.enforces f = true := by
  rw [enforces, Bool.or_eq_true] at h ⊢
  rw [htable]
  exact h.imp_right (hsupports f)

/-- What is pushed stays pushed, in its place among the others, and nothing new is given back. -/
theorem Planner.push_of_wider (p : Planner) (filters : List Filter) :
    (p.push layer filters).planner.pushed.Sublist (p.push wider filters).planner.pushed ∧
      (p.push wider filters).answer.Sublist (p.push layer filters).answer ∧
      ∀ f ∈ (p.push layer filters).planner.pushed, f ∉ (p.push wider filters).answer := by
  have henforces : ∀ f, layer.enforces f = true → wider.enforces f = true :=
    fun _ => DataLayer.enforces_of_wider htable hsupports
  simp only [push_planner, push_answer]
  refine ⟨List.monotone_filter_right filters henforces, ?_, ?_⟩
  · apply List.monotone_filter_right
    intro f hleft
    rw [Bool.not_eq_true'] at hleft ⊢
    exact Bool.eq_false_iff.2 fun h => Bool.eq_false_iff.1 hleft (henforces f h)
  · intro f hf hleft
    have hkept := henforces f (List.mem_filter.1 hf).2
    simpa [hkept] using (List.mem_filter.1 hleft).2

end Wider

/-- The columns that a filter refers to are, in the order of their bytes and each once, those named at
    its leaves, and there is always one. The row scanner of a table evaluates the filter exactly when it
    knows all of them; so it evaluates a conjunction or a disjunction when it evaluates both sides and a
    negation when it evaluates what is negated. When it knows more columns it evaluates no fewer
    filters, and no filter that a push kept is given back then. -/
theorem support_of_named_columns (digest : Bytes → Bytes) (table : Table) (partitioner : Partitioner)
    (splitCount : UInt64) (f : Filter) :
    let layer := DataLayer.ofTableWith digest table partitioner splitCount
    f.references ≠ [] ∧ (f.references.map Text.utf8).Pairwise (· < ·) ∧
    (∀ column, column ∈ f.references ↔ f.Names column) ∧
    ∀ filterable,
      ((layer filterable).supports f = true ↔ ∀ column, f.Names column → column ∈ filterable) ∧
      (∀ g, (layer filterable).supports (.and f g) =
        ((layer filterable).supports f && (layer filterable).supports g)) ∧
      (∀ g, (layer filterable).supports (.or f g) =
        ((layer filterable).supports f && (layer filterable).supports g)) ∧
      (layer filterable).supports (.not f) = (layer filterable).supports f ∧
      ∀ wider, filterable ⊆ wider →
        ((layer filterable).supports f = true → (layer wider).supports f = true) ∧
        ∀ (p : Planner) (filters : List Filter),
          let before := p.push (layer filterable) filters
          let after := p.push (layer wider) filters
          before.planner.pushed.Sublist after.planner.pushed ∧ after.answer.Sublist before.answer ∧
            ∀ g ∈ before.planner.pushed, g ∉ after.answer := by
  intro layer
  refine ⟨f.references_ne_nil, f.pairwise_references, fun _ => Filter.mem_references_iff, ?_⟩
  intro filterable
  refine ⟨DataLayer.supports_iff, ?_, ?_, ?_, ?_⟩
  · intro g
    exact DataLayer.supports_of_parts fun _ => Filter.names_and_iff
  · intro g
    exact DataLayer.supports_of_parts fun _ => Filter.names_or_iff
  · rw [Bool.eq_iff_iff, DataLayer.supports_iff, DataLayer.supports_iff]
    simp only [Filter.names_not_iff]
  · intro wider hwider
    have hsupports : ∀ g, (layer filterable).supports g = true → (layer wider).supports g = true := by
      intro g hg
      rw [DataLayer.supports_iff] at hg ⊢
      exact fun column hcolumn => hwider (hg column hcolumn)
    exact ⟨hsupports f, Planner.push_of_wider rfl hsupports⟩

end TokenScan
