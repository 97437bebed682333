/-
Module: TokenScan.Proofs.PinnedValues
Purpose: The texts that a conjunction of filters leaves to a column, as a set. The planner keeps them
  as a list that it shrinks pin by pin; here each text is judged on its own: it stays when every pin
  on the column compares the column with it.
Main exports: Filter.Pins, Filter.Allows, IsPinned, allowedTexts, pinnedTexts_eq_none_iff,
  mem_pinnedTexts, length_pinnedTexts, pinnedTexts_congr, texts?_ofFilters_eq, Pins.ofFilters_congr
-/
import Mathlib.Data.List.Sort
import Mathlib.Data.Set.Card
import TokenScan.Plan.Pins
import TokenScan.Proofs.SortedSets

namespace TokenScan

/-- The filter is an equality or a membership that pins the column. -/
def Filter.Pins (f : Filter) (column : String) : Prop :=
  f.shape.column? = some column

/-- The text is that of a constant which the filter compares its column with. -/
def Filter.Allows (f : Filter) (text : String) : Prop :=
  ∃ literal ∈ f.shape.literals, literal.render = text

/-- Some filter of the list pins the column. -/
def IsPinned (filters : List Filter) (column : String) : Prop :=
  ∃ f ∈ filters, f.Pins column

/-- The texts that every pin on the column allows. -/
def allowedTexts (filters : List Filter) (column : String) : Set String :=
  {text | ∀ f ∈ filters, f.Pins column → f.Allows text}

/-- A filter hands over its texts for the column that it pins and for no other. -/
theorem Filter.pinOn_eq_some_iff {f : Filter} {column : String} {texts : TextSet} :
    f.pinOn column = some texts ↔
      f.Pins column ∧ texts = .ofList (f.shape.literals.map Literal.render) := by
  simp only [Filter.pinOn, Filter.Pins]
  split
  · next hpins => simp [hpins, eq_comm]
  · next hpins => simp [hpins]

/-- The pins on a column, in the order of the filters. -/
theorem mem_filterMap_pinOn {filters : List Filter} {column : String} {texts : TextSet} :
    texts ∈ filters.filterMap (·.pinOn column) ↔
      ∃ f ∈ filters, f.Pins column ∧ texts = .ofList (f.shape.literals.map Literal.render) := by
  simp only [List.mem_filterMap, Filter.pinOn_eq_some_iff]

/-- What is left after some intersections is what every one of them has. -/
theorem mem_foldl_inter {text : String} {first : TextSet} {rest : List TextSet} :
    text ∈ rest.foldl TextSet.inter first ↔ text ∈ first ∧ ∀ s ∈ rest, text ∈ s := by
  induction rest generalizing first with
  | nil => simp
  | cons s rest ih => simp [ih, and_assoc]

/-- Intersections leave a strictly increasing list so. -/
theorem pairwise_foldl_inter {first : TextSet} (hfirst : first.Pairwise (· < ·))
    (rest : List TextSet) : (rest.foldl TextSet.inter first).Pairwise (· < ·) := by
  induction rest generalizing first with
  | nil => exact hfirst
  | cons s rest ih => exact ih (TextSet.pairwise_inter hfirst)

/-- A column has no texts exactly when it is not pinned. -/
theorem pinnedTexts_eq_none_iff {filters : List Filter} {column : String} :
    pinnedTexts filters column = none ↔ ¬ IsPinned filters column := by
  have hpins : filters.filterMap (·.pinOn column) = [] ↔ ¬ IsPinned filters column := by
    rw [List.eq_nil_iff_forall_not_mem]
    simp only [mem_filterMap_pinOn, IsPinned]
    constructor
    · rintro h ⟨f, hf, hpins⟩
      exact h _ ⟨f, hf, hpins, rfl⟩
    · rintro h texts ⟨f, hf, hpins, -⟩
      exact h ⟨f, hf, hpins⟩
  rw [← hpins]
  unfold pinnedTexts
  split
  · next hnil => simp [hnil]
  · next first rest hcons => simp [hcons]

/-- The texts of a pinned column are those that every pin allows. -/
theorem mem_pinnedTexts {filters : List Filter} {column : String} {texts : TextSet}
    (htexts : pinnedTexts filters column = some texts) {text : String} :
    text ∈ texts ↔ text ∈ allowedTexts filters column := by
  have hall : (∀ s ∈ filters.filterMap (·.pinOn column), text ∈ s) ↔
      text ∈ allowedTexts filters column := by
    constructor
    · intro h f hf hpins
      have hmem := h _ (mem_filterMap_pinOn.2 ⟨f, hf, hpins, rfl⟩)
      simpa [Filter.Allows] using hmem
    · intro h s hs
      obtain ⟨f, hf, hpins, rfl⟩ := mem_filterMap_pinOn.1 hs
      simpa [Filter.Allows] using h f hf hpins
  rw [← hall]
  unfold pinnedTexts at htexts
  split at htexts
  · simp at htexts
  · next first rest hcons =>
      obtain rfl := Option.some.inj htexts
      rw [hcons, mem_foldl_inter, List.forall_mem_cons]

/-- The texts of a pinned column are strictly increasing. -/
theorem pairwise_pinnedTexts {filters : List Filter} {column : String} {texts : TextSet}
    (htexts : pinnedTexts filters column = some texts) : texts.Pairwise (· < ·) := by
  unfold pinnedTexts at htexts
  split at htexts
  · simp at htexts
  · next first rest hcons =>
      obtain rfl := Option.some.inj htexts
      have hmem : first ∈ filters.filterMap (·.pinOn column) := hcons ▸ List.mem_cons_self
      obtain ⟨f, -, -, rfl⟩ := mem_filterMap_pinOn.1 hmem
      exact pairwise_foldl_inter (TextSet.pairwise_ofList _) rest

/-- The list of the texts is as long as their set is large. -/
theorem length_pinnedTexts {filters : List Filter} {column : String} {texts : TextSet}
    (htexts : pinnedTexts filters column = some texts) :
    texts.length = (allowedTexts filters column).ncard := by
  have hnodup : texts.Nodup := (pairwise_pinnedTexts htexts).imp Std.ne_of_lt
  have hset : allowedTexts filters column = (texts.toFinset : Set String) := by
    ext text
    simp [← mem_pinnedTexts htexts]
  rw [hset, Set.ncard_coe_finset, List.toFinset_card_of_nodup hnodup]

/-- The texts of a column are determined by whether it is pinned and by what all pins allow. -/
theorem pinnedTexts_congr {filters others : List Filter} {column : String}
    (hpinned : IsPinned filters column ↔ IsPinned others column)
    (hallowed : allowedTexts filters column = allowedTexts others column) :
    pinnedTexts filters column = pinnedTexts others column := by
  cases htexts : pinnedTexts filters column with
  | none =>
      rw [eq_comm, pinnedTexts_eq_none_iff, ← hpinned]
      exact pinnedTexts_eq_none_iff.1 htexts
  | some texts =>
      cases hothers : pinnedTexts others column with
      | none =>
          rw [pinnedTexts_eq_none_iff, ← hpinned, ← pinnedTexts_eq_none_iff, htexts] at hothers
          exact absurd hothers (Option.some_ne_none texts)
      | some kept =>
          have hmem : ∀ text, text ∈ texts ↔ text ∈ kept := by
            intro text
            rw [mem_pinnedTexts htexts, mem_pinnedTexts hothers, hallowed]
          rw [(pairwise_pinnedTexts htexts).eq_of_mem_iff (pairwise_pinnedTexts hothers) hmem]

/-- The entries made for some names answer for exactly those names. -/
theorem lookup_filterMap_entries (found : String → Option TextSet) (column : String)
    (names : List String) :
    (names.filterMap fun c => (found c).map fun texts => (c, texts)).lookup column =
      if column ∈ names then found column else none := by
  induction names with
  | nil => simp
  | cons name names ih =>
      cases hfound : found name with
      | none =>
          simp only [List.filterMap_cons, hfound, Option.map_none, ih, List.mem_cons]
          by_cases hname : column = name
          · simp [hname, hfound]
          · simp [hname]
      | some texts =>
          simp only [List.filterMap_cons, hfound, Option.map_some, List.lookup_cons, ih,
            List.mem_cons]
          by_cases hname : column = name
          · simp [hname, hfound]
          · simp [hname, beq_eq_false_iff_ne.2 hname]

/-- Looking up a key column gives what the filters pin there, and there is no other column. -/
theorem texts?_ofFilters_eq (filters : List Filter) (columns : List String) (column : String) :
    (Pins.ofFilters filters columns).texts? column =
      if column ∈ columns then pinnedTexts filters column else none := by
  rw [Pins.texts?, Pins.ofFilters, lookup_filterMap_entries]
  simp only [TextSet.mem_ofList]

theorem texts?_ofFilters {filters : List Filter} {columns : List String} {column : String}
    (hcolumn : column ∈ columns) :
    (Pins.ofFilters filters columns).texts? column = pinnedTexts filters column := by
  rw [texts?_ofFilters_eq, if_pos hcolumn]

/-- Filters that leave every key column the same texts pin the same. -/
theorem Pins.ofFilters_congr {filters others : List Filter} {columns : List String}
    (h : ∀ column ∈ columns, pinnedTexts filters column = pinnedTexts others column) :
    Pins.ofFilters filters columns = Pins.ofFilters others columns := by
  refine List.filterMap_congr fun column hcolumn => ?_
  rw [h column (TextSet.mem_ofList.1 hcolumn)]

end TokenScan
