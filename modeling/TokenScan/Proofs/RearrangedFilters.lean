/-
Module: TokenScan.Proofs.RearrangedFilters
Purpose: A plan does not depend on the way the filters are put: on their order, on repeats, on how a
  list names its constants, or on whether one constant is named by an equality or by a list. Through
  all of these each filter keeps a partner that pins the same column to the same constants, and so
  each key column keeps its texts. Failures are the same too, since they depend on the texts alone.
  A table that was shipped may hide a key column behind another of its name, and then a pin is
  enforced or not by the way it is put.
Main exports: Filter.Respelled, Rearrangement, Rearranged, Filter.PinsLike, Covers,
  Rearrangement.covers, Rearranged.covers, targets_of_covers, plan_of_rearranged,
  exists_rearranged_of_hidden_key
-/
import Mathlib
import TokenScan.Proofs.PlannedKeys
import TokenScan.Transport.Payload
import TokenScan.Transport.Schema

namespace TokenScan

/-- The second filter is the first with the constants of its lists in another order or number, or
    with an equality in place of a list of one constant, or the reverse. Null equals nothing, so it
    stays as it is. -/
inductive Filter.Respelled : Filter → Filter → Prop where
  | refl (f : Filter) : Respelled f f
  | relisted {column : String} {values others : List Literal}
      (hmem : ∀ literal, literal ∈ others ↔ literal ∈ values) :
      Respelled (.isIn column values) (.isIn column others)
  | listed {column : String} {value : Literal} (hvalue : value.isNull = false) :
      Respelled (.compare .equal column value) (.isIn column [value])
  | unlisted {column : String} {value : Literal} (hvalue : value.isNull = false) :
      Respelled (.isIn column [value]) (.compare .equal column value)
  | and {left right left' right' : Filter} (hleft : Respelled left left')
      (hright : Respelled right right') : Respelled (.and left right) (.and left' right')
  | or {left right left' right' : Filter} (hleft : Respelled left left')
      (hright : Respelled right right') : Respelled (.or left right) (.or left' right')
  | not {f f' : Filter} (hfilter : Respelled f f') : Respelled (.not f) (.not f')

/-- One change of the way a list of filters is put. -/
inductive Rearrangement : List Filter → List Filter → Prop where
  | permuted {filters others : List Filter} (hperm : filters.Perm others) :
      Rearrangement filters others
  | repeated {filters : List Filter} {f : Filter} (hmem : f ∈ filters) :
      Rearrangement filters (f :: filters)
  | respelled {filters others : List Filter} (hall : List.Forall₂ Filter.Respelled filters others) :
      Rearrangement filters others

/-- Any number of changes, one after the other. -/
def Rearranged : List Filter → List Filter → Prop :=
  Relation.ReflTransGen Rearrangement

/-! ### Partners -/

/-- The two filters pin the same column, or none, to the same constants. -/
structure Filter.PinsLike (f g : Filter) : Prop where
  column? : f.shape.column? = g.shape.column?
  literals : ∀ literal, literal ∈ f.shape.literals ↔ literal ∈ g.shape.literals

namespace Filter

theorem PinsLike.refl (f : Filter) : f.PinsLike f :=
  ⟨rfl, fun _ => Iff.rfl⟩

theorem PinsLike.symm {f g : Filter} (h : f.PinsLike g) : g.PinsLike f :=
  ⟨h.column?.symm, fun literal => (h.literals literal).symm⟩

theorem PinsLike.trans {f g k : Filter} (hfg : f.PinsLike g) (hgk : g.PinsLike k) : f.PinsLike k :=
  ⟨hfg.column?.trans hgk.column?, fun literal => (hfg.literals literal).trans (hgk.literals literal)⟩

theorem PinsLike.pins {f g : Filter} (h : f.PinsLike g) {column : String} (hpins : f.Pins column) :
    g.Pins column := by
  rw [Pins] at hpins ⊢
  rw [← h.column?, hpins]

theorem PinsLike.allows {f g : Filter} (h : f.PinsLike g) {text : String} (hallows : f.Allows text) :
    g.Allows text := by
  obtain ⟨literal, hliteral, hrender⟩ := hallows
  exact ⟨literal, (h.literals literal).1 hliteral, hrender⟩

/-- Another spelling pins the same; a filter with others below it pins nothing either way. -/
theorem Respelled.pinsLike {f g : Filter} (h : f.Respelled g) : f.PinsLike g := by
  cases h with
  | refl => exact .refl f
  | @relisted column values others hmem =>
      have hnull : values.any Literal.isNull = others.any Literal.isNull := by
        rw [Bool.eq_iff_iff, List.any_eq_true, List.any_eq_true]
        simp only [hmem]
      constructor
      · simp only [shape, hnull]
        split <;> rfl
      · intro literal
        simp only [shape, hnull]
        split
        · exact Iff.rfl
        · exact (hmem literal).symm
  | listed hvalue => constructor <;> simp [shape, hvalue, Shape.column?, Shape.literals]
  | unlisted hvalue => constructor <;> simp [shape, hvalue, Shape.column?, Shape.literals]
  | and => exact ⟨rfl, fun _ => Iff.rfl⟩
  | or => exact ⟨rfl, fun _ => Iff.rfl⟩
  | not => exact ⟨rfl, fun _ => Iff.rfl⟩

end Filter

/-- Each of the filters has a partner among the others. -/
def Covers (filters others : List Filter) : Prop :=
  ∀ f ∈ filters, ∃ g ∈ others, f.PinsLike g

namespace Covers

variable {filters others further : List Filter} {column : String}

theorem of_subset (h : filters ⊆ others) : Covers filters others :=
  fun f hf => ⟨f, h hf, .refl f⟩

theorem trans (hto : Covers filters others) (hon : Covers others further) :
    Covers filters further := by
  intro f hf
  obtain ⟨g, hg, hfg⟩ := hto f hf
  obtain ⟨k, hk, hgk⟩ := hon g hg
  exact ⟨k, hk, hfg.trans hgk⟩

theorem isPinned (h : Covers filters others) (hpinned : IsPinned filters column) :
    IsPinned others column := by
  obtain ⟨f, hf, hpins⟩ := hpinned
  obtain ⟨g, hg, hfg⟩ := h f hf
  exact ⟨g, hg, hfg.pins hpins⟩

/-- More pins allow fewer texts. -/
theorem allowedTexts_subset (h : Covers filters others) :
    allowedTexts others column ⊆ allowedTexts filters column := by
  intro text hall f hf hpins
  obtain ⟨g, hg, hfg⟩ := h f hf
  exact hfg.symm.allows (hall g hg (hfg.pins hpins))

end Covers

/-- No change of the way filters are put takes a filter its partner, on either side. -/
theorem Rearrangement.covers {filters others : List Filter} (h : Rearrangement filters others) :
    Covers filters others ∧ Covers others filters := by
  cases h with
  | permuted hperm => exact ⟨.of_subset hperm.subset, .of_subset hperm.symm.subset⟩
  | repeated hmem =>
      refine ⟨.of_subset (List.subset_cons_self _ _), .of_subset ?_⟩
      exact List.cons_subset.2 ⟨hmem, List.Subset.refl filters⟩
  | respelled hall =>
      constructor
      · intro f hf
        obtain ⟨g, hg, hfg⟩ := exists_partner_of_mem hall hf
        exact ⟨g, hg, hfg.pinsLike⟩
      · intro g hg
        obtain ⟨f, hf, hfg⟩ := exists_partner_of_mem hall.flip hg
        exact ⟨f, hf, hfg.pinsLike.symm⟩

theorem Rearranged.covers {filters others : List Filter} (h : Rearranged filters others) :
    Covers filters others ∧ Covers others filters := by
  induction h with
  | refl => exact ⟨.of_subset (List.Subset.refl _), .of_subset (List.Subset.refl _)⟩
  | tail _ hchange ih =>
      obtain ⟨hto, hfrom⟩ := hchange.covers
      exact ⟨ih.1.trans hto, hfrom.trans ih.2⟩

/-! ### Plans -/

/-- Filters that are partners of each other are planned to the same targets. -/
theorem targets_of_covers {layer : DataLayer} {settings : Settings} {filters others : List Filter}
    (hto : Covers filters others) (hfrom : Covers others filters) :
    layer.targets settings others = layer.targets settings filters := by
  apply DataLayer.targets_congr
  intro column _
  apply pinnedTexts_congr
  · exact ⟨hfrom.isPinned, hto.isPinned⟩
  · exact Set.Subset.antisymm hto.allowedTexts_subset hfrom.allowedTexts_subset

/-- A plan, or the failure to make one, does not depend on the way the pushed filters are put. The key
    names of the table are those of key columns, as in every table that columns make; the data layer
    may resolve keys and support filters as it likes. -/
theorem plan_of_rearranged {layer : DataLayer}
    (hkeys : ∀ column ∈ layer.table.keyNames, layer.table.isKeyColumn column = true)
    (settings : Settings) {filters others : List Filter} (h : Rearranged filters others) :
    (((Planner.fresh settings).push layer others).planner.build layer).answer =
      (((Planner.fresh settings).push layer filters).planner.build layer).answer := by
  obtain ⟨hto, hfrom⟩ := h.covers
  rw [Planner.build_of_first_push, Planner.build_of_first_push]
  -- The two pushes may give back different filters, but none that pins a key column.
  rw [DataLayer.targets_enforced hkeys, DataLayer.targets_enforced hkeys]
  rw [targets_of_covers hto hfrom]

/-- Two texts that are no integers, pushed for a key column in one way and in another: both plans fail
    for the lesser text. -/
theorem plan_of_rearranged_of_two_bad_texts :
    ∃ table, Table.ofColumns "ks" "events" [⟨"site", .partitionKey, 1, .text⟩,
        ⟨"note", .value, 0, .text⟩, ⟨"id", .partitionKey, 0, .int⟩] = .ok table ∧
      let layer := DataLayer.ofTable table .murmur3 1 []
      let filters : List Filter :=
        [.isIn "id" [.text "two", .text "one"], .compare .equal "site" (.text "x")]
      let others : List Filter :=
        [.isIn "site" [.text "x"], .isIn "site" [.text "x"],
          .isIn "id" [.text "one", .text "two", .text "one"]]
      Rearranged filters others ∧
      (((Planner.fresh {}).push layer others).planner.build layer).answer =
        (((Planner.fresh {}).push layer filters).planner.build layer).answer ∧
      (((Planner.fresh {}).push layer filters).planner.build layer).answer =
        .error (.keyEncoding ⟨"id", "one", .malformed .int⟩) := by
  let table : Table := ⟨"ks", "events", [⟨"id", .partitionKey, 0, .int⟩,
    ⟨"site", .partitionKey, 1, .text⟩, ⟨"note", .value, 0, .text⟩]⟩
  have htable : Table.ofColumns "ks" "events" [⟨"site", .partitionKey, 1, .text⟩,
      ⟨"note", .value, 0, .text⟩, ⟨"id", .partitionKey, 0, .int⟩] = .ok table := by
    cbv
  refine ⟨table, htable, ?_⟩
  intro layer filters others
  have hkeys : ∀ column ∈ layer.table.keyNames, layer.table.isKeyColumn column = true :=
    fun column hcolumn => Table.isKeyColumn_of_mem_keyNames htable hcolumn
  have hrearranged : Rearranged filters others := by
    have hrespelled : Rearrangement filters [.isIn "id" [.text "one", .text "two", .text "one"],
        .isIn "site" [.text "x"]] := by
      refine .respelled (.cons (.relisted ?_) (.cons (.listed rfl) .nil))
      simp only [List.mem_cons, List.not_mem_nil]
      grind
    have hswapped : Rearrangement [.isIn "id" [.text "one", .text "two", .text "one"],
        .isIn "site" [.text "x"]] [.isIn "site" [.text "x"],
          .isIn "id" [.text "one", .text "two", .text "one"]] :=
      .permuted (.swap _ _ _)
    exact ((Relation.ReflTransGen.single hrespelled).tail hswapped).tail (.repeated (by simp))
  refine ⟨hrearranged, plan_of_rearranged hkeys {} hrearranged, ?_⟩
  have htargets : layer.targets {} filters =
      (.error (.keyEncoding ⟨"id", "one", .malformed .int⟩), []) := by
    cbv
  rw [Planner.build_of_first_push, DataLayer.targets_enforced hkeys, htargets]

/-! ### Tables that keep a key column out of sight -/

section HiddenKey

variable {columns : List String} {column : String} {value : Literal}
  (hvalue : value.isNull = false)

include hvalue

theorem Filter.pins_equality_iff {other : String} :
    (Filter.compare .equal other value).Pins column ↔ other = column := by
  simp [Filter.Pins, Filter.shape, Shape.column?, hvalue]

theorem Filter.allows_equality_iff {text : String} :
    (Filter.compare .equal column value).Allows text ↔ value.render = text := by
  simp [Filter.Allows, Filter.shape, Shape.literals, hvalue]

/-- Equalities of some columns with one constant leave each of them the text of the constant. -/
theorem allowedTexts_equalities (hcolumn : column ∈ columns) :
    allowedTexts (columns.map (Filter.compare .equal · value)) column = {value.render} := by
  ext text
  constructor
  · intro hall
    exact ((Filter.allows_equality_iff hvalue).1 (hall _ (List.mem_map_of_mem hcolumn)
      ((Filter.pins_equality_iff hvalue).2 rfl))).symm
  · rintro rfl f hf -
    obtain ⟨other, -, rfl⟩ := List.mem_map.1 hf
    exact (Filter.allows_equality_iff hvalue).2 rfl

/-- They allow one tuple. -/
theorem tupleCount_equalities :
    tupleCount (columns.map (Filter.compare .equal · value)) columns = 1 := by
  apply List.prod_eq_one
  intro count hcount
  obtain ⟨column, hcolumn, rfl⟩ := List.mem_map.1 hcount
  rw [allowedTexts_equalities hvalue hcolumn, Set.ncard_singleton]

theorem keyTuple_equalities :
    KeyTuple (columns.map (Filter.compare .equal · value)) columns
      (columns.map fun _ => value.render) := by
  rw [KeyTuple, List.forall₂_map_right_iff, List.forall₂_same]
  intro column hcolumn
  rw [allowedTexts_equalities hvalue hcolumn]
  exact rfl

/-- Equalities of all key columns that are enforced narrow the scan, or fail. -/
theorem DataLayer.targets_equalities_ne {layer : DataLayer} (hne : layer.table.keyNames ≠ []) :
    (layer.targets {} (layer.table.keyNames.map (Filter.compare .equal · value))).1 ≠ .ok [] := by
  intro hnone
  have hpinned : ∀ column ∈ layer.table.keyNames,
      IsPinned (layer.table.keyNames.map (Filter.compare .equal · value)) column :=
    fun column hcolumn =>
      ⟨_, List.mem_map_of_mem hcolumn, (Filter.pins_equality_iff hvalue).2 rfl⟩
  obtain ⟨-, -, hall⟩ := targets_within_eq_ok hne hpinned
    ((tupleCount_equalities hvalue).trans_le (by decide)) hnone
  obtain ⟨target, htarget, -⟩ := hall _ (keyTuple_equalities hvalue)
  exact absurd htarget List.not_mem_nil

/-- The key names must be those of key columns. Where another column hides a key column by its name,
    a row scanner that evaluates equalities and no lists leaves the key pinned by an equality and
    free under the list of the same constant. -/
theorem exists_rearranged_of_hidden_key {layer : DataLayer}
    (hcolumn : column ∈ layer.table.keyNames) (hhidden : layer.table.isKeyColumn column = false)
    (hequality : ∀ other, layer.supports (.compare .equal other value) = true)
    (hlist : layer.supports (.isIn column [value]) = false) :
    ∃ filters others, Rearranged filters others ∧
      (((Planner.fresh {}).push layer others).planner.build layer).answer ≠
        (((Planner.fresh {}).push layer filters).planner.build layer).answer := by
  let filters := layer.table.keyNames.map (Filter.compare .equal · value)
  let others := layer.table.keyNames.map (Filter.isIn · [value])
  have hrespelled : List.Forall₂ Filter.Respelled filters others := by
    rw [List.forall₂_map_left_iff, List.forall₂_map_right_iff, List.forall₂_same]
    exact fun _ _ => .listed hvalue
  have henforced : layer.enforced filters = filters := by
    rw [DataLayer.enforced, List.filter_eq_self]
    intro f hf
    obtain ⟨other, -, rfl⟩ := List.mem_map.1 hf
    rw [DataLayer.enforces, hequality, Bool.or_true]
  have hfree : ¬ IsPinned (layer.enforced others) column := by
    rintro ⟨f, hf, hpins⟩
    obtain ⟨hmem, henforces⟩ := List.mem_filter.1 hf
    obtain ⟨other, -, rfl⟩ := List.mem_map.1 hmem
    have hequal := (Filter.Respelled.listed hvalue).pinsLike.symm.pins hpins
    obtain rfl := (Filter.pins_equality_iff hvalue).1 hequal
    rw [Filter.Pins] at hpins
    simp [DataLayer.enforces, Table.pinsKey, hpins, hhidden, hlist] at henforces
  refine ⟨filters, others, .single (.respelled hrespelled), ?_⟩
  rw [Planner.build_of_first_push, Planner.build_of_first_push, henforced,
    DataLayer.targets_of_free hcolumn hfree]
  exact (DataLayer.targets_equalities_ne hvalue (List.ne_nil_of_mem hcolumn)).symm

end HiddenKey

/-- A shipped table with a value column in front of the key column of its name, and a row scanner that
    evaluates equalities: an equality narrows the scan to one key, and the list of the same constant
    does not narrow it. -/
theorem plan_of_hidden_key :
    let table : Table := ⟨"ks", "events", [⟨"id", .value, 0, .int⟩, ⟨"id", .partitionKey, 0, .int⟩]⟩
    let layer : DataLayer := { DataLayer.ofTable table .murmur3 1 [] with
      supports := fun f => f matches .compare .equal _ _ }
    let filters : List Filter := [.compare .equal "id" (.int 1)]
    let others : List Filter := [.isIn "id" [.int 1]]
    Transport.deserialize (Transport.serialize table) = .ok table ∧ Rearranged filters others ∧
      (((Planner.fresh {}).push layer filters).planner.build layer).answer =
        .ok [⟨[0, 0, 0, 1], -4069959284402364209⟩] ∧
      (((Planner.fresh {}).push layer others).planner.build layer).answer = .ok [] := by
  intro table layer filters others
  have hkey : layer.enforced filters = filters := by cbv
  have hnone : layer.enforced others = [] := by cbv
  refine ⟨by decide +kernel, .single (.respelled (.cons (.listed rfl) .nil)), ?_, ?_⟩
  · rw [Planner.build_of_first_push, hkey, DataLayer.targets_of_steps 1 [["1"]]
      [⟨[0, 0, 0, 1], -4069959284402364209⟩] (by cbv) (by decide) (by cbv) (by decide +kernel)
      (by cbv)]
  · rw [Planner.build_of_first_push, hnone]
    cbv

end TokenScan
