/-
Module: TokenScan.Proofs.PinMaps
Purpose: What a list of filters pins, as a map from columns to sets of texts. A column without an entry
  is free and a column whose entry has no text is contradicted, so the map tells the two apart. The map
  of two lists is made of the map of each, and so it grows filter by filter and does not depend on the
  order of the filters or on repeats.
Main exports: Filter.Confines, Pins.WellFormed, Pins.conjoin, Pins.ofFilter, Pins.texts?_eq_some_iff,
  Pins.texts?_eq_none_iff, Pins.ext_texts?, Pins.wellFormed_filterMap, Pins.texts?_conjoin,
  Filter.confines_iff, pinnedTexts_append, Pins.wellFormed_ofFilters, Pins.ofFilters_append,
  Pins.ofFilters_concat, Pins.ofFilters_eq_foldl, Pins.ofFilters_of_mem_iff, pins_of_filters
-/
import Mathlib
import TokenScan.Proofs.PinnedValues

namespace TokenScan

/-- The filter compares a column with constants, and holds only where the column has one of them. -/
inductive Filter.Confines : Filter → String → List Literal → Prop where
  | equality {column : String} {value : Literal} (hvalue : value ≠ .null) :
      Confines (.compare .equal column value) column [value]
  | membership {column : String} {values : List Literal} (hvalues : .null ∉ values) :
      Confines (.isIn column values) column values

namespace Pins

/-- The entries make a map: columns and texts stand in increasing order, each once. -/
structure WellFormed (pins : Pins) : Prop where
  columns : pins.Pairwise fun a b => a.1 < b.1
  texts : ∀ entry ∈ pins, entry.2.Pairwise (· < ·)

/-- Both maps at once: a column that both pin keeps the texts that both allow. -/
def conjoin (pins others : Pins) : Pins :=
  (TextSet.ofList ((pins ++ others).map Prod.fst)).filterMap fun column =>
    (Option.merge TextSet.inter (pins.texts? column) (others.texts? column)).map fun texts =>
      (column, texts)

/-- The map of one filter, which is empty when it pins none of the columns. -/
def ofFilter (columns : List String) (f : Filter) : Pins :=
  match f.shape.column? with
  | some column =>
    if column ∈ columns then [(column, .ofList (f.shape.literals.map Literal.render))] else []
  | none => []

/-! ### Entries -/

section Entries

variable {pins others : Pins} {column : String}

theorem texts?_eq_some_iff (hpins : pins.WellFormed) {texts : TextSet} :
    pins.texts? column = some texts ↔ (column, texts) ∈ pins := by
  rw [texts?, List.lookup_eq_some_iff]
  constructor
  · rintro ⟨before, after, rfl, -⟩
    simp
  · intro hmem
    obtain ⟨before, after, hsplit⟩ := List.append_of_mem hmem
    refine ⟨before, after, hsplit, ?_⟩
    -- The entries in front have lesser columns, so the look-up passes them all.
    intro entry hentry
    have hcolumns := hpins.columns
    rw [hsplit, List.pairwise_append] at hcolumns
    have hless := hcolumns.2.2 entry hentry (column, texts) List.mem_cons_self
    exact bne_iff_ne.2 (Std.ne_of_lt hless).symm

theorem texts?_eq_none_iff : pins.texts? column = none ↔ ∀ texts, (column, texts) ∉ pins := by
  rw [texts?, List.lookup_eq_none_iff]
  constructor
  · intro h texts hmem
    exact bne_iff_ne.1 (h _ hmem) rfl
  · rintro h ⟨name, texts⟩ hmem
    refine bne_iff_ne.2 ?_
    rintro rfl
    exact h texts hmem

/-- A map is determined by what it answers. -/
theorem ext_texts? (hpins : pins.WellFormed) (hothers : others.WellFormed)
    (h : ∀ column, pins.texts? column = others.texts? column) : pins = others := by
  have hnodup : ∀ {map : Pins}, map.WellFormed → map.Nodup := by
    intro map hmap
    refine hmap.columns.imp ?_
    rintro a b hless rfl
    exact String.lt_irrefl _ hless
  have hmem : ∀ entry, entry ∈ pins ↔ entry ∈ others := by
    rintro ⟨column, texts⟩
    rw [← texts?_eq_some_iff hpins, ← texts?_eq_some_iff hothers, h]
  apply List.Perm.eq_of_pairwise _ hpins.columns hothers.columns
  · exact (List.perm_ext_iff_of_nodup (hnodup hpins) (hnodup hothers)).2 hmem
  · intro a b _ _ hab hba
    exact absurd (String.lt_trans hab hba) (String.lt_irrefl _)

/-- Entries for some names, in increasing order, make a map when their texts are sets. -/
theorem wellFormed_filterMap {found : String → Option TextSet}
    (hfound : ∀ column texts, found column = some texts → texts.Pairwise (· < ·))
    (names : List String) :
    WellFormed ((TextSet.ofList names).filterMap fun column =>
      (found column).map fun texts => (column, texts)) := by
  constructor
  case columns =>
    refine (TextSet.pairwise_ofList names).filterMap _ ?_
    intro a b hless entry hentry entry' hentry'
    obtain ⟨texts, -, rfl⟩ := Option.map_eq_some_iff.1 hentry
    obtain ⟨texts', -, rfl⟩ := Option.map_eq_some_iff.1 hentry'
    exact hless
  case texts =>
    intro entry hentry
    obtain ⟨column, -, hmap⟩ := List.mem_filterMap.1 hentry
    obtain ⟨texts, htexts, rfl⟩ := Option.map_eq_some_iff.1 hmap
    exact hfound column texts htexts

end Entries

/-! ### Two maps at once -/

section Both

variable {pins others : Pins}

theorem pairwise_of_texts? (hpins : pins.WellFormed) {column : String} {texts : TextSet}
    (h : pins.texts? column = some texts) : texts.Pairwise (· < ·) :=
  hpins.texts _ ((texts?_eq_some_iff hpins).1 h)

/-- Both maps at once answer for each column as they do together. -/
@[simp] theorem texts?_conjoin (pins others : Pins) (column : String) :
    (pins.conjoin others).texts? column =
      Option.merge TextSet.inter (pins.texts? column) (others.texts? column) := by
  rw [texts?, conjoin, lookup_filterMap_entries]
  split
  · rfl
  · next hnew =>
      have hnone : ∀ {map : Pins}, (∀ entry ∈ map, entry ∈ pins ++ others) →
          map.texts? column = none := by
        intro map hsubset
        rw [texts?_eq_none_iff]
        intro texts hmem
        exact hnew (TextSet.mem_ofList.2 (List.mem_map_of_mem (hsubset _ hmem)))
      rw [hnone fun _ => List.mem_append_left _, hnone fun _ => List.mem_append_right _]
      rfl

theorem wellFormed_conjoin (hpins : pins.WellFormed) (hothers : others.WellFormed) :
    (pins.conjoin others).WellFormed := by
  apply wellFormed_filterMap
  intro column texts htexts
  cases hfirst : pins.texts? column with
  | none =>
      rw [hfirst, Option.merge_none_left] at htexts
      exact pairwise_of_texts? hothers htexts
  | some kept =>
      have hkept := pairwise_of_texts? hpins hfirst
      cases hsecond : others.texts? column with
      | none =>
          rw [hfirst, hsecond, Option.merge_none_right] at htexts
          exact Option.some.inj htexts ▸ hkept
      | some found =>
          rw [hfirst, hsecond, Option.merge_some_some] at htexts
          exact Option.some.inj htexts ▸ TextSet.pairwise_inter hkept

end Both

end Pins

/-! ### Pins of filters -/

theorem Literal.isNull_iff {literal : Literal} : literal.isNull = true ↔ literal = .null := by
  cases literal <;> simp [isNull]

theorem Literal.any_isNull_iff {literals : List Literal} :
    literals.any isNull = true ↔ .null ∈ literals := by
  simp [List.any_eq_true, isNull_iff]

/-- A filter confines a column exactly when its shape is that of a pin. -/
theorem Filter.confines_iff {f : Filter} {column : String} {literals : List Literal} :
    f.Confines column literals ↔ f.Pins column ∧ f.shape.literals = literals := by
  constructor
  · intro h
    cases h with
    | equality hvalue =>
        simp [Pins, shape, mt Literal.isNull_iff.1 hvalue, Shape.column?, Shape.literals]
    | membership hvalues =>
        simp only [Pins, shape, if_neg (mt Literal.any_isNull_iff.1 hvalues)]
        exact ⟨rfl, rfl⟩
  · rintro ⟨hpins, rfl⟩
    cases f with
    | compare op name value =>
        cases op with
        | equal =>
            by_cases hnull : value.isNull = true
            · simp [Pins, shape, hnull, Shape.column?] at hpins
            · simp only [Pins, shape, if_neg hnull] at hpins ⊢
              obtain rfl := Option.some.inj hpins
              exact .equality (mt Literal.isNull_iff.2 hnull)
        | _ => simp [Pins, shape, Shape.column?] at hpins
    | isIn name values =>
        by_cases hnull : values.any Literal.isNull = true
        · simp only [Pins, shape, if_pos hnull] at hpins
          simp [Shape.column?] at hpins
        · simp only [Pins, shape, if_neg hnull] at hpins ⊢
          obtain rfl := Option.some.inj hpins
          exact .membership (mt Literal.any_isNull_iff.2 hnull)
    | _ => simp [Pins, shape, Shape.column?] at hpins

theorem pinnedTexts_singleton (f : Filter) (column : String) :
    pinnedTexts [f] column = f.pinOn column := by
  rw [pinnedTexts]
  cases hpin : f.pinOn column <;> simp [hpin]

/-- What two lists of filters leave to a column is what each leaves, taken together. -/
theorem pinnedTexts_append (filters others : List Filter) (column : String) :
    pinnedTexts (filters ++ others) column =
      Option.merge TextSet.inter (pinnedTexts filters column) (pinnedTexts others column) := by
  simp only [pinnedTexts, List.filterMap_append]
  cases filters.filterMap (·.pinOn column) with
  | nil => cases others.filterMap (·.pinOn column) <;> rfl
  | cons first rest =>
      cases others.filterMap (·.pinOn column) with
      | nil => rw [List.append_nil]; rfl
      | cons second later =>
          -- Intersecting is associative, so the later pins may first be taken among themselves.
          simp only [List.cons_append, List.foldl_append, List.foldl_cons, List.foldl_assoc]
          rfl

namespace Pins

theorem wellFormed_ofFilters (filters : List Filter) (columns : List String) :
    (ofFilters filters columns).WellFormed :=
  wellFormed_filterMap (fun _ _ => pairwise_pinnedTexts) columns

theorem ofFilters_append (filters others : List Filter) (columns : List String) :
    ofFilters (filters ++ others) columns =
      (ofFilters filters columns).conjoin (ofFilters others columns) := by
  apply ext_texts? (wellFormed_ofFilters _ columns)
    (wellFormed_conjoin (wellFormed_ofFilters filters columns) (wellFormed_ofFilters others columns))
  intro column
  simp only [texts?_conjoin, texts?_ofFilters_eq]
  split
  · exact pinnedTexts_append filters others column
  · rfl

theorem wellFormed_ofFilter (columns : List String) (f : Filter) :
    (ofFilter columns f).WellFormed := by
  unfold ofFilter
  split
  · split
    · exact ⟨List.pairwise_singleton _ _, by simpa using TextSet.pairwise_ofList _⟩
    · constructor <;> simp
  · constructor <;> simp

theorem texts?_ofFilter (columns : List String) (f : Filter) (column : String) :
    (ofFilter columns f).texts? column = if column ∈ columns then f.pinOn column else none := by
  rw [ofFilter, Filter.pinOn]
  cases f.shape.column? with
  | none => simp [texts?]
  | some name =>
      by_cases hname : column = name
      · subst hname
        by_cases hcolumn : column ∈ columns <;> simp [texts?, hcolumn]
      · have hother : (column == name) = false := beq_eq_false_iff_ne.2 hname
        by_cases hcolumn : name ∈ columns <;>
          simp [texts?, List.lookup_cons, hcolumn, hother, Ne.symm hname]

/-- One more filter adds its own entry to the map, or narrows the entry that is there. -/
theorem ofFilters_concat (filters : List Filter) (f : Filter) (columns : List String) :
    ofFilters (filters ++ [f]) columns = (ofFilters filters columns).conjoin (ofFilter columns f) := by
  have hsingle : ofFilters [f] columns = ofFilter columns f := by
    apply ext_texts? (wellFormed_ofFilters _ columns) (wellFormed_ofFilter columns f)
    intro column
    rw [texts?_ofFilters_eq, texts?_ofFilter, pinnedTexts_singleton]
  rw [ofFilters_append, hsingle]

/-- The map is made filter by filter. -/
theorem ofFilters_eq_foldl (filters : List Filter) (columns : List String) :
    ofFilters filters columns =
      filters.foldl (fun pins f => Pins.conjoin pins (ofFilter columns f)) [] := by
  induction filters using List.reverseRecOn with
  | nil => simp [ofFilters, pinnedTexts]
  | append_singleton filters f ih => rw [ofFilters_concat, ih, List.foldl_concat]

/-- Neither the order of the filters nor repeats show in the map. -/
theorem ofFilters_of_mem_iff {filters others : List Filter} (h : ∀ f, f ∈ others ↔ f ∈ filters)
    (columns : List String) : ofFilters others columns = ofFilters filters columns := by
  apply ofFilters_congr
  intro column _
  apply pinnedTexts_congr
  · simp only [IsPinned, h]
  · simp only [allowedTexts, h]

/-- A column has an entry exactly when it is asked for and some filter of the list confines it. -/
theorem exists_entry_iff {filters : List Filter} {columns : List String} {column : String} :
    (∃ texts, (column, texts) ∈ ofFilters filters columns) ↔
      column ∈ columns ∧ ∃ f ∈ filters, ∃ literals, f.Confines column literals := by
  have hpinned : (∃ f ∈ filters, ∃ literals, f.Confines column literals) ↔
      IsPinned filters column := by
    simp [IsPinned, Filter.confines_iff]
  simp only [← texts?_eq_some_iff (wellFormed_ofFilters filters columns), texts?_ofFilters_eq,
    hpinned, ← Option.ne_none_iff_exists']
  split
  · next hcolumn => simp [hcolumn, pinnedTexts_eq_none_iff]
  · next hcolumn => simp [hcolumn]

/-- An entry holds the texts that every filter on its column allows. -/
theorem mem_of_entry {filters : List Filter} {columns : List String} {column : String}
    {texts : TextSet} (hentry : (column, texts) ∈ ofFilters filters columns) {text : String} :
    text ∈ texts ↔ ∀ f ∈ filters, ∀ literals, f.Confines column literals →
      ∃ literal ∈ literals, literal.render = text := by
  rw [← texts?_eq_some_iff (wellFormed_ofFilters filters columns), texts?_ofFilters_eq] at hentry
  split at hentry
  · simp [mem_pinnedTexts hentry, allowedTexts, Filter.confines_iff, Filter.Allows]
  · simp at hentry

end Pins

/-- What filters pin among some columns is a map. A column has an entry exactly when it is among them and
    a filter of the list, and not one inside another filter, compares it with constants other than null;
    the entry holds the texts that each such filter has among its constants, and may be empty. The map
    grows filter by filter, and that of two lists together is the map of each at once; it depends on
    which filters there are and on nothing else. -/
theorem pins_of_filters (filters : List Filter) (columns : List String) :
    let pins := Pins.ofFilters filters columns
    pins.WellFormed ∧
    (∀ column, (∃ texts, (column, texts) ∈ pins) ↔
      column ∈ columns ∧ ∃ f ∈ filters, ∃ literals, f.Confines column literals) ∧
    (∀ column texts, (column, texts) ∈ pins → ∀ text, text ∈ texts ↔
      ∀ f ∈ filters, ∀ literals, f.Confines column literals →
        ∃ literal ∈ literals, literal.render = text) ∧
    pins = filters.foldl (fun found f => Pins.conjoin found (Pins.ofFilter columns f)) [] ∧
    (∀ others, Pins.ofFilters (filters ++ others) columns =
      Pins.conjoin pins (Pins.ofFilters others columns)) ∧
    (∀ others, Pins.ofFilters (filters ++ others) columns =
      Pins.ofFilters (others ++ filters) columns) ∧
    Pins.ofFilters (filters ++ filters) columns = pins ∧
    ∀ others, (∀ f, f ∈ others ↔ f ∈ filters) → Pins.ofFilters others columns = pins := by
  intro pins
  refine ⟨Pins.wellFormed_ofFilters filters columns, fun _ => Pins.exists_entry_iff,
    fun _ _ hentry _ => Pins.mem_of_entry hentry, Pins.ofFilters_eq_foldl filters columns,
    fun others => Pins.ofFilters_append filters others columns, ?_, ?_,
    fun _ hmem => Pins.ofFilters_of_mem_iff hmem columns⟩
  · intro others
    exact Pins.ofFilters_of_mem_iff (fun f => by simp [or_comm]) columns
  · exact Pins.ofFilters_of_mem_iff (fun f => by simp) columns

/-- Pins that contradict each other leave an entry without texts, and a free column has no entry. -/
example : Pins.ofFilters [.compare .equal "id" (.int 1), .isIn "id" [.text "2", .text "3"],
    .not (.compare .equal "site" (.int 1))] ["site", "id"] = [("id", [])] := by
  cbv

end TokenScan
