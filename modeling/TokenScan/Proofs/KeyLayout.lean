/-
Module: TokenScan.Proofs.KeyLayout
Purpose: Serialized keys can be read back. The length in front of a component says where it ends, so
  two keys with the same number of components are the same bytes only when their components are;
  whether components compose at all depends on their lengths alone.
Main exports: Key.Fits, Key.layout, Key.compose_eq_ok_iff, Key.compose_eq_error_iff,
  Key.layout_injective_of_several, Key.layout_injective, Key.encodeKey_eq_ok_iff,
  Key.forall_compose_iff
-/
import TokenScan.Key.Composite
import TokenScan.Proofs.ByteNumbers
import TokenScan.Proofs.Traversal

namespace TokenScan

namespace Key

open TokenScan.Number

/-- A component can be written among this many: the length of one among several is written down. -/
def Fits (count : Nat) (bytes : Bytes) : Prop :=
  count = 1 ∨ bytes.length ≤ maxComponentLength

/-- A component as it stands among several. -/
def frame (bytes : Bytes) : Bytes :=
  bigEndian 2 bytes.length ++ bytes ++ [0]

/-- The bytes of a key with these components. -/
def layout : List Bytes → Bytes
  | [bytes] => bytes
  | components => (components.map frame).flatten

theorem framed_eq_ok_iff {c : Component} {bytes : Bytes} :
    framed c = .ok bytes ↔ c.bytes.length ≤ maxComponentLength ∧ frame c.bytes = bytes := by
  simp only [framed, frame]
  split
  · next hlength => simp [hlength]
  · next hlength => simp [hlength]

/-- Several components compose when the length of each can be written down. -/
theorem mapM_framed_eq_ok_iff {components : List Component} {frames : List Bytes} :
    components.mapM framed = .ok frames ↔
      (∀ c ∈ components, c.bytes.length ≤ maxComponentLength) ∧
        (components.map Component.bytes).map frame = frames := by
  simp only [except_mapM_eq_ok_iff, framed_eq_ok_iff]
  induction components generalizing frames with
  | nil => simp [eq_comm]
  | cons c rest ih =>
      simp only [List.forall₂_cons_left_iff, ih, List.forall_mem_cons, List.map_cons]
      constructor
      · intro h
        rcases h with ⟨first, tail, ⟨hlength, rfl⟩, ⟨hrest, rfl⟩, rfl⟩
        exact ⟨⟨hlength, hrest⟩, rfl⟩
      · intro h
        rcases h with ⟨⟨hlength, hrest⟩, rfl⟩
        exact ⟨_, _, ⟨hlength, rfl⟩, ⟨hrest, rfl⟩, rfl⟩

/-- Components compose exactly when they fit, and then to their layout. -/
theorem compose_eq_ok_iff {components : List Component} {key : Bytes} :
    compose components = .ok key ↔
      (∀ c ∈ components, Fits components.length c.bytes) ∧
        layout (components.map Component.bytes) = key := by
  match components with
  | [c] => simp [compose, layout, Fits]
  | [] => simp [compose, layout, Except.map, pure, Except.pure]
  | first :: second :: rest =>
      have hseveral : (first :: second :: rest).length ≠ 1 := by simp
      simp only [compose, except_map_eq_ok_iff, mapM_framed_eq_ok_iff, Fits, hseveral, false_or]
      constructor
      · intro h
        rcases h with ⟨frames, ⟨hlength, rfl⟩, rfl⟩
        exact ⟨hlength, rfl⟩
      · intro h
        rcases h with ⟨hlength, rfl⟩
        exact ⟨_, ⟨hlength, rfl⟩, rfl⟩

theorem framed_eq_error_iff {c : Component} {e : EncodingError} :
    framed c = .error e ↔ maxComponentLength < c.bytes.length ∧
      e = ⟨c.column, c.value, .tooLong c.bytes.length maxComponentLength⟩ := by
  simp only [framed]
  split
  · next hlength => simp [hlength]
  · next hlength => simp [Nat.not_le.1 hlength, eq_comm]

/-- Components fail to compose exactly when they are several and one is too long; the first such is
    the one that is told of. -/
theorem compose_eq_error_iff {components : List Component} {e : EncodingError} :
    compose components = .error e ↔ components.length ≠ 1 ∧
      ∃ before c after, components = before ++ c :: after ∧
        (∀ d ∈ before, d.bytes.length ≤ maxComponentLength) ∧
        maxComponentLength < c.bytes.length ∧
        e = ⟨c.column, c.value, .tooLong c.bytes.length maxComponentLength⟩ := by
  have hframes : components.mapM framed = .error e ↔
      ∃ before c after, components = before ++ c :: after ∧
        (∀ d ∈ before, d.bytes.length ≤ maxComponentLength) ∧
        maxComponentLength < c.bytes.length ∧
        e = ⟨c.column, c.value, .tooLong c.bytes.length maxComponentLength⟩ := by
    simp only [except_mapM_eq_error_iff, framed_eq_error_iff, framed_eq_ok_iff, exists_and_left,
      exists_eq', and_true]
  match components with
  | [c] => simp [compose]
  | [] => simpa [compose, except_map_eq_error_iff] using hframes
  | first :: second :: rest => simpa [compose, except_map_eq_error_iff] using hframes

/-- A frame says where it ends, whatever follows. -/
theorem frame_append_injective {a b u v : Bytes} (ha : a.length ≤ maxComponentLength)
    (hb : b.length ≤ maxComponentLength) (h : frame a ++ u = frame b ++ v) : a = b ∧ u = v := by
  simp only [frame, List.append_assoc] at h
  obtain ⟨hfront, hrest⟩ := List.append_inj h (by simp)
  rw [maxComponentLength] at ha hb
  have hlength : a.length = b.length :=
    bigEndian_injective (by omega) (by omega) hfront
  obtain ⟨hbytes, htail⟩ := List.append_inj hrest hlength
  refine ⟨hbytes, ?_⟩
  simpa using htail

/-- Frames in a row are read back one by one, and the last one is followed by nothing. -/
theorem flatten_frames_injective {as bs : List Bytes}
    (ha : ∀ a ∈ as, a.length ≤ maxComponentLength) (hb : ∀ b ∈ bs, b.length ≤ maxComponentLength)
    (h : (as.map frame).flatten = (bs.map frame).flatten) : as = bs := by
  induction as generalizing bs with
  | nil =>
      cases bs with
      | nil => rfl
      | cons b bs => simp [frame] at h
  | cons a as ih =>
      cases bs with
      | nil => simp [frame] at h
      | cons b bs =>
          simp only [List.map_cons, List.flatten_cons] at h
          obtain ⟨hafits, has⟩ := List.forall_mem_cons.1 ha
          obtain ⟨hbfits, hbs⟩ := List.forall_mem_cons.1 hb
          obtain ⟨rfl, hrest⟩ := frame_append_injective hafits hbfits h
          rw [ih has hbs hrest]

theorem layout_of_several {values : List Bytes} (hseveral : values.length ≠ 1) :
    layout values = (values.map frame).flatten := by
  match values with
  | [] => rfl
  | [bytes] => exact absurd rfl hseveral
  | _ :: _ :: _ => rfl

/-- Components that are framed are read back from the key, their number included. -/
theorem layout_injective_of_several {as bs : List Bytes} (has : as.length ≠ 1) (hbs : bs.length ≠ 1)
    (ha : ∀ a ∈ as, Fits as.length a) (hb : ∀ b ∈ bs, Fits bs.length b)
    (h : layout as = layout bs) : as = bs := by
  rw [layout_of_several has, layout_of_several hbs] at h
  exact flatten_frames_injective (fun a hmem => (ha a hmem).resolve_left has)
    (fun b hmem => (hb b hmem).resolve_left hbs) h

/-- Keys with the same number of components have the same components when they are the same bytes. -/
theorem layout_injective {as bs : List Bytes} (hcount : as.length = bs.length)
    (ha : ∀ a ∈ as, Fits as.length a) (hb : ∀ b ∈ bs, Fits bs.length b)
    (h : layout as = layout bs) : as = bs := by
  by_cases hone : as.length = 1
  · obtain ⟨a, rfl⟩ := List.length_eq_one_iff.1 hone
    obtain ⟨b, rfl⟩ := List.length_eq_one_iff.1 (hcount.symm.trans hone)
    exact congrArg (fun bytes => [bytes]) h
  · exact layout_injective_of_several hone (hcount ▸ hone) ha hb h

/-- The component is what its own text makes for the column. -/
def Spells (column : Column) (c : Component) : Prop :=
  c.column = column.name ∧ encodeLiteral column c.value = .ok c.bytes

theorem component_eq_ok_iff {column : Column} {value : String} {c : Component} :
    component column value = .ok c ↔ Spells column c ∧ c.value = value := by
  rw [component, except_map_eq_ok_iff]
  constructor
  · intro h
    rcases h with ⟨bytes, hbytes, rfl⟩
    exact ⟨⟨rfl, hbytes⟩, rfl⟩
  · intro h
    rcases h with ⟨⟨hcolumn, hbytes⟩, rfl⟩
    exact ⟨c.bytes, hbytes, by rw [← hcolumn]⟩

/-- Pairing columns with texts and making a component of each pair is finding a component with the
    text for each column. -/
theorem forall₂_zip_component {columns : List Column} {values : List String}
    {components : List Component} (hlength : columns.length = values.length) :
    List.Forall₂ (fun (p : Column × String) c => component p.1 p.2 = .ok c) (columns.zip values)
        components ↔
      List.Forall₂ Spells columns components ∧ components.map Component.value = values := by
  simp only [component_eq_ok_iff]
  induction columns generalizing values components with
  | nil =>
      have hnil : values = [] := List.length_eq_zero_iff.1 hlength.symm
      subst hnil
      simp only [List.zip_nil_left, List.forall₂_nil_left_iff, List.map_eq_nil_iff, and_self]
  | cons column columns ih =>
      cases values with
      | nil => simp at hlength
      | cons value values =>
          simp only [List.zip_cons_cons, List.forall₂_cons_left_iff]
          constructor
          · intro h
            rcases h with ⟨c, rest, ⟨hspells, rfl⟩, hrest, rfl⟩
            obtain ⟨hall, rfl⟩ := (ih (by simpa using hlength)).1 hrest
            exact ⟨⟨c, rest, hspells, hall, rfl⟩, rfl⟩
          · intro h
            rcases h with ⟨⟨c, rest, hspells, hall, rfl⟩, hvalues⟩
            obtain ⟨hvalue, hrest⟩ := List.cons.inj hvalues
            exact ⟨c, rest, ⟨hspells, hvalue⟩, (ih (by simpa using hlength)).2 ⟨hall, hrest⟩, rfl⟩

/-- A tuple has a key when it has a text for each key column in turn, each text encodes for its
    column, and what comes of them composes to the key. -/
theorem encodeKey_eq_ok_iff {table : Table} {values : List String} {key : Bytes} :
    encodeKey table values = .ok key ↔
      ∃ components, List.Forall₂ Spells table.keyColumns components ∧
        components.map Component.value = values ∧ compose components = .ok key := by
  simp only [encodeKey]
  split
  · next hlength =>
      constructor
      · intro h
        simp at h
      · intro h
        rcases h with ⟨components, hspells, rfl, -⟩
        exact absurd (by simpa using hspells.length_eq) hlength
  · next hlength =>
      have hlength : table.keyColumns.length = values.length := not_not.1 hlength
      simp only [except_mapError_eq_ok_iff, except_bind_eq_ok_iff, except_mapM_eq_ok_iff,
        forall₂_zip_component hlength, and_assoc]

/-- Speaking of rows whose components compose is speaking of byte strings that fit. -/
theorem forall_compose_iff {r : Column → Bytes → Prop} {columns : List Column}
    {holds : Bytes → Prop} :
    (∀ (row : List Component) (key : Bytes),
      List.Forall₂ (fun column c => r column c.bytes) columns row → compose row = .ok key →
      holds key) ↔
    ∀ values, List.Forall₂ r columns values → (∀ bytes ∈ values, Fits values.length bytes) →
      holds (layout values) := by
  constructor
  · intro h values hvalues hfits
    let row := values.map (Component.mk "" "")
    have hrow : row.map Component.bytes = values := by simp [row, Function.comp_def]
    refine h row (layout values) ?_ ?_
    · simpa [row] using hvalues
    · rw [compose_eq_ok_iff, hrow]
      exact ⟨by simpa [row] using hfits, rfl⟩
  · intro h row key hrow hcompose
    obtain ⟨hfits, rfl⟩ := compose_eq_ok_iff.1 hcompose
    refine h (row.map Component.bytes) ?_ (by simpa using hfits)
    rw [List.forall₂_map_right_iff]
    exact hrow

end Key

end TokenScan
