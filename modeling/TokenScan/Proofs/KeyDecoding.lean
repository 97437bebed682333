/-
Module: TokenScan.Proofs.KeyDecoding
Purpose: A key tells what it is made of. Several components are read back from it, their number
  included, whatever bytes they hold; so the keys of two tuples of one table are the same exactly
  when the tuples encode to the same bytes in every column, however they spell them.
Main exports: Key.SpellAlike, Key.encodeKey_eq_iff, Key.key_determines_components
-/
import TokenScan.Proofs.KeyLayout

namespace TokenScan.Key

/-- Two texts stand for the same bytes in the column. -/
def SpellAlike (column : Column) (texts : String × String) : Prop :=
  ∃ bytes, encodeLiteral column texts.1 = .ok bytes ∧ encodeLiteral column texts.2 = .ok bytes

/-- Components that are compared byte by byte are compared by the texts they come from. -/
theorem map_bytes_eq_iff {columns : List Column} {as bs : List Component}
    (ha : List.Forall₂ Spells columns as) (hb : List.Forall₂ Spells columns bs) :
    as.map Component.bytes = bs.map Component.bytes ↔
      List.Forall₂ SpellAlike columns
        ((as.map Component.value).zip (bs.map Component.value)) := by
  induction ha generalizing bs with
  | nil =>
      cases hb
      simp
  | @cons column a columns as hspellsA _ ih =>
      cases hb with
      | @cons _ b _ bs hspellsB hrest =>
          have hhead : a.bytes = b.bytes ↔ SpellAlike column (a.value, b.value) := by
            simp [SpellAlike, hspellsA.2, hspellsB.2, eq_comm]
          simp only [List.map_cons, List.cons.injEq, List.zip_cons_cons, List.forall₂_cons, hhead,
            ih hrest]

/-- Two tuples of a table that have keys have the same key exactly when they encode alike in every
    key column. -/
theorem encodeKey_eq_iff {table : Table} {xs ys : List String} {k l : Bytes}
    (hx : encodeKey table xs = .ok k) (hy : encodeKey table ys = .ok l) :
    k = l ↔ List.Forall₂ SpellAlike table.keyColumns (xs.zip ys) := by
  obtain ⟨as, has, rfl, hcomposeA⟩ := encodeKey_eq_ok_iff.1 hx
  obtain ⟨bs, hbs, rfl, hcomposeB⟩ := encodeKey_eq_ok_iff.1 hy
  obtain ⟨hfitsA, rfl⟩ := compose_eq_ok_iff.1 hcomposeA
  obtain ⟨hfitsB, rfl⟩ := compose_eq_ok_iff.1 hcomposeB
  have hcount : as.length = bs.length := has.length_eq.symm.trans hbs.length_eq
  rw [← map_bytes_eq_iff has hbs]
  constructor
  · intro hkeys
    apply layout_injective _ _ _ hkeys
    · simpa using hcount
    · simpa using hfitsA
    · simpa using hfitsB
  · exact fun hbytes => congrArg layout hbytes

/-- A key of several components, or of none, determines them. It exists unless one of them is longer
    than its two bytes of length can say, and then the first such is named. Hence the keys of a table
    are equal only where the values of all key columns are. -/
theorem key_determines_components :
    (∀ (as bs : List Component) (key : Bytes), as.length ≠ 1 → bs.length ≠ 1 →
      compose as = .ok key → compose bs = .ok key →
      as.map Component.bytes = bs.map Component.bytes) ∧
    (∀ components : List Component, components.length ≠ 1 →
      ((∃ key, compose components = .ok key) ↔ ∀ c ∈ components, c.bytes.length ≤ 65535) ∧
      ∀ e, compose components = .error e ↔
        ∃ before c after, components = before ++ c :: after ∧
          (∀ d ∈ before, d.bytes.length ≤ 65535) ∧ 65535 < c.bytes.length ∧
          e = ⟨c.column, c.value, .tooLong c.bytes.length 65535⟩) ∧
    (∀ (table : Table) (xs ys : List String) (k l : Bytes),
      encodeKey table xs = .ok k → encodeKey table ys = .ok l →
      (k = l ↔ List.Forall₂ SpellAlike table.keyColumns (xs.zip ys))) := by
  refine ⟨?_, ?_, fun table xs ys k l hx hy => encodeKey_eq_iff hx hy⟩
  · intro as bs key has hbs hcomposeA hcomposeB
    obtain ⟨hfitsA, rfl⟩ := compose_eq_ok_iff.1 hcomposeA
    obtain ⟨hfitsB, hkeys⟩ := compose_eq_ok_iff.1 hcomposeB
    apply layout_injective_of_several _ _ _ _ hkeys.symm
    · simpa using has
    · simpa using hbs
    · simpa using hfitsA
    · simpa using hfitsB
  · intro components hseveral
    constructor
    · simp [compose_eq_ok_iff, Fits, hseveral, maxComponentLength]
    · intro e
      rw [compose_eq_error_iff]
      exact and_iff_right hseveral

/-- Two spellings of one pair of numbers have one key; three empty components and one that looks like
    their frames have different ones. -/
theorem key_determines_components_of_spellings_and_frames :
    (∃ (table : Table) (key : Bytes),
      encodeKey table ["1", "2"] = .ok key ∧ encodeKey table ["01", " 2"] = .ok key ∧
      List.Forall₂ SpellAlike table.keyColumns [("1", "01"), ("2", " 2")]) ∧
    compose [⟨"a", "", []⟩, ⟨"b", "", []⟩, ⟨"c", "", []⟩] ≠
      compose [⟨"a", "", []⟩, ⟨"b", "", [0, 0, 0]⟩] := by
  let table : Table :=
    ⟨"ks", "pairs", [⟨"a", .partitionKey, 0, .int⟩, ⟨"b", .partitionKey, 1, .int⟩]⟩
  have hone : encodeKey table ["1", "2"] = .ok [0, 4, 0, 0, 0, 1, 0, 0, 4, 0, 0, 0, 2, 0] := by
    decide +kernel
  have hother : encodeKey table ["01", " 2"] = .ok [0, 4, 0, 0, 0, 1, 0, 0, 4, 0, 0, 0, 2, 0] := by
    decide +kernel
  refine ⟨⟨table, _, hone, hother, ?_⟩, ?_⟩
  · exact (key_determines_components.2.2 table _ _ _ _ hone hother).1 rfl
  · intro hsame
    have hframes : compose [⟨"a", "", []⟩, ⟨"b", "", [0, 0, 0]⟩] =
        .ok [0, 0, 0, 0, 3, 0, 0, 0, 0] := by
      decide
    have hbytes := key_determines_components.1 _ _ _ (by decide) (by decide)
      (hsame.trans hframes) hframes
    exact absurd hbytes (by decide)

end TokenScan.Key
