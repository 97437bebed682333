/-
Module: TokenScan.Proofs.TableColumns
Purpose: What a table that was built from columns can rely on. No two of its columns clash, so a name
  finds one column only, and its key columns are those it was built from in the order of their
  positions, whatever order they were declared in.
Main exports: Table.Compatible, Table.firstClash_eq_none_iff, Table.ofColumns_eq_ok_iff,
  Table.mem_keyNames_of_isKeyColumn, Table.keyColumns_perm, Table.pairwise_position,
  Table.isKeyColumn_of_mem_keyNames
-/
import Mathlib.Data.List.Basic
import TokenScan.Schema.Table

namespace TokenScan

namespace Column

theorem before_iff {a b : Column} : a.before b = true ↔
    a.kind.rank < b.kind.rank ∨ (a.kind = b.kind ∧
      (a.position < b.position ∨ (a.position = b.position ∧ a.name ≤ b.name))) := by
  simp only [before]
  split
  · next hne => simp [hne]
  · next heq =>
      have heq' : a.kind = b.kind := by simpa using heq
      split
      · next hpos => simp_all
      · next hpos => simp_all

end Column

theorem ColumnKind.rank_injective {a b : ColumnKind} (h : a.rank = b.rank) : a = b := by
  cases a <;> cases b <;> first | rfl | simp [rank] at h

namespace Column

/-- Row order is transitive. -/
theorem before_trans (a b c : Column) (hab : a.before b = true) (hbc : b.before c = true) :
    a.before c = true := by
  rw [before_iff] at hab hbc ⊢
  grind

/-- Row order is total. -/
theorem before_total (a b : Column) : (a.before b || b.before a) = true := by
  rw [Bool.or_eq_true, before_iff, before_iff]
  rcases Nat.lt_trichotomy a.kind.rank b.kind.rank with hlt | heq | hgt
  · exact .inl (.inl hlt)
  · have hkind := ColumnKind.rank_injective heq
    grind
  · exact .inr (.inl hgt)

end Column

namespace Table

/-- Two columns that a table may hold: their names differ, and so do their places in the key. -/
def Compatible (a b : Column) : Prop :=
  a.name ≠ b.name ∧ samePlace b a = false

theorem Compatible.symm {a b : Column} (h : Compatible a b) : Compatible b a := by
  refine ⟨h.1.symm, ?_⟩
  have hplace := h.2
  simp only [samePlace] at hplace ⊢
  grind

/-- No clash is found exactly when any two columns are compatible, those seen before included. -/
theorem firstClash_eq_none_iff {keyspace table : String} {seen columns : List Column} :
    firstClash keyspace table seen columns = none ↔
      (∀ s ∈ seen, ∀ c ∈ columns, Compatible s c) ∧ columns.Pairwise Compatible := by
  induction columns generalizing seen with
  | nil => simp [firstClash]
  | cons c rest ih =>
      simp only [firstClash]
      split
      · next hname =>
          obtain ⟨s, hs, hsame⟩ := List.any_eq_true.1 hname
          constructor
          · intro h
            simp at h
          · intro h
            exact absurd (by simpa using hsame) (h.1 s hs c List.mem_cons_self).1
      · next hname =>
          split
          · next hplace =>
              obtain ⟨s, hs, hsame⟩ := List.any_eq_true.1 hplace
              constructor
              · intro h
                simp at h
              · intro h
                have := (h.1 s hs c List.mem_cons_self).2
                rw [hsame] at this
                simp at this
          · next hplace =>
              have hhead : ∀ s ∈ seen, Compatible s c := by
                intro s hs
                constructor
                · intro hsame
                  exact hname (List.any_eq_true.2 ⟨s, hs, by simpa using hsame⟩)
                · rw [Bool.eq_false_iff]
                  intro hsame
                  exact hplace (List.any_eq_true.2 ⟨s, hs, hsame⟩)
              rw [ih, List.pairwise_cons]
              simp only [List.forall_mem_cons]
              constructor
              · intro h
                rcases h with ⟨⟨hc, hseen⟩, hrest⟩
                exact ⟨fun s hs => ⟨hhead s hs, hseen s hs⟩, hc, hrest⟩
              · intro h
                rcases h with ⟨hseen, hc, hrest⟩
                exact ⟨⟨hc, fun s hs => (hseen s hs).2⟩, hrest⟩

/-- Columns make a table exactly when they are compatible and one of them is a key column. -/
theorem ofColumns_eq_ok_iff {keyspace name : String} {columns : List Column} {t : Table} :
    ofColumns keyspace name columns = .ok t ↔
      columns.Pairwise Compatible ∧ (∃ c ∈ columns, c.isPartitionKey) ∧
        t = ⟨keyspace, name, columns.mergeSort Column.before⟩ := by
  have hclash : firstClash keyspace name [] columns = none ↔ columns.Pairwise Compatible := by
    simp [firstClash_eq_none_iff]
  simp only [ofColumns, ← hclash]
  cases firstClash keyspace name [] columns with
  | some clash => simp
  | none =>
      simp only [true_and, ← List.any_eq_true]
      split
      · next hkey =>
          rw [Except.ok.injEq]
          exact ⟨fun h => ⟨hkey, h.symm⟩, fun h => h.2.symm⟩
      · next hkey => simp [hkey]

/-- A name that the table takes for a key column is the name of one. -/
theorem mem_keyNames_of_isKeyColumn {t : Table} {column : String}
    (h : t.isKeyColumn column = true) : column ∈ t.keyNames := by
  obtain ⟨c, hfound, hkey⟩ := (Option.any_eq_true _ _).1 h
  have hname : c.name = column := by simpa using List.find?_some hfound
  have hmem : c ∈ t.columns := List.mem_of_find?_eq_some hfound
  exact List.mem_map.2 ⟨c, List.mem_filter.2 ⟨hmem, hkey⟩, hname⟩

section Built

variable {keyspace name : String} {columns : List Column} {t : Table}
  (ht : ofColumns keyspace name columns = .ok t)

include ht

/-- The key columns are those that were declared. -/
theorem keyColumns_perm : t.keyColumns.Perm (columns.filter Column.isPartitionKey) := by
  obtain ⟨-, -, rfl⟩ := ofColumns_eq_ok_iff.1 ht
  exact (List.mergeSort_perm columns Column.before).filter _

theorem keyColumns_ne_nil : t.keyColumns ≠ [] := by
  obtain ⟨-, ⟨c, hc, hkey⟩, -⟩ := ofColumns_eq_ok_iff.1 ht
  exact List.ne_nil_of_mem ((keyColumns_perm ht).mem_iff.2 (List.mem_filter.2 ⟨hc, hkey⟩))

/-- Any two columns of the table are compatible. -/
theorem pairwise_compatible : t.columns.Pairwise Compatible := by
  obtain ⟨hcompatible, -, rfl⟩ := ofColumns_eq_ok_iff.1 ht
  exact (List.mergeSort_perm columns Column.before).symm.pairwise hcompatible Compatible.symm

/-- The key columns come in the order of their positions. -/
theorem pairwise_position : t.keyColumns.Pairwise fun a b => a.position < b.position := by
  have hcompatible := pairwise_compatible ht
  obtain ⟨-, -, rfl⟩ := ofColumns_eq_ok_iff.1 ht
  have hsorted : (columns.mergeSort Column.before).Pairwise fun a b => a.before b = true :=
    List.pairwise_mergeSort Column.before_trans Column.before_total columns
  refine List.pairwise_filter.2 ((hsorted.and hcompatible).imp ?_)
  intro a b hab ha hb
  have hka : a.kind = .partitionKey := by simpa [Column.isPartitionKey] using ha
  have hkb : b.kind = .partitionKey := by simpa [Column.isPartitionKey] using hb
  have hplace := hab.2.2
  have hbefore := Column.before_iff.1 hab.1
  simp only [samePlace, hka, hkb, ColumnKind.isKey] at hplace hbefore
  grind

/-- A name of a key column finds that column, since no other column has it. -/
theorem isKeyColumn_of_mem_keyNames {column : String} (hcolumn : column ∈ t.keyNames) :
    t.isKeyColumn column := by
  obtain ⟨c, hc, rfl⟩ := List.mem_map.1 hcolumn
  obtain ⟨hmem, hkey⟩ := List.mem_filter.1 hc
  have hfound : t.column? c.name = some c := by
    refine List.find?_eq_some_iff_append.2 ⟨by simp, ?_⟩
    obtain ⟨before, after, hsplit⟩ := List.append_of_mem hmem
    refine ⟨before, after, hsplit, ?_⟩
    intro a ha
    have hcompatible := pairwise_compatible ht
    rw [hsplit, List.pairwise_append] at hcompatible
    simpa using (hcompatible.2.2 a ha c List.mem_cons_self).1
  rw [isKeyColumn, hfound]
  exact hkey

end Built

end Table

end TokenScan
