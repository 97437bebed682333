/-
Module: TokenScan.Proofs.BuiltTables
Purpose: Which columns make a table, what table they make, and what is said of columns that make none.
  The columns are looked through in the order given, each against those before it, and a refusal is
  the first clash that is met. A table does not show the order in which its columns were given: it
  holds them in a strict order of their own, with the partition key in front.
Main exports: Column.Precedes, positionsOf, MakeTable, Table.Arranges, Clash, Refused,
  firstClash_eq_some_iff, ofColumns_eq_error_iff, makeTable_iff, arranges_of_ofColumns,
  ofColumns_congr_perm, tables_of_columns
-/
import Mathlib
import TokenScan.Proofs.TableColumns

namespace TokenScan

/-- The order of the columns in a row, which is strict: by kind, then position, then name. -/
def Column.Precedes (a b : Column) : Prop :=
  a.kind.rank < b.kind.rank ∨ (a.kind = b.kind ∧
    (a.position < b.position ∨ (a.position = b.position ∧ a.name < b.name)))

/-- The positions of the columns of one kind, in the order in which the columns are given. -/
def positionsOf (kind : ColumnKind) (columns : List Column) : List UInt64 :=
  (columns.filter (·.kind = kind)).map Column.position

/-- What columns need to make a table. -/
structure MakeTable (columns : List Column) : Prop where
  names : (columns.map Column.name).Nodup
  partitionPositions : (positionsOf .partitionKey columns).Nodup
  clusteringPositions : (positionsOf .clusteringKey columns).Nodup
  keyed : ∃ c ∈ columns, c.kind = .partitionKey

/-- The table holds the columns in row order, and its partition key can be relied on: it stands in
    front, in the order of the positions, and a name is taken for that of a key column exactly when it
    is one. -/
structure Table.Arranges (t : Table) (columns : List Column) : Prop where
  held : t.columns.Perm columns
  ordered : t.columns.Pairwise Column.Precedes
  keysFirst : t.keyNames <+: t.columns.map Column.name
  keyOrder : t.keyColumns.Pairwise fun a b => a.position < b.position
  lookup : ∀ column, t.isKeyColumn column = true ↔ column ∈ t.keyNames

/-- What a column repeats of those before it. A name is looked at before a place. -/
inductive Clash (keyspace name : String) (earlier : List Column) (b : Column) : SchemaError → Prop where
  | sharedName {a : Column} (ha : a ∈ earlier) (hname : a.name = b.name) :
      Clash keyspace name earlier b (.duplicateColumn keyspace name b.name)
  | sharedPlace {a : Column} (hnew : ∀ c ∈ earlier, c.name ≠ b.name) (ha : a ∈ earlier)
      (hkey : b.kind.isKey = true) (hkind : a.kind = b.kind) (hposition : a.position = b.position) :
      Clash keyspace name earlier b (.duplicatePosition keyspace name b.kind b.position)

/-- Why columns make no table: the first of them that clashes with one before it, or, where none does,
    that there is no partition key. -/
inductive Refused (keyspace name : String) (columns : List Column) : SchemaError → Prop where
  | clash {before after : List Column} {b : Column} {e : SchemaError}
      (hsplit : columns = before ++ b :: after) (hclear : before.Pairwise Table.Compatible)
      (hclash : Clash keyspace name before b e) : Refused keyspace name columns e
  | unkeyed (hclear : columns.Pairwise Table.Compatible)
      (hnone : ∀ c ∈ columns, c.kind ≠ .partitionKey) :
      Refused keyspace name columns (.noPartitionKey keyspace name)

namespace Column

theorem isPartitionKey_iff {c : Column} : c.isPartitionKey = true ↔ c.kind = .partitionKey := by
  simp [isPartitionKey]

theorem precedes_of_before {a b : Column} (hbefore : a.before b = true) (hname : a.name ≠ b.name) :
    a.Precedes b := by
  rcases before_iff.1 hbefore with hkind | ⟨hkind, hposition | ⟨hposition, hle⟩⟩
  · exact .inl hkind
  · exact .inr ⟨hkind, .inl hposition⟩
  · exact .inr ⟨hkind, .inr ⟨hposition, Std.lt_of_le_of_ne hle hname⟩⟩

/-- No two columns come before each other. -/
theorem Precedes.asymm {a b : Column} (hab : a.Precedes b) : ¬ b.Precedes a := by
  intro hba
  rcases hab with hrank | ⟨hkind, hplace⟩
  · rcases hba with hrank' | ⟨hkind', -⟩
    · exact Nat.lt_asymm hrank hrank'
    · rw [hkind'] at hrank
      exact Nat.lt_irrefl _ hrank
  · rcases hba with hrank' | ⟨-, hplace'⟩
    · rw [hkind] at hrank'
      exact Nat.lt_irrefl _ hrank'
    · rcases hplace with hlt | ⟨heq, hlt⟩ <;> rcases hplace' with hlt' | ⟨heq', hlt'⟩
      · exact absurd (UInt64.lt_trans hlt hlt') (UInt64.lt_irrefl _)
      · exact absurd (heq' ▸ hlt) (UInt64.lt_irrefl _)
      · exact absurd (heq ▸ hlt') (UInt64.lt_irrefl _)
      · exact absurd (String.lt_trans hlt hlt') (String.lt_irrefl _)

theorem Precedes.rank_le {a b : Column} (h : a.Precedes b) : a.kind.rank ≤ b.kind.rank := by
  rcases h with hrank | ⟨hkind, -⟩
  · exact Nat.le_of_lt hrank
  · rw [hkind]

end Column

/-! ### The first clash -/

section Clashes

variable {keyspace name : String} {earlier : List Column} {b : Column} {e : SchemaError}

/-- Only which columns came before counts, not in which order. -/
theorem Clash.of_mem_iff {others : List Column} (hmem : ∀ c, c ∈ others ↔ c ∈ earlier)
    (h : Clash keyspace name earlier b e) : Clash keyspace name others b e := by
  cases h with
  | sharedName ha hname => exact .sharedName ((hmem _).2 ha) hname
  | sharedPlace hnew ha hkey hkind hposition =>
      exact .sharedPlace (fun c hc => hnew c ((hmem c).1 hc)) ((hmem _).2 ha) hkey hkind hposition

theorem samePlace_iff {a : Column} : Table.samePlace b a = true ↔
    b.kind.isKey = true ∧ a.kind = b.kind ∧ a.position = b.position := by
  simp only [Table.samePlace, Bool.and_eq_true, decide_eq_true_eq, and_assoc]
  exact and_congr_right fun _ => and_congr eq_comm eq_comm

/-- A column clashes with those before it, or is compatible with each of them. -/
theorem clash_or_compatible (keyspace name : String) (earlier : List Column) (b : Column) :
    (∃ e, Clash keyspace name earlier b e) ∨ ∀ c ∈ earlier, Table.Compatible c b := by
  by_cases hname : ∃ a ∈ earlier, a.name = b.name
  · obtain ⟨a, ha, hsame⟩ := hname
    exact .inl ⟨_, .sharedName ha hsame⟩
  · have hnew : ∀ c ∈ earlier, c.name ≠ b.name := fun c hc hsame => hname ⟨c, hc, hsame⟩
    by_cases hplace : ∃ a ∈ earlier, Table.samePlace b a = true
    · obtain ⟨a, ha, hsame⟩ := hplace
      obtain ⟨hkey, hkind, hposition⟩ := samePlace_iff.1 hsame
      exact .inl ⟨_, .sharedPlace hnew ha hkey hkind hposition⟩
    · refine .inr fun c hc => ⟨hnew c hc, ?_⟩
      rw [Bool.eq_false_iff]
      exact fun hsame => hplace ⟨c, hc, hsame⟩

theorem Clash.not_compatible (h : Clash keyspace name earlier b e) :
    ¬ ∀ c ∈ earlier, Table.Compatible c b := by
  intro hall
  cases h with
  | sharedName ha hname => exact (hall _ ha).1 hname
  | sharedPlace _ ha hkey hkind hposition =>
      have hsame := (hall _ ha).2
      rw [samePlace_iff.2 ⟨hkey, hkind, hposition⟩] at hsame
      simp at hsame

theorem firstClash_of_clash (h : Clash keyspace name earlier b e) (rest : List Column) :
    Table.firstClash keyspace name earlier (b :: rest) = some e := by
  cases h with
  | sharedName ha hname =>
      have hfound : earlier.any (·.name = b.name) = true :=
        List.any_eq_true.2 ⟨_, ha, decide_eq_true hname⟩
      rw [Table.firstClash, if_pos hfound]
  | sharedPlace hnew ha hkey hkind hposition =>
      have hnone : ¬ earlier.any (·.name = b.name) = true := by
        intro hfound
        obtain ⟨c, hc, hname⟩ := List.any_eq_true.1 hfound
        exact hnew c hc (of_decide_eq_true hname)
      have hfound : earlier.any (Table.samePlace b) = true :=
        List.any_eq_true.2 ⟨_, ha, samePlace_iff.2 ⟨hkey, hkind, hposition⟩⟩
      rw [Table.firstClash, if_neg hnone, if_pos hfound]

theorem firstClash_of_compatible (h : ∀ c ∈ earlier, Table.Compatible c b) (rest : List Column) :
    Table.firstClash keyspace name earlier (b :: rest) =
      Table.firstClash keyspace name (b :: earlier) rest := by
  have hname : ¬ earlier.any (·.name = b.name) = true := by
    intro hfound
    obtain ⟨c, hc, hsame⟩ := List.any_eq_true.1 hfound
    exact (h c hc).1 (of_decide_eq_true hsame)
  have hplace : ¬ earlier.any (Table.samePlace b) = true := by
    intro hfound
    obtain ⟨c, hc, hsame⟩ := List.any_eq_true.1 hfound
    rw [(h c hc).2] at hsame
    simp at hsame
  rw [Table.firstClash, if_neg hname, if_neg hplace]

/-- The clash that is found is that of the first column which has one. -/
theorem firstClash_eq_some_iff {columns : List Column} :
    Table.firstClash keyspace name earlier columns = some e ↔
      ∃ before b after, columns = before ++ b :: after ∧
        (∀ s ∈ earlier, ∀ c ∈ before, Table.Compatible s c) ∧ before.Pairwise Table.Compatible ∧
        Clash keyspace name (before.reverse ++ earlier) b e := by
  induction columns generalizing earlier with
  | nil => simp [Table.firstClash]
  | cons c rest ih =>
      rcases clash_or_compatible keyspace name earlier c with ⟨found, hclash⟩ | hcompatible
      · rw [firstClash_of_clash hclash]
        constructor
        · intro h
          obtain rfl := Option.some.inj h
          exact ⟨[], c, rest, rfl, by simp, .nil, hclash⟩
        · rintro ⟨before, b, after, hsplit, hearlier, -, hclash'⟩
          -- The column that clashes cannot be among those that are clear.
          cases before with
          | nil =>
              obtain ⟨rfl, rfl⟩ := List.cons.inj hsplit
              rw [← firstClash_of_clash hclash rest]
              exact firstClash_of_clash hclash' rest
          | cons d before =>
              obtain ⟨rfl, -⟩ := List.cons.inj hsplit
              exact absurd (fun s hs => hearlier s hs c List.mem_cons_self) hclash.not_compatible
      · rw [firstClash_of_compatible hcompatible, ih]
        constructor
        · rintro ⟨before, b, after, rfl, hearlier, hclear, hclash⟩
          obtain ⟨hc, hearlier⟩ := List.forall_mem_cons.1 hearlier
          refine ⟨c :: before, b, after, rfl, ?_, List.pairwise_cons.2 ⟨hc, hclear⟩, ?_⟩
          · exact fun s hs => List.forall_mem_cons.2 ⟨hcompatible s hs, hearlier s hs⟩
          · simpa using hclash
        · rintro ⟨before, b, after, hsplit, hearlier, hclear, hclash⟩
          cases before with
          | nil =>
              obtain ⟨rfl, rfl⟩ := List.cons.inj hsplit
              exact absurd hcompatible hclash.not_compatible
          | cons d before =>
              obtain ⟨rfl, rfl⟩ := List.cons.inj hsplit
              obtain ⟨hc, hclear⟩ := List.pairwise_cons.1 hclear
              refine ⟨before, b, after, rfl, ?_, hclear, by simpa using hclash⟩
              refine List.forall_mem_cons.2 ⟨hc, ?_⟩
              exact fun s hs d hd => hearlier s hs d (List.mem_cons_of_mem _ hd)

/-- Columns are refused for the first clash, or for want of a partition key. -/
theorem ofColumns_eq_error_iff {columns : List Column} :
    Table.ofColumns keyspace name columns = .error e ↔ Refused keyspace name columns e := by
  have hmem : ∀ before : List Column, ∀ c, c ∈ before.reverse ++ [] ↔ c ∈ before := by simp
  constructor
  · intro h
    rw [Table.ofColumns] at h
    split at h
    · next found hfound =>
        cases h
        obtain ⟨before, b, after, hsplit, -, hclear, hclash⟩ := firstClash_eq_some_iff.1 hfound
        exact .clash hsplit hclear (hclash.of_mem_iff fun c => (hmem before c).symm)
    · next hnone =>
        split at h
        · simp at h
        · next hkey =>
            cases h
            refine .unkeyed (Table.firstClash_eq_none_iff.1 hnone).2 ?_
            intro c hc hkind
            exact hkey (List.any_eq_true.2 ⟨c, hc, Column.isPartitionKey_iff.2 hkind⟩)
  · intro h
    cases h with
    | clash hsplit hclear hclash =>
        have hfound : Table.firstClash keyspace name [] columns = some e :=
          firstClash_eq_some_iff.2
            ⟨_, _, _, hsplit, by simp, hclear, hclash.of_mem_iff (hmem _)⟩
        rw [Table.ofColumns, hfound]
    | unkeyed hclear hnone =>
        have hclash : Table.firstClash keyspace name [] columns = none :=
          Table.firstClash_eq_none_iff.2 ⟨by simp, hclear⟩
        have hkey : ¬ columns.any Column.isPartitionKey = true := by
          intro hany
          obtain ⟨c, hc, hkind⟩ := List.any_eq_true.1 hany
          exact hnone c hc (Column.isPartitionKey_iff.1 hkind)
        simp only [Table.ofColumns, hclash, if_neg hkey]

end Clashes

/-! ### The table -/

theorem nodup_positionsOf_iff {kind : ColumnKind} {columns : List Column} :
    (positionsOf kind columns).Nodup ↔
      columns.Pairwise fun a b => a.kind = kind → b.kind = kind → a.position ≠ b.position := by
  simp [positionsOf, List.Nodup, List.pairwise_map, List.pairwise_filter]

theorem compatible_iff {a b : Column} : Table.Compatible a b ↔ a.name ≠ b.name ∧
    (a.kind = .partitionKey → b.kind = .partitionKey → a.position ≠ b.position) ∧
    (a.kind = .clusteringKey → b.kind = .clusteringKey → a.position ≠ b.position) := by
  simp only [Table.Compatible, Bool.eq_false_iff, ne_eq, samePlace_iff]
  refine and_congr_right fun _ => ?_
  cases b.kind <;> simp [ColumnKind.isKey]

/-- Any two columns are compatible exactly when the names and the places in the key are distinct. -/
theorem pairwise_compatible_iff {columns : List Column} : columns.Pairwise Table.Compatible ↔
    (columns.map Column.name).Nodup ∧ (positionsOf .partitionKey columns).Nodup ∧
      (positionsOf .clusteringKey columns).Nodup := by
  rw [nodup_positionsOf_iff, nodup_positionsOf_iff, List.Nodup, List.pairwise_map,
    ← List.pairwise_and_iff, ← List.pairwise_and_iff]
  exact List.Pairwise.iff fun _ _ => compatible_iff

theorem makeTable_iff {keyspace name : String} {columns : List Column} :
    (∃ t, Table.ofColumns keyspace name columns = .ok t) ↔ MakeTable columns := by
  simp only [Table.ofColumns_eq_ok_iff, pairwise_compatible_iff, Column.isPartitionKey_iff]
  constructor
  · rintro ⟨_, ⟨hnames, hpartition, hclustering⟩, hkeyed, -⟩
    exact ⟨hnames, hpartition, hclustering, hkeyed⟩
  · rintro ⟨hnames, hpartition, hclustering, hkeyed⟩
    exact ⟨_, ⟨hnames, hpartition, hclustering⟩, hkeyed, rfl⟩

/-- What stands in front of a list ordered by kind are the columns of the first kind. -/
theorem partitionKeys_lead {columns : List Column}
    (h : columns.Pairwise Column.Precedes) : columns.filter Column.isPartitionKey <+: columns := by
  induction columns with
  | nil => exact List.prefix_rfl
  | cons c rest ih =>
      obtain ⟨hc, hrest⟩ := List.pairwise_cons.1 h
      by_cases hkey : c.isPartitionKey = true
      · rw [List.filter_cons_of_pos hkey, List.prefix_cons_inj]
        exact ih hrest
      · have hlater : ∀ d ∈ c :: rest, ¬ d.isPartitionKey = true := by
          intro d hd hkey'
          have hrank : c.kind.rank ≤ d.kind.rank := by
            rcases List.mem_cons.1 hd with rfl | hd
            · exact Nat.le_refl _
            · exact (hc d hd).rank_le
          rw [Column.isPartitionKey_iff.1 hkey'] at hrank
          have hfirst : c.kind = .partitionKey := ColumnKind.rank_injective (Nat.le_zero.1 hrank)
          exact hkey (Column.isPartitionKey_iff.2 hfirst)
        rw [List.filter_eq_nil_iff.2 hlater]
        exact List.nil_prefix

section Built

variable {keyspace name : String} {columns : List Column} {t : Table}

theorem arranges_of_ofColumns (ht : Table.ofColumns keyspace name columns = .ok t) :
    t.Arranges columns := by
  have hcompatible := Table.pairwise_compatible ht
  have hshape := (Table.ofColumns_eq_ok_iff.1 ht).2.2
  have hcolumns : t.columns = columns.mergeSort Column.before := congrArg Table.columns hshape
  have hsorted : t.columns.Pairwise fun a b => a.before b = true := by
    rw [hcolumns]
    exact List.pairwise_mergeSort Column.before_trans Column.before_total columns
  have hordered : t.columns.Pairwise Column.Precedes :=
    hsorted.imp₂ (fun _ _ hbefore hclear => Column.precedes_of_before hbefore hclear.1) hcompatible
  constructor
  case held =>
    rw [hcolumns]
    exact List.mergeSort_perm columns Column.before
  case ordered => exact hordered
  case keysFirst => exact (partitionKeys_lead hordered).map Column.name
  case keyOrder => exact Table.pairwise_position ht
  case lookup =>
    intro column
    exact ⟨Table.mem_keyNames_of_isKeyColumn, Table.isKeyColumn_of_mem_keyNames ht⟩

/-- The order in which the columns are given does not show in the table. -/
theorem ofColumns_congr_perm {others : List Column} (hperm : columns.Perm others)
    (ht : Table.ofColumns keyspace name columns = .ok t) :
    Table.ofColumns keyspace name others = .ok t := by
  obtain ⟨hcompatible, ⟨c, hc, hkey⟩, hshape⟩ := Table.ofColumns_eq_ok_iff.1 ht
  have hothers : Table.ofColumns keyspace name others =
      .ok ⟨keyspace, name, others.mergeSort Column.before⟩ :=
    Table.ofColumns_eq_ok_iff.2 ⟨hperm.pairwise hcompatible Table.Compatible.symm,
      ⟨c, hperm.subset hc, hkey⟩, rfl⟩
  have hsame : columns.mergeSort Column.before = others.mergeSort Column.before := by
    have hheld := (arranges_of_ofColumns ht).ordered
    rw [hshape] at hheld
    apply List.Perm.eq_of_pairwise _ hheld (arranges_of_ofColumns hothers).ordered
    · exact (List.mergeSort_perm columns _).trans (hperm.trans (List.mergeSort_perm others _).symm)
    · intro a b _ _ hab hba
      exact absurd hba hab.asymm
  rw [hothers, hshape, hsame]

end Built

/-- Columns make a table exactly when their names are distinct, no two partition key columns and no
    two clustering key columns share a position, and there is a partition key. The table holds the
    columns in strict row order with the partition key in front, whatever order they were given in.
    Columns that make no table are refused for the first clash among them: a name that was there
    before, or else the place of a key column of the same kind; or for want of a partition key. -/
theorem tables_of_columns (keyspace name : String) (columns : List Column) :
    ((∃ t, Table.ofColumns keyspace name columns = .ok t) ↔ MakeTable columns) ∧
    (∀ t, Table.ofColumns keyspace name columns = .ok t →
      t.keyspace = keyspace ∧ t.name = name ∧ t.Arranges columns) ∧
    (∀ others, columns.Perm others → ∀ t,
      Table.ofColumns keyspace name columns = .ok t ↔
        Table.ofColumns keyspace name others = .ok t) ∧
    ∀ e, Table.ofColumns keyspace name columns = .error e ↔ Refused keyspace name columns e := by
  refine ⟨makeTable_iff, ?_, ?_, fun _ => ofColumns_eq_error_iff⟩
  · intro t ht
    have hshape := (Table.ofColumns_eq_ok_iff.1 ht).2.2
    exact ⟨congrArg Table.keyspace hshape, congrArg Table.name hshape, arranges_of_ofColumns ht⟩
  · intro others hperm t
    exact ⟨ofColumns_congr_perm hperm, ofColumns_congr_perm hperm.symm⟩

/-- A column that repeats both the name of one before it and the place of another is refused for its
    name. -/
example : Table.ofColumns "ks" "t" [⟨"a", .partitionKey, 0, .int⟩, ⟨"b", .clusteringKey, 1, .int⟩,
    ⟨"b", .partitionKey, 0, .int⟩] = .error (.duplicateColumn "ks" "t" "b") := by
  decide

end TokenScan
