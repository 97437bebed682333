/-
Module: TokenScan.Proofs.PlanFailures
Purpose: How planning for a table fails. With all key columns pinned there are two ways: more tuples
  than the limit where the policy rejects them, or, within the limit, one allowed text that does not
  fit its column while every column is left some text. The failure names what is at fault, and no
  other failure is possible.
Main exports: KeyTuple.of_text, build_failure_of_first_push
-/
import Mathlib
import TokenScan.Proofs.KeyFaults
import TokenScan.Proofs.PlannedKeys

namespace TokenScan

/-- When every column is left some text, any text of any column stands in a tuple. -/
theorem KeyTuple.of_text {table : Table} {filters : List Filter}
    (hsome : ∀ column ∈ table.keyNames, allowedTexts filters column ≠ ∅) {column : Column}
    {text : String} (hcolumn : column ∈ table.keyColumns)
    (htext : text ∈ allowedTexts filters column.name) :
    ∃ tuple, KeyTuple filters table.keyNames tuple ∧ (column, text) ∈ table.keyColumns.zip tuple := by
  let Allowed := fun (c : Column) (value : String) => value ∈ allowedTexts filters c.name
  have hbase : ∃ tuple, List.Forall₂ Allowed table.keyColumns tuple := by
    have hall : ∀ c ∈ table.keyColumns, ∃ value, Allowed c value := fun c hc =>
      Set.nonempty_iff_ne_empty.2 (hsome c.name (List.mem_map_of_mem hc))
    generalize table.keyColumns = columns at hall
    induction columns with
    | nil => exact ⟨[], .nil⟩
    | cons c columns ih =>
        obtain ⟨⟨value, hvalue⟩, hrest⟩ := List.forall_mem_cons.1 hall
        obtain ⟨tuple, htuple⟩ := ih hrest
        exact ⟨value :: tuple, .cons hvalue htuple⟩
  obtain ⟨base, hbase⟩ := hbase
  obtain ⟨tuple, htuple, hpair, -⟩ := exists_replaced hbase hcolumn htext
  refine ⟨tuple, ?_, hpair⟩
  rw [KeyTuple, Table.keyNames, List.forall₂_map_left_iff]
  exact htuple

/-- A tuple of allowed texts that has no key has a text that does not fit its column. -/
theorem KeyTuple.unfit_of_error {table : Table} {filters : List Filter} {tuple : List String}
    (htuple : KeyTuple filters table.keyNames tuple) {error : ResolveError}
    (herror : Key.encodeKey table tuple = .error error) :
    ∃ column ∈ table.keyColumns, ∃ text ∈ allowedTexts filters column.name, ∃ fault,
      Key.Unfit table.keyColumns.length column text fault ∧
      error = .encoding ⟨column.name, text, fault⟩ := by
  rw [KeyTuple, Table.keyNames, List.forall₂_map_left_iff] at htuple
  obtain ⟨column, text, fault, hpair, hunfit, rfl⟩ := Key.encodeKey_eq_error htuple.length_eq herror
  exact ⟨column, (List.of_mem_zip hpair).1, text, (List.forall₂_iff_zip.1 htuple).2 hpair, fault,
    hunfit, rfl⟩

section Resolving

variable {digest : Bytes → Bytes} {table : Table} {partitioner : Partitioner}
  {filters : List Filter} (hcolumns : table.keyNames ≠ [])
  (hpinned : ∀ column ∈ table.keyNames, IsPinned filters column)

include hcolumns hpinned

/-- The allowed tuples fail to resolve by a text that does not fit its column, with every column left
    some text. -/
theorem unfit_of_mapM_resolve_eq_error {error : ResolveError}
    (h : (combinations (Pins.ofFilters filters table.keyNames) table.keyNames).mapM
      (Key.resolveWith digest table partitioner) = .error error) :
    (∀ column ∈ table.keyNames, allowedTexts filters column ≠ ∅) ∧
      ∃ column ∈ table.keyColumns, ∃ text ∈ allowedTexts filters column.name, ∃ fault,
        Key.Unfit table.keyColumns.length column text fault ∧
        error = .encoding ⟨column.name, text, fault⟩ := by
  obtain ⟨before, tuple, after, hsplit, -, hresolve⟩ := except_mapM_eq_error_iff.1 h
  have hmem : tuple ∈ combinations (Pins.ofFilters filters table.keyNames) table.keyNames := by
    rw [hsplit]
    exact List.mem_append_right before List.mem_cons_self
  have htuple := (mem_combinations hcolumns hpinned).1 hmem
  rw [Key.resolveWith, except_map_eq_error_iff] at hresolve
  exact ⟨fun column hcolumn => htuple.allowedTexts_ne_empty hcolumn, htuple.unfit_of_error hresolve⟩

/-- One text that does not fit its column fails all, whatever the other columns hold. -/
theorem exists_mapM_resolve_eq_error
    (hsome : ∀ column ∈ table.keyNames, allowedTexts filters column ≠ ∅) {column : Column}
    {text : String} {fault : EncodingFault} (hcolumn : column ∈ table.keyColumns)
    (htext : text ∈ allowedTexts filters column.name)
    (hunfit : Key.Unfit table.keyColumns.length column text fault) :
    ∃ error, (combinations (Pins.ofFilters filters table.keyNames) table.keyNames).mapM
      (Key.resolveWith digest table partitioner) = .error error := by
  obtain ⟨tuple, htuple, hpair⟩ := KeyTuple.of_text hsome hcolumn htext
  refine (except_ok_or_error _).resolve_left ?_
  rintro ⟨targets, hresolved⟩
  obtain ⟨target, -, hresolve⟩ := exists_partner_of_mem (except_mapM_eq_ok_iff.1 hresolved)
    ((mem_combinations hcolumns hpinned).2 htuple)
  have hcount : table.keyColumns.length = tuple.length := by
    simpa [Table.keyNames] using htuple.length_eq
  exact Key.encodeKey_ne_ok_of_unfit hcount hpair hunfit (Key.resolveWith_eq_ok_iff.1 hresolve).1

variable {splitCount : UInt64} {filterable : List String} {settings : Settings}

omit hpinned in
/-- What is known of a plan that fails. -/
theorem failure_of_targets_eq_error {e : PlanError}
    (h : ((DataLayer.ofTableWith digest table partitioner splitCount filterable).targets settings
      filters).1 = .error e) :
    (∀ column ∈ table.keyNames, IsPinned filters column) ∧
      ((settings.maxCombinations.toNat < tupleCount filters table.keyNames ∧
          settings.onExcess = .reject ∧
          e = .tooManyCombinations (min (tupleCount filters table.keyNames) maxCount)
            settings.maxCombinations) ∨
        (tupleCount filters table.keyNames ≤ settings.maxCombinations.toNat ∧
          (∀ column ∈ table.keyNames, allowedTexts filters column ≠ ∅) ∧
          ∃ column ∈ table.keyColumns, ∃ text ∈ allowedTexts filters column.name, ∃ fault,
            Key.Unfit table.keyColumns.length column text fault ∧
            e = .keyEncoding ⟨column.name, text, fault⟩)) := by
  obtain ⟨hpinned, hexcess | ⟨hwithin, error, hresolved, rfl⟩⟩ :=
    DataLayer.targets_eq_error_iff.1 h
  · exact ⟨hpinned, .inl hexcess⟩
  · obtain ⟨hsome, column, hcolumn, text, htext, fault, hunfit, rfl⟩ :=
      unfit_of_mapM_resolve_eq_error hcolumns hpinned hresolved
    exact ⟨hpinned, .inr ⟨hwithin, hsome, column, hcolumn, text, htext, fault, hunfit, rfl⟩⟩

end Resolving

/-- How the plan of the first push fails, for a table built from columns in any order. It is rejected
    exactly when the pins on all key columns leave more tuples than a rejecting limit. It fails to
    encode exactly when they leave every column some text, the tuples are within the limit, and some
    text does not fit its column; the failure names such a text with its column and its fault. There
    is no other failure. -/
theorem build_failure_of_first_push {keyspace name : String} {columns : List Column} {table : Table}
    (htable : Table.ofColumns keyspace name columns = .ok table) (digest : Bytes → Bytes)
    (partitioner : Partitioner) (splitCount : UInt64) (filterable : List String)
    (settings : Settings) (filters : List Filter) :
    let layer := DataLayer.ofTableWith digest table partitioner splitCount filterable
    let answer := (((Planner.fresh settings).push layer filters).planner.build layer).answer
    let allPinned := ∀ column ∈ table.keyNames, IsPinned filters column
    let count := tupleCount filters table.keyNames
    (∀ requested limit, answer = .error (.tooManyCombinations requested limit) ↔
      allPinned ∧ settings.maxCombinations.toNat < count ∧ settings.onExcess = .reject ∧
        requested = min count maxCount ∧ limit = settings.maxCombinations) ∧
    ((∃ e, answer = .error (.keyEncoding e)) ↔
      allPinned ∧ count ≤ settings.maxCombinations.toNat ∧
        (∀ column ∈ table.keyNames, allowedTexts filters column ≠ ∅) ∧
        ∃ column ∈ table.keyColumns, ∃ text ∈ allowedTexts filters column.name, ∃ fault,
          Key.Unfit table.keyColumns.length column text fault) ∧
    (∀ e, answer = .error (.keyEncoding e) →
      ∃ column ∈ table.keyColumns, e.column = column.name ∧
        e.value ∈ allowedTexts filters column.name ∧
        Key.Unfit table.keyColumns.length column e.value e.fault) ∧
    ∀ e, answer = .error e →
      (∃ requested limit, e = .tooManyCombinations requested limit) ∨
        ∃ fault, e = .keyEncoding fault := by
  intro layer answer allPinned count
  have hcolumns : table.keyNames ≠ [] := by
    intro hnil
    exact Table.keyColumns_ne_nil htable (List.map_eq_nil_iff.1 hnil)
  have hanswer : answer = (layer.targets settings filters).1 := by
    rw [← DataLayer.targets_enforced fun _ hcolumn =>
      Table.isKeyColumn_of_mem_keyNames htable hcolumn]
    exact Planner.build_of_first_push layer settings filters
  rw [hanswer]
  refine ⟨?_, ?_, ?_, ?_⟩
  · intro requested limit
    constructor
    · intro h
      obtain ⟨hpinned, ⟨hexcess, hpolicy, heq⟩ | ⟨-, -, _, _, _, _, _, _, heq⟩⟩ :=
        failure_of_targets_eq_error hcolumns h
      · obtain ⟨rfl, rfl⟩ := PlanError.tooManyCombinations.inj heq
        exact ⟨hpinned, hexcess, hpolicy, rfl, rfl⟩
      · simp at heq
    · intro h
      obtain ⟨hpinned, hexcess, hpolicy, rfl, rfl⟩ := h
      exact DataLayer.targets_eq_error_iff.2 ⟨hpinned, .inl ⟨hexcess, hpolicy, rfl⟩⟩
  · constructor
    · intro h
      obtain ⟨e, h⟩ := h
      obtain ⟨hpinned, ⟨-, -, heq⟩ |
        ⟨hwithin, hsome, column, hcolumn, text, htext, fault, hunfit, -⟩⟩ :=
        failure_of_targets_eq_error hcolumns h
      · simp at heq
      · exact ⟨hpinned, hwithin, hsome, column, hcolumn, text, htext, fault, hunfit⟩
    · intro h
      obtain ⟨hpinned, hwithin, hsome, column, hcolumn, text, htext, fault, hunfit⟩ := h
      obtain ⟨error, hresolved⟩ :=
        exists_mapM_resolve_eq_error hcolumns hpinned hsome hcolumn htext hunfit
      -- The text that fails first need not be the one that is given.
      obtain ⟨-, column, -, text, -, fault, -, rfl⟩ :=
        unfit_of_mapM_resolve_eq_error hcolumns hpinned hresolved
      exact ⟨_, DataLayer.targets_eq_error_iff.2 ⟨hpinned, .inr ⟨hwithin, _, hresolved, rfl⟩⟩⟩
  · intro e h
    obtain ⟨-, ⟨-, -, heq⟩ | ⟨-, -, column, hcolumn, text, htext, fault, hunfit, heq⟩⟩ :=
      failure_of_targets_eq_error hcolumns h
    · simp at heq
    · obtain rfl := PlanError.keyEncoding.inj heq
      exact ⟨column, hcolumn, rfl, htext, hunfit⟩
  · intro e h
    obtain ⟨-, ⟨-, -, heq⟩ | ⟨-, -, _, _, _, _, _, _, heq⟩⟩ :=
      failure_of_targets_eq_error hcolumns h
    · exact .inl ⟨_, _, heq⟩
    · exact .inr ⟨_, heq⟩

/-- A good and a bad text for one key column, with a good one for the other: the plan fails by the
    bad one. With contradictory pins on the other column it does not. -/
theorem build_failure_of_first_push_of_bad_text :
    ∃ table, Table.ofColumns "ks" "events" [⟨"site", .partitionKey, 1, .int⟩,
        ⟨"id", .partitionKey, 0, .int⟩] = .ok table ∧
      let layer := DataLayer.ofTable table .murmur3 1 []
      let bad : Filter := .isIn "id" [.text "1", .text "-"]
      let answer (filters : List Filter) :=
        (((Planner.fresh {}).push layer filters).planner.build layer).answer
      (∃ e, answer [bad, .compare .equal "site" (.int 7)] = .error (.keyEncoding e) ∧
        ∃ column ∈ table.keyColumns, e.column = column.name ∧
          e.value ∈ allowedTexts [bad, .compare .equal "site" (.int 7)] column.name ∧
          Key.Unfit table.keyColumns.length column e.value e.fault) ∧
      ¬ ∃ e, answer [bad, .compare .equal "site" (.int 7), .isIn "site" []] =
        .error (.keyEncoding e) := by
  let table : Table :=
    ⟨"ks", "events", [⟨"id", .partitionKey, 0, .int⟩, ⟨"site", .partitionKey, 1, .int⟩]⟩
  have htable : Table.ofColumns "ks" "events" [⟨"site", .partitionKey, 1, .int⟩,
      ⟨"id", .partitionKey, 0, .int⟩] = .ok table := by
    cbv
  refine ⟨table, htable, ?_⟩
  intro layer bad answer
  constructor
  · have henforced : layer.enforced [bad, .compare .equal "site" (.int 7)] =
        [bad, .compare .equal "site" (.int 7)] := by
      cbv
    have htargets : layer.targets {} [bad, .compare .equal "site" (.int 7)] =
        (.error (.keyEncoding ⟨"id", "-", .malformed .int⟩), []) := by
      cbv
    have hanswer : answer [bad, .compare .equal "site" (.int 7)] =
        .error (.keyEncoding ⟨"id", "-", .malformed .int⟩) := by
      simp only [answer, Planner.build_of_first_push, henforced, htargets]
    refine ⟨_, hanswer, ?_⟩
    exact (build_failure_of_first_push htable Hash.Md5.digest .murmur3 1 [] {} _).2.2.1 _ hanswer
  · intro h
    obtain ⟨-, -, hsome, -⟩ :=
      (build_failure_of_first_push htable Hash.Md5.digest .murmur3 1 [] {} _).2.1.1 h
    refine hsome "site" (by decide) (Set.eq_empty_of_forall_notMem fun text htext => ?_)
    obtain ⟨literal, hliteral, -⟩ := htext (.isIn "site" []) (by simp) rfl
    exact List.not_mem_nil hliteral

end TokenScan
