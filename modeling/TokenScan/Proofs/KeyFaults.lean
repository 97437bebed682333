/-
Module: TokenScan.Proofs.KeyFaults
Purpose: Why a tuple has no key. With a value for every key column, it is a value that stands for no
  bytes of its column, or for more bytes than can be told of among several; the failure names that
  value, its column and the reason.
Main exports: Key.Unfit, Key.encodeKey_eq_error, Key.encodeKey_ne_ok_of_unfit
-/
import TokenScan.Proofs.KeyLayout

namespace TokenScan.Key

/-- What keeps a value of a column out of the keys of so many columns. -/
inductive Unfit (count : Nat) (column : Column) (value : String) : EncodingFault → Prop where
  /-- The value stands for no bytes. -/
  | unencodable {fault : EncodingFault}
      (refused : encodeLiteral column value = .error ⟨column.name, value, fault⟩) :
      Unfit count column value fault
  /-- Among several components the bytes of the value are too many. -/
  | tooLong {bytes : Bytes} (several : 2 ≤ count)
      (encoded : encodeLiteral column value = .ok bytes)
      (long : maxComponentLength < bytes.length) :
      Unfit count column value (.tooLong bytes.length maxComponentLength)

theorem component_eq_error_iff {column : Column} {value : String} {e : EncodingError} :
    component column value = .error e ↔
      ∃ fault, encodeLiteral column value = .error ⟨column.name, value, fault⟩ ∧
        e = ⟨column.name, value, fault⟩ := by
  rw [component, except_map_eq_error_iff]
  constructor
  · intro h
    obtain ⟨fault, -, rfl⟩ := except_mapError_eq_error_iff.1 h
    exact ⟨fault, h, rfl⟩
  · intro h
    rcases h with ⟨fault, hrefused, rfl⟩
    exact hrefused

section Tuple

variable {table : Table} {values : List String} (hcount : table.keyColumns.length = values.length)

include hcount

/-- A tuple of the right length fails by a value that does not fit its column. -/
theorem encodeKey_eq_error {error : ResolveError} (h : encodeKey table values = .error error) :
    ∃ column value fault, (column, value) ∈ table.keyColumns.zip values ∧
      Unfit table.keyColumns.length column value fault ∧
      error = .encoding ⟨column.name, value, fault⟩ := by
  simp only [encodeKey] at h
  rw [if_neg (not_not.2 hcount), except_mapError_eq_error_iff] at h
  obtain ⟨e, hfailed, rfl⟩ := h
  rcases except_bind_eq_error_iff.1 hfailed with hvalue | ⟨components, hall, hcompose⟩
  · obtain ⟨before, ⟨column, value⟩, after, hsplit, -, hcomponent⟩ :=
      except_mapM_eq_error_iff.1 hvalue
    obtain ⟨fault, hrefused, rfl⟩ := component_eq_error_iff.1 hcomponent
    have hmem : (column, value) ∈ table.keyColumns.zip values := by
      rw [hsplit]
      exact List.mem_append_right before List.mem_cons_self
    exact ⟨column, value, fault, hmem, .unencodable hrefused, rfl⟩
  · rw [except_mapM_eq_ok_iff] at hall
    obtain ⟨hone, before, c, after, rfl, -, hlong, rfl⟩ := compose_eq_error_iff.1 hcompose
    obtain ⟨⟨column, value⟩, hmem, hcomponent⟩ :=
      exists_partner_of_mem hall.flip (List.mem_append_right before List.mem_cons_self)
    obtain ⟨⟨hcolumn, hencoded⟩, rfl⟩ := component_eq_ok_iff.1 hcomponent
    have hlength := hall.length_eq
    rw [List.length_zip, ← hcount, Nat.min_self] at hlength
    have hseveral : 2 ≤ table.keyColumns.length := by
      simp only [List.length_append, List.length_cons] at hone hlength
      omega
    exact ⟨column, c.value, _, hmem, .tooLong hseveral hencoded hlong, by rw [hcolumn]⟩

/-- A value that does not fit its column leaves the tuple without a key. -/
theorem encodeKey_ne_ok_of_unfit {column : Column} {value : String} {fault : EncodingFault}
    (hmem : (column, value) ∈ table.keyColumns.zip values)
    (hunfit : Unfit table.keyColumns.length column value fault) {key : Bytes} :
    encodeKey table values ≠ .ok key := by
  intro hkey
  obtain ⟨components, hspells, rfl, hcompose⟩ := encodeKey_eq_ok_iff.1 hkey
  obtain ⟨hfits, -⟩ := compose_eq_ok_iff.1 hcompose
  rw [List.zip_map_right, List.mem_map] at hmem
  obtain ⟨⟨_, c⟩, hpair, heq⟩ := hmem
  obtain ⟨rfl, rfl⟩ := Prod.mk.inj heq
  have hencoded := ((List.forall₂_iff_zip.1 hspells).2 hpair).2
  dsimp only [id, Prod.map] at hunfit hencoded
  cases hunfit with
  | unencodable hrefused =>
      rw [hencoded] at hrefused
      simp at hrefused
  | tooLong hseveral hlongEncoded hlong =>
      obtain rfl := Except.ok.inj (hencoded.symm.trans hlongEncoded)
      rcases hfits c (List.of_mem_zip hpair).2 with hone | hshort
      · rw [List.length_map] at hcount
        omega
      · omega

end Tuple

end TokenScan.Key
