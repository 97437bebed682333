/-
Module: TokenScan.Proofs.HexColumns
Purpose: The columns whose values are written in hexadecimal: identifiers, identifiers that carry a
  time, and blobs. An identifier is 32 digits, together or in hyphenated groups, and a blob is any
  number of pairs of digits behind `0x`; such a column takes these texts and no others, and its bytes
  tell the digits up to their case, and nothing of the hyphens or the prefix.
Main exports: Key.IdentifierText, Key.uuid?_eq_some_iff, Key.blob?_eq_some_iff, Key.HexText,
  Key.StoresHex, hex_values_stored
-/
import TokenScan.Key.Encoding
import TokenScan.Proofs.HexTexts
import TokenScan.Proofs.Traversal

namespace TokenScan

open TokenScan.Text

namespace Key

/-! ### Identifiers -/

/-- How the digits of an identifier are written: all together, or in groups with hyphens between. -/
inductive IdentifierText : List Char → List Char → Prop where
  | plain {digits : List Char} (length : digits.length = 32) : IdentifierText digits digits
  | grouped {groups : List (List Char)} (lengths : groups.map List.length = [8, 4, 4, 4, 12]) :
      IdentifierText (['-'].intercalate groups) groups.flatten

theorem groupedDigits?_intercalate {groups : List (List Char)} (hne : groups ≠ [])
    (hplain : ∀ g ∈ groups, '-' ∉ g) :
    groupedDigits? (groups.map List.length) (['-'].intercalate groups) = some groups.flatten := by
  induction groups with
  | nil => exact absurd rfl hne
  | cons g rest ih =>
      cases rest with
      | nil => simp [groupedDigits?]
      | cons g' rest =>
          have hg : '-' ∉ g := hplain g List.mem_cons_self
          have hrest := ih (List.cons_ne_nil g' rest) fun f hf =>
            hplain f (List.mem_cons_of_mem g hf)
          rw [List.map_cons] at hrest
          simp [groupedDigits?, hg, hrest]

/-- What is read as groups of given lengths is groups of these lengths with hyphens between. -/
theorem exists_groups_of_groupedDigits? {lengths : List Nat} {cs digits : List Char}
    (h : groupedDigits? lengths cs = some digits) :
    ∃ groups : List (List Char), groups.map List.length = lengths ∧
      cs = ['-'].intercalate groups ∧ digits = groups.flatten := by
  fun_induction groupedDigits? lengths cs generalizing digits with
  | case1 => exact absurd h nofun
  | case2 cs =>
      obtain rfl := Option.some.inj h
      exact ⟨[cs], rfl, List.intercalate_singleton.symm, List.flatten_singleton.symm⟩
  | case3 => exact absurd h nofun
  | case4 => exact absurd h nofun
  | case5 cs n rest hrest tail hdrop _ ih =>
      obtain ⟨shown, hshown, rfl⟩ := Option.map_eq_some_iff.1 h
      obtain ⟨groups, hlengths, htail, rfl⟩ := ih hshown
      have hne : groups ≠ [] := by
        rintro rfl
        exact hrest hlengths.symm
      have hlength : (cs.take n).length = n := by
        have := congrArg List.length hdrop
        rw [List.length_drop, List.length_cons] at this
        rw [List.length_take]
        omega
      refine ⟨cs.take n :: groups, ?_, ?_, rfl⟩
      · rw [List.map_cons, hlength, hlengths]
      · rw [List.intercalate_cons_of_ne_nil hne, ← htail, List.append_assoc, List.singleton_append,
          ← hdrop, List.take_append_drop]
  | case6 => exact absurd h nofun

/-- Between any two groups there is one hyphen. -/
theorem length_intercalate {groups : List (List Char)} (hne : groups ≠ []) :
    (['-'].intercalate groups).length + 1 = groups.flatten.length + groups.length := by
  induction groups with
  | nil => exact absurd rfl hne
  | cons g rest ih =>
      by_cases hrest : rest = []
      · rw [hrest, List.intercalate_singleton, List.flatten_singleton, List.length_singleton]
      · have hlength := ih hrest
        rw [List.intercalate_cons_of_ne_nil hrest, List.flatten_cons, List.length_append,
          List.length_append, List.length_append, List.length_singleton, List.length_cons]
        omega

variable {cs digits : List Char} {bytes : Bytes}

theorem length_of_groups {groups : List (List Char)}
    (hlengths : groups.map List.length = [8, 4, 4, 4, 12]) :
    groups ≠ [] ∧ groups.flatten.length = 32 ∧ (['-'].intercalate groups).length = 36 := by
  have hne : groups ≠ [] := by
    rintro rfl
    exact absurd hlengths nofun
  have hdigits : groups.flatten.length = 32 := by
    rw [List.length_flatten, hlengths]
    rfl
  have hcount : groups.length = 5 := by
    rw [← List.length_map (f := List.length), hlengths]
    rfl
  have hlength := length_intercalate hne
  exact ⟨hne, hdigits, by omega⟩

/-- Groups of known lengths are told from the text that joins them. -/
theorem intercalate_injective {groups groups' : List (List Char)}
    (hlengths : groups.map List.length = groups'.map List.length)
    (h : ['-'].intercalate groups = ['-'].intercalate groups') : groups = groups' := by
  induction groups generalizing groups' with
  | nil => exact (List.map_eq_nil_iff.1 hlengths.symm).symm
  | cons g rest ih =>
      cases groups' with
      | nil => exact absurd hlengths nofun
      | cons g' rest' =>
          obtain ⟨hfirst, hothers⟩ := List.cons.inj hlengths
          by_cases hrest : rest = []
          · have hrest' : rest' = [] := by
              rw [hrest] at hothers
              exact List.map_eq_nil_iff.1 hothers.symm
            rw [hrest, hrest', List.intercalate_singleton, List.intercalate_singleton] at h
            rw [hrest, hrest', h]
          · have hrest' : rest' ≠ [] := by
              rintro rfl
              exact hrest (List.map_eq_nil_iff.1 hothers)
            rw [List.intercalate_cons_of_ne_nil hrest, List.intercalate_cons_of_ne_nil hrest',
              List.append_assoc, List.append_assoc] at h
            obtain ⟨rfl, htail⟩ := List.append_inj h hfirst
            rw [ih hothers (List.append_cancel_left htail)]

theorem IdentifierText.length_digits (h : IdentifierText cs digits) : digits.length = 32 := by
  cases h with
  | plain hlength => exact hlength
  | grouped hlengths => exact (length_of_groups hlengths).2.1

theorem IdentifierText.unique {digits' : List Char} (h : IdentifierText cs digits)
    (h' : IdentifierText cs digits') : digits = digits' := by
  cases h with
  | plain hlength =>
      cases h' with
      | plain => rfl
      | grouped hlengths =>
          have := (length_of_groups hlengths).2.2
          omega
  | grouped hlengths =>
      generalize htext : ['-'].intercalate _ = text at h'
      cases h' with
      | plain hlength =>
          have := (length_of_groups hlengths).2.2
          rw [htext] at this
          omega
      | grouped hlengths' =>
          rw [intercalate_injective (hlengths.trans hlengths'.symm) htext]

/-- An identifier is read exactly from the texts that show 32 digits. -/
theorem uuid?_eq_some_iff :
    uuid? cs = some bytes ↔ ∃ digits, IdentifierText cs digits ∧ Hex.Spells digits bytes := by
  constructor
  · intro h
    unfold uuid? at h
    split at h
    · next hlength => exact ⟨cs, .plain hlength, Hex.decode?_eq_some_iff.1 h⟩
    · split at h
      · obtain ⟨digits, hshown, hread⟩ := Option.bind_eq_some_iff.1 h
        obtain ⟨groups, hlengths, rfl, rfl⟩ := exists_groups_of_groupedDigits? hshown
        exact ⟨groups.flatten, .grouped hlengths, Hex.decode?_eq_some_iff.1 hread⟩
      · exact absurd h nofun
  · rintro ⟨digits, hshown, hspelt⟩
    have hread := Hex.decode?_eq_some_iff.2 hspelt
    cases hshown with
    | plain hlength => rw [uuid?, if_pos hlength, hread]
    | @grouped groups hlengths =>
        obtain ⟨hne, -, hlength⟩ := length_of_groups hlengths
        have hplain : ∀ g ∈ groups, '-' ∉ g := fun g hg hmem =>
          hspelt.hyphen_not_mem (List.mem_flatten_of_mem hg hmem)
        have hshown := groupedDigits?_intercalate hne hplain
        rw [hlengths] at hshown
        rw [uuid?, if_neg (by omega), if_pos hlength, hshown]
        exact hread

/-- Version 1, in the high half of the seventh byte. -/
def IsVersionOne (bytes : Bytes) : Prop :=
  ∃ b, bytes[6]? = some b ∧ b.toNat / 16 = 1

/-- An identifier that carries a time is an identifier of version 1. -/
theorem timeuuid?_eq_some_iff :
    timeuuid? cs = some bytes ↔ uuid? cs = some bytes ∧ IsVersionOne bytes := by
  rw [timeuuid?, Option.filter_eq_some_iff, List.head?_drop, Option.any_eq_true]
  simp only [decide_eq_true_eq, IsVersionOne]

/-! ### Blobs -/

/-- How the digits of a blob are written: behind a zero and the letter for hexadecimal. -/
inductive BlobText : List Char → List Char → Prop where
  | lower (digits : List Char) : BlobText ('0' :: 'x' :: digits) digits
  | upper (digits : List Char) : BlobText ('0' :: 'X' :: digits) digits

theorem BlobText.unique {digits' : List Char} (h : BlobText cs digits) (h' : BlobText cs digits') :
    digits = digits' := by
  cases h with
  | lower => cases h' with | lower => rfl
  | upper => cases h' with | upper => rfl

theorem blob?_eq_some_iff :
    blob? cs = some bytes ↔ ∃ digits, BlobText cs digits ∧ Hex.Spells digits bytes := by
  constructor
  · intro h
    unfold blob? at h
    split at h
    · next digits => exact ⟨digits, .lower digits, Hex.decode?_eq_some_iff.1 h⟩
    · next digits => exact ⟨digits, .upper digits, Hex.decode?_eq_some_iff.1 h⟩
    · exact absurd h nofun
  · rintro ⟨digits, hshown, hspelt⟩
    have hread := Hex.decode?_eq_some_iff.2 hspelt
    cases hshown with
    | lower => exact hread
    | upper => exact hread

/-! ### Columns -/

/-- How the digits of a value are written in a column of a hexadecimal type. -/
inductive HexText : ColumnType → List Char → List Char → Prop where
  | uuid {cs digits : List Char} (shown : IdentifierText cs digits) : HexText .uuid cs digits
  | timeuuid {cs digits : List Char} (shown : IdentifierText cs digits) :
      HexText .timeuuid cs digits
  | blob {cs digits : List Char} (shown : BlobText cs digits) : HexText .blob cs digits

theorem HexText.length_digits {type : ColumnType} (h : HexText type cs digits)
    (hblob : type ≠ .blob) : digits.length = 32 := by
  cases h with
  | uuid hshown => exact hshown.length_digits
  | timeuuid hshown => exact hshown.length_digits
  | blob => exact absurd rfl hblob

/-- A text shows one run of digits. -/
theorem HexText.unique {type : ColumnType} {digits' : List Char} (h : HexText type cs digits)
    (h' : HexText type cs digits') : digits = digits' := by
  cases h with
  | uuid hshown =>
      cases h' with
      | uuid hshown' => exact hshown.unique hshown'
  | timeuuid hshown =>
      cases h' with
      | timeuuid hshown' => exact hshown.unique hshown'
  | blob hshown =>
      cases h' with
      | blob hshown' => exact hshown.unique hshown'

/-- What a column of hexadecimal values takes, and what its bytes tell. -/
structure StoresHex (column : Column) : Prop where
  /-- A value is taken exactly when, without the blanks around it, it shows digits that spell bytes,
      of version 1 where the identifier carries a time, and these bytes are stored. -/
  takes : ∀ (value : String) (bytes : Bytes), encodeLiteral column value = .ok bytes ↔
    ∃ digits, HexText column.type (trim value.toList) digits ∧ Hex.Spells digits bytes ∧
      (column.type = .timeuuid → IsVersionOne bytes)
  /-- Identifiers have sixteen bytes. -/
  identifies : column.type ≠ .blob → ∀ (value : String) (bytes : Bytes),
    encodeLiteral column value = .ok bytes → bytes.length = 16
  /-- A column of identifiers that carry a time takes those of version 1 of all identifiers, and
      stores them alike. -/
  versions : column.type = .timeuuid → ∀ (value : String) (bytes : Bytes),
    encodeLiteral column value = .ok bytes ↔
      encodeLiteral { column with type := .uuid } value = .ok bytes ∧ IsVersionOne bytes
  /-- Two values have the same bytes exactly when they show the same digits, in whichever case. -/
  separates : ∀ (value value' : String) (bytes bytes' : Bytes) (digits digits' : List Char),
    encodeLiteral column value = .ok bytes → encodeLiteral column value' = .ok bytes' →
    HexText column.type (trim value.toList) digits →
    HexText column.type (trim value'.toList) digits' →
      (bytes = bytes' ↔ digits.map Char.toLower = digits'.map Char.toLower)
  /-- All other values are refused as malformed, as they were given. -/
  refuses : ∀ (value : String) (error : EncodingError), encodeLiteral column value = .error error →
    error = ⟨column.name, value, .malformed column.type⟩

section Types

variable {type : ColumnType} (htype : type ∈ [.uuid, .timeuuid, .blob]) {value : String}

include htype

theorem encodeText_hex_eq_ok_iff :
    encodeText type value = .ok bytes ↔
      ∃ digits, HexText type (trim value.toList) digits ∧ Hex.Spells digits bytes ∧
        (type = .timeuuid → IsVersionOne bytes) := by
  simp only [List.mem_cons, List.not_mem_nil, or_false] at htype
  rcases htype with rfl | rfl | rfl
  · show orMalformed .uuid (uuid? (trim value.toList)) = .ok bytes ↔ _
    rw [orMalformed_eq_ok_iff, uuid?_eq_some_iff]
    constructor
    · rintro ⟨digits, hshown, hspelt⟩
      exact ⟨digits, .uuid hshown, hspelt, nofun⟩
    · rintro ⟨digits, hshown, hspelt, -⟩
      cases hshown with
      | uuid hshown => exact ⟨digits, hshown, hspelt⟩
  · show orMalformed .timeuuid (timeuuid? (trim value.toList)) = .ok bytes ↔ _
    rw [orMalformed_eq_ok_iff, timeuuid?_eq_some_iff, uuid?_eq_some_iff]
    constructor
    · rintro ⟨⟨digits, hshown, hspelt⟩, hversion⟩
      exact ⟨digits, .timeuuid hshown, hspelt, fun _ => hversion⟩
    · rintro ⟨digits, hshown, hspelt, hversion⟩
      cases hshown with
      | timeuuid hshown => exact ⟨⟨digits, hshown, hspelt⟩, hversion rfl⟩
  · show orMalformed .blob (blob? (trim value.toList)) = .ok bytes ↔ _
    rw [orMalformed_eq_ok_iff, blob?_eq_some_iff]
    constructor
    · rintro ⟨digits, hshown, hspelt⟩
      exact ⟨digits, .blob hshown, hspelt, nofun⟩
    · rintro ⟨digits, hshown, hspelt, -⟩
      cases hshown with
      | blob hshown => exact ⟨digits, hshown, hspelt⟩

theorem encodeText_hex_fault {fault : EncodingFault} (h : encodeText type value = .error fault) :
    fault = .malformed type := by
  simp only [List.mem_cons, List.not_mem_nil, or_false] at htype
  rcases htype with rfl | rfl | rfl
  · exact eq_malformed_of_orMalformed h
  · exact eq_malformed_of_orMalformed h
  · exact eq_malformed_of_orMalformed h

end Types

end Key

open Key

/-- A column of identifiers or blobs takes exactly the values that show hexadecimal digits in the
    way of its type, stores the bytes that they spell, and tells values apart by their digits. -/
theorem hex_values_stored (column : Column) (htype : column.type ∈ [.uuid, .timeuuid, .blob]) :
    StoresHex column where
  takes value bytes := by
    rw [encodeLiteral_eq_ok_iff, encodeText_hex_eq_ok_iff htype]
  identifies hblob value bytes h := by
    rw [encodeLiteral_eq_ok_iff, encodeText_hex_eq_ok_iff htype] at h
    obtain ⟨digits, hshown, hspelt, -⟩ := h
    have hlength := hspelt.length_eq
    rw [hshown.length_digits hblob] at hlength
    omega
  versions htime value bytes := by
    rw [encodeLiteral_eq_ok_iff, encodeLiteral_eq_ok_iff, htime]
    show orMalformed _ (timeuuid? (trim value.toList)) = .ok bytes ↔
      orMalformed _ (uuid? (trim value.toList)) = .ok bytes ∧ _
    rw [orMalformed_eq_ok_iff, orMalformed_eq_ok_iff, timeuuid?_eq_some_iff]
  separates value value' bytes bytes' digits digits' h h' hshown hshown' := by
    rw [encodeLiteral_eq_ok_iff, encodeText_hex_eq_ok_iff htype] at h h'
    obtain ⟨_, hfound, hspelt, -⟩ := h
    obtain ⟨_, hfound', hspelt', -⟩ := h'
    obtain rfl := hshown.unique hfound
    obtain rfl := hshown'.unique hfound'
    exact hspelt.eq_iff hspelt'
  refuses value error h := by
    rw [encodeLiteral] at h
    obtain ⟨fault, hfault, rfl⟩ := except_mapError_eq_error_iff.1 h
    rw [encodeText_hex_fault htype hfault]

/-- An identifier of version 1 in hyphenated groups of mixed case with blanks around it, and the same
    digits together in lower case. -/
theorem hex_values_stored_in_either_case :
    let column : Column := ⟨"id", .partitionKey, 0, .timeuuid⟩
    let grouped := "\u20036BA7B810-9dad-11D1-80b4-00C04FD430c8\n"
    let plain := "6ba7b8109dad11d180b400c04fd430c8"
    let bytes : Bytes := [0x6b, 0xa7, 0xb8, 0x10, 0x9d, 0xad, 0x11, 0xd1,
      0x80, 0xb4, 0x00, 0xc0, 0x4f, 0xd4, 0x30, 0xc8]
    column.type ∈ [.uuid, .timeuuid, .blob] ∧ encodeLiteral column grouped = .ok bytes ∧
      ∀ bytes', encodeLiteral column plain = .ok bytes' → bytes = bytes' := by
  intro column grouped plain bytes
  have htype : column.type ∈ [.uuid, .timeuuid, .blob] := by decide
  have hstored := hex_values_stored column htype
  let groups := ["6BA7B810", "9dad", "11D1", "80b4", "00C04FD430c8"].map String.toList
  have htrim : trim grouped.toList = ['-'].intercalate groups := by decide +kernel
  have hgrouped : HexText column.type (trim grouped.toList) groups.flatten := by
    rw [htrim]
    exact .timeuuid (.grouped (by decide))
  have hplain : HexText column.type (trim plain.toList) plain.toList := by
    have htrim : trim plain.toList = plain.toList := by decide +kernel
    rw [htrim]
    exact .timeuuid (.plain (by decide))
  have hspelt : Hex.Spells groups.flatten bytes := Hex.decode?_eq_some_iff.1 (by decide)
  have hbytes : encodeLiteral column grouped = .ok bytes :=
    (hstored.takes grouped bytes).2 ⟨_, hgrouped, hspelt, fun _ => ⟨0x11, rfl, rfl⟩⟩
  refine ⟨htype, hbytes, fun bytes' h => ?_⟩
  rw [hstored.separates grouped plain bytes bytes' _ _ hbytes h hgrouped hplain]
  decide

end TokenScan
