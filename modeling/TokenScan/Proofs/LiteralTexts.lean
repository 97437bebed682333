/-
Module: TokenScan.Proofs.LiteralTexts
Purpose: Literals in columns of their own kind: integers, texts, truth values and bytes. The text of
  such a literal is read back by the type of the column, and the literal can be told from its bytes.
Main exports: Literal.StoredAs, Literal.encodeText_render, Literal.ofStored,
  Literal.ofStored_of_storedAs, literal_read_back
-/
import TokenScan.Filter.Literal
import TokenScan.Proofs.DateNumbers
import TokenScan.Proofs.IntegerColumns

namespace TokenScan

open TokenScan.Number

/-! ### Texts that are read back -/

theorem Text.Hex.not_isBlank_of_mem_encode {bs : Bytes} {c : Char} (hc : c ∈ Hex.encode bs) :
    isBlank c = false := by
  have hdigit : ∀ n < 16, isBlank (Hex.digit n) = false := by decide
  obtain ⟨b, -, hpair⟩ := List.mem_flatMap.1 hc
  have hb : b.toNat < 256 := b.toNat_lt
  simp only [List.mem_cons, List.not_mem_nil, or_false] at hpair
  rcases hpair with rfl | rfl
  · exact hdigit _ (by omega)
  · exact hdigit _ (by omega)

namespace Literal

theorem trim_render_int (n : Int64) :
    Text.trim (Literal.int n).render.toList = Numeral.chars n.toInt :=
  Numeral.trim_text n.toInt

theorem trim_render_bytes (bs : Bytes) :
    Text.trim (Literal.bytes bs).render.toList = '0' :: 'x' :: Text.Hex.encode bs := by
  have htext : (Literal.bytes bs).render.toList = '0' :: 'x' :: Text.Hex.encode bs :=
    String.toList_ofList
  rw [htext, Text.trim_eq_self]
  intro c hc
  rcases List.mem_cons.1 hc with rfl | hc
  · decide
  · rcases List.mem_cons.1 hc with rfl | hc
    · decide
    · exact Text.Hex.not_isBlank_of_mem_encode hc

/-! ### What literals are stored as -/

/-- A literal in a column of a type whose values are of its kind, and what the column makes of it:
    the bytes, or the fault of a value that the type cannot hold. -/
inductive StoredAs : Literal → ColumnType → Except EncodingFault Bytes → Prop where
  | integer {type : ColumnType} {width : Nat} (fixedWidth : type.integerWidth? = some width)
      (n : Int64) :
      StoredAs (.int n) type
        (if TwosComplement.fits width n.toInt then .ok (TwosComplement.fixed width n.toInt)
          else .error (.outOfRange type))
  | timestamp (n : Int64) : StoredAs (.int n) .timestamp (.ok (TwosComplement.fixed 8 n.toInt))
  | date (n : Int64) :
      StoredAs (.int n) .date
        (if 0 ≤ n.toInt ∧ n.toInt < 2 ^ 32 then .ok (bigEndian 4 n.toInt.toNat)
          else .error (.outOfRange .date))
  | varint (n : Int64) : StoredAs (.int n) .varint (.ok (TwosComplement.minimal n.toInt))
  | blob (bs : Bytes) : StoredAs (.bytes bs) .blob (.ok bs)
  | boolean (b : Bool) : StoredAs (.bool b) .boolean (.ok [if b then 1 else 0])
  | text (s : String) : StoredAs (.text s) .text (.ok (Text.utf8 s))
  | varchar (s : String) : StoredAs (.text s) .varchar (.ok (Text.utf8 s))
  | ascii (s : String) :
      StoredAs (.text s) .ascii
        (if s.toList.all (·.toNat < 128) then .ok (Text.utf8 s) else .error (.malformed .ascii))

variable {literal : Literal} {type : ColumnType} {outcome : Except EncodingFault Bytes}

/-- The type of the column reads back what the text of the literal shows. -/
theorem encodeText_render (h : literal.StoredAs type outcome) :
    Key.encodeText type literal.render = outcome := by
  cases h with
  | integer hwidth n =>
      have hfits := TwosComplement.fits_mono (show 8 ≤ 16 by decide) (TwosComplement.fits_toInt n)
      rw [Key.encodeText_integer hwidth, trim_render_int,
        Key.encodeInteger_of_int? type _ (Numeral.int?_chars n.toInt) hfits]
  | timestamp n =>
      refine Key.encodeText_timestamp_of_some ?_
      rw [trim_render_int, Key.timestampMillis?_chars (TwosComplement.fits_toInt n)]
  | date n =>
      rw [Key.encodeText_date, trim_render_int]
      exact Key.encodeDate_of_dateNumber .date (Key.dateNumber_chars n.toInt)
  | varint n =>
      refine Key.encodeText_varint_of_some ?_
      rw [trim_render_int, Key.varint?_of_writes (Numeral.writes_chars n.toInt)]
  | blob bs =>
      show Key.orMalformed .blob (Key.blob? (Text.trim _)) = _
      rw [trim_render_bytes, Key.blob?, Text.Hex.decode?_encode]
      rfl
  | boolean b => cases b <;> decide +kernel
  | text s => rfl
  | varchar s => rfl
  | ascii s => rfl

/-- The literal that the bytes of a column are those of. -/
def ofStored (type : ColumnType) (bytes : Bytes) : Literal :=
  match type with
  | .blob => .bytes bytes
  | .boolean => .bool (bytes = [1])
  | .text | .varchar | .ascii => .text ((Text.ofUtf8? bytes).getD "")
  | .date => .int (Int64.ofInt (ofBigEndian bytes))
  | _ => .int (Int64.ofInt (TwosComplement.value bytes))

theorem ofStored_of_storedAs (h : literal.StoredAs type outcome) {bytes : Bytes}
    (hbytes : outcome = .ok bytes) : ofStored type bytes = literal := by
  cases h with
  | integer hwidth n =>
      have hread : ofStored type bytes = .int (Int64.ofInt (TwosComplement.value bytes)) := by
        unfold ColumnType.integerWidth? at hwidth
        split at hwidth <;> first | rfl | simp at hwidth
      split_ifs at hbytes with hfits
      rw [hread, ← Except.ok.inj hbytes,
        TwosComplement.value_fixed (ColumnType.integerWidth_bounds hwidth).1 hfits,
        Int64.ofInt_toInt]
  | timestamp n =>
      show Literal.int (Int64.ofInt (TwosComplement.value bytes)) = _
      rw [← Except.ok.inj hbytes,
        TwosComplement.value_fixed (by decide) (TwosComplement.fits_toInt n), Int64.ofInt_toInt]
  | date n =>
      split_ifs at hbytes with hrange
      show Literal.int (Int64.ofInt (ofBigEndian bytes)) = _
      rw [← Except.ok.inj hbytes, ofBigEndian_bigEndian (by omega), Int.toNat_of_nonneg hrange.1,
        Int64.ofInt_toInt]
  | varint n =>
      show Literal.int (Int64.ofInt (TwosComplement.value bytes)) = _
      rw [← Except.ok.inj hbytes, (TwosComplement.minimal_shortest n.toInt).denotes,
        Int64.ofInt_toInt]
  | blob bs => rw [← Except.ok.inj hbytes, ofStored]
  | boolean b =>
      rw [← Except.ok.inj hbytes]
      cases b <;> rfl
  | text s => rw [← Except.ok.inj hbytes, ofStored, Text.ofUtf8?_utf8, Option.getD_some]
  | varchar s => rw [← Except.ok.inj hbytes, ofStored, Text.ofUtf8?_utf8, Option.getD_some]
  | ascii s =>
      split_ifs at hbytes
      rw [← Except.ok.inj hbytes, ofStored, Text.ofUtf8?_utf8, Option.getD_some]

end Literal

/-- A literal in a column of its kind is stored as what its text shows, in the fewest bytes where the
    column does not fix their number; and two such literals never have the same bytes. -/
theorem literal_read_back (column : Column) {literal : Literal}
    {outcome : Except EncodingFault Bytes} (h : literal.StoredAs column.type outcome) :
    Key.encodeLiteral column literal.render =
      outcome.mapError (⟨column.name, literal.render, ·⟩) ∧
    (column.type = .varint → ∀ n bytes, literal = .int n →
      Key.encodeLiteral column literal.render = .ok bytes →
        TwosComplement.Shortest n.toInt bytes) ∧
    ∀ other otherOutcome bytes, Literal.StoredAs other column.type otherOutcome →
      Key.encodeLiteral column literal.render = .ok bytes →
      Key.encodeLiteral column other.render = .ok bytes → other = literal := by
  have hstored : ∀ {stored outcome bytes}, Literal.StoredAs stored column.type outcome →
      Key.encodeLiteral column stored.render = .ok bytes → outcome = .ok bytes := by
    intro stored outcome bytes hstored hbytes
    rwa [Key.encodeLiteral_eq_ok_iff, Literal.encodeText_render hstored] at hbytes
  refine ⟨?_, ?_, ?_⟩
  · rw [Key.encodeLiteral, Literal.encodeText_render h]
  · rintro hvarint n bytes rfl hbytes
    have hminimal : Literal.StoredAs (.int n) column.type (.ok (TwosComplement.minimal n.toInt)) :=
      hvarint ▸ .varint n
    obtain rfl := Except.ok.inj (hstored hminimal hbytes)
    exact TwosComplement.minimal_shortest n.toInt
  · intro other otherOutcome bytes hother hbytes hbytes'
    rw [← Literal.ofStored_of_storedAs hother (hstored hother hbytes'),
      Literal.ofStored_of_storedAs h (hstored h hbytes)]

/-- The least integer of 64 bits, and a date before the first that four bytes hold. -/
theorem literal_read_back_of_least_integer :
    let bigint : Column := ⟨"pk", .partitionKey, 0, .bigint⟩
    let date : Column := ⟨"pk", .partitionKey, 0, .date⟩
    ((Literal.int Int64.minValue).StoredAs bigint.type (.ok [0x80, 0, 0, 0, 0, 0, 0, 0]) ∧
      Key.encodeLiteral bigint "-9223372036854775808" = .ok [0x80, 0, 0, 0, 0, 0, 0, 0]) ∧
    ((Literal.int (-1)).StoredAs date.type (.error (.outOfRange .date)) ∧
      Key.encodeLiteral date "-1" = .error ⟨"pk", "-1", .outOfRange .date⟩) := by
  intro bigint date
  have hwidth : bigint.type.integerWidth? = some 8 := rfl
  have hleast : (Literal.int Int64.minValue).StoredAs bigint.type
      (.ok [0x80, 0, 0, 0, 0, 0, 0, 0]) := .integer hwidth Int64.minValue
  have hbefore : (Literal.int (-1)).StoredAs date.type (.error (.outOfRange .date)) := .date (-1)
  exact ⟨⟨hleast, (literal_read_back bigint hleast).1⟩, hbefore, (literal_read_back date hbefore).1⟩

end TokenScan
