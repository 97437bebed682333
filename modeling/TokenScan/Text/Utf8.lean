/-
Module: TokenScan.Text.Utf8
Purpose: Text as bytes. Keys, names and texts travel as UTF-8, and bytes that are not well-formed
  UTF-8 are no text.
Main exports: Bytes, utf8, ofUtf8?
-/

namespace TokenScan

/-- A byte string. -/
abbrev Bytes := List UInt8

namespace Text

/-- The UTF-8 bytes of a text. -/
def utf8 (s : String) : Bytes :=
  s.toUTF8.data.toList

/-- The text spelt by well-formed UTF-8 bytes; surrogates and overlong forms are refused. -/
def ofUtf8? (bs : Bytes) : Option String :=
  String.fromUTF8? ⟨bs.toArray⟩

/-- A text reads back from its UTF-8 bytes. -/
@[simp] theorem ofUtf8?_utf8 (s : String) : ofUtf8? (utf8 s) = some s := by
  have h : (⟨s.toUTF8.data.toList.toArray⟩ : ByteArray) = s.toUTF8 := rfl
  unfold ofUtf8? utf8
  rw [h, String.fromUTF8?]
  exact dif_pos s.isValidUTF8

end Text

end TokenScan
