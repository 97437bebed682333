/-
Module: TokenScan.Proofs.ItemRoundTrip
Purpose: Whole data items, written and read. The bytes of an item say where it ends, so whatever
  follows them is left; the item is read exactly when it nests within the limit. What is read is the
  item itself, up to what the bytes do not tell: which of the patterns that are not numbers a float
  had, and in which form the length of a map was given.
Main exports: Item.settled, Item.WithinWords, readItem_write, read?_write
-/
import TokenScan.Proofs.ItemReading

namespace TokenScan.Cbor

namespace Item

mutual

/-- An item as it is read back. -/
def settled : Item → Item
  | array items => array (settledAll items)
  | map _ entries => mapOf (settledEntries entries)
  | tagged tag item => tagged tag item.settled
  | float bits => float (quieted bits)
  | item => item

/-- Some items as they are read back. -/
def settledAll : List Item → List Item
  | [] => []
  | item :: items => item.settled :: settledAll items

/-- Some entries as they are read back. -/
def settledEntries : List (Item × Item) → List (Item × Item)
  | [] => []
  | (key, value) :: entries => (key.settled, value.settled) :: settledEntries entries

end

mutual

/-- The integers and tags in an item have no more than 64 bits, as the widest argument has. -/
def WithinWords : Item → Prop
  | unsigned n => n < 2 ^ 64
  | negative n => n < 2 ^ 64
  | array items => WithinWordsAll items
  | map _ entries => WithinWordsEntries entries
  | tagged tag item => tag < 2 ^ 64 ∧ item.WithinWords
  | _ => True

/-- So have those in some items. -/
def WithinWordsAll : List Item → Prop
  | [] => True
  | item :: items => item.WithinWords ∧ WithinWordsAll items

/-- So have those in some entries. -/
def WithinWordsEntries : List (Item × Item) → Prop
  | [] => True
  | (key, value) :: entries => (key.WithinWords ∧ value.WithinWords) ∧ WithinWordsEntries entries

end

theorem settledAll_eq_map (items : List Item) : settledAll items = items.map settled := by
  induction items with
  | nil => rfl
  | cons item items ih => rw [settledAll, List.map_cons, ih]

theorem settledEntries_eq_map (entries : List (Item × Item)) :
    settledEntries entries = entries.map fun entry => (entry.1.settled, entry.2.settled) := by
  induction entries with
  | nil => rfl
  | cons entry entries ih => rw [settledEntries, List.map_cons, ih]

theorem withinWordsAll_iff {items : List Item} :
    WithinWordsAll items ↔ ∀ item ∈ items, item.WithinWords := by
  induction items with
  | nil => simp [WithinWordsAll]
  | cons item items ih => rw [WithinWordsAll, List.forall_mem_cons, ih]

theorem withinWordsEntries_iff {entries : List (Item × Item)} :
    WithinWordsEntries entries ↔
      ∀ entry ∈ entries, entry.1.WithinWords ∧ entry.2.WithinWords := by
  induction entries with
  | nil => simp [WithinWordsEntries]
  | cons entry entries ih => rw [WithinWordsEntries, List.forall_mem_cons, ih]

/-! ### Lengths -/

theorem write_ne_nil (item : Item) : item.write ≠ [] := by
  cases item with
  | bool b => cases b <;> simp [write]
  | unit => simp [write]
  | float bits =>
      simp only [write, writeFloat]
      split
      · simp
      · split <;> simp
  | _ => simp [write, head_ne_nil]

/-- Each item takes a byte at least. -/
theorem length_le_writeAll (items : List Item) : items.length ≤ (writeAll items).length := by
  induction items with
  | nil => rfl
  | cons item items ih =>
      have := List.length_pos_iff.2 item.write_ne_nil
      rw [writeAll, List.length_append, List.length_cons]
      omega

theorem length_le_writeEntries (entries : List (Item × Item)) :
    entries.length ≤ (writeEntries entries).length := by
  induction entries with
  | nil => rfl
  | cons entry entries ih =>
      have := List.length_pos_iff.2 entry.1.write_ne_nil
      rw [writeEntries, List.length_append, List.length_append, List.length_cons]
      omega

end Item

open Item

/-! ### Reading

The reader is given a number of levels, which falls by one with each array, map or tag that it enters,
so the induction is on the item and the limit falls along with it. Each item takes a byte at least;
where the bytes are fewer than `2 ^ 64`, every count and every length has a head. -/

/-- A string is read back after its head. -/
theorem readString_append {kind n : Nat} {b : UInt8} {tail bs : Bytes}
    (hhead : IsHead kind n b tail) (hlength : bs.length = n) (rest : Bytes) :
    readString kind (b.toNat % 32) (tail ++ (bs ++ rest)) = some (bs, rest) := by
  rw [readString, if_neg hhead.definite, hhead.argument]
  exact takeBytes_append hlength rest

/-- An item that holds no other item is read back at any depth. -/
theorem readItem_write_of_leaf {item : Item} (hdepth : item.depth = 0) (hwords : item.WithinWords)
    (hlength : item.write.length < 2 ^ 64) (limit : Nat) (rest : Bytes) :
    readItem limit (item.write ++ rest) = some (item.settled, rest) := by
  cases item with
  | unsigned n =>
      obtain ⟨b, tail, hsplit, hhead⟩ := exists_isHead (show 0 < 8 by decide) hwords
      rw [write, hsplit, List.cons_append, readItem_of_leaf hhead.kind_eq (by decide), readLeaf,
        hhead.argument]
      rfl
  | negative n =>
      obtain ⟨b, tail, hsplit, hhead⟩ := exists_isHead (show 1 < 8 by decide) hwords
      rw [write, hsplit, List.cons_append, readItem_of_leaf hhead.kind_eq (by decide), readLeaf,
        hhead.argument]
      rfl
  | bytes bs =>
      rw [write, List.length_append] at hlength
      obtain ⟨b, tail, hsplit, hhead⟩ :=
        exists_isHead (show 2 < 8 by decide) (show bs.length < 2 ^ 64 by omega)
      rw [write, hsplit, List.append_assoc, List.cons_append,
        readItem_of_leaf hhead.kind_eq (by decide), readLeaf, readString_append hhead rfl]
      rfl
  | text s =>
      rw [write, List.length_append] at hlength
      obtain ⟨b, tail, hsplit, hhead⟩ :=
        exists_isHead (show 3 < 8 by decide) (show (Text.utf8 s).length < 2 ^ 64 by omega)
      rw [write, hsplit, List.append_assoc, List.cons_append,
        readItem_of_leaf hhead.kind_eq (by decide), readLeaf, readString_append hhead rfl]
      simp only [Option.bind_eq_bind, Option.bind_some, Text.ofUtf8?_utf8]
      rfl
  | bool b =>
      cases b with
      | true => exact readItem_of_simple (by decide) limit rest
      | false => exact readItem_of_simple (by decide) limit rest
  | unit => exact readItem_of_simple (by decide) limit rest
  | float bits => exact readItem_writeFloat limit bits rest
  | array items => simp [depth] at hdepth
  | map form entries => simp [depth] at hdepth
  | tagged tag item => simp [depth] at hdepth

mutual

/-- The bytes of an item are read to that item as far as it nests within the limit, and what follows
    them is left; a deeper item is refused. -/
theorem readItem_write : ∀ (item : Item) (limit : Nat) (rest : Bytes), item.WithinWords →
    item.write.length < 2 ^ 64 →
    readItem limit (item.write ++ rest) =
      if item.depth ≤ limit then some (item.settled, rest) else none
  | array items, limit, rest, hwords, hlength => by
      rw [write, List.length_append] at hlength
      have hcount := length_le_writeAll items
      obtain ⟨b, tail, hsplit, hhead⟩ :=
        exists_isHead (show 4 < 8 by decide) (show items.length < 2 ^ 64 by omega)
      rw [write, hsplit, List.append_assoc, List.cons_append, depth]
      cases limit with
      | zero => rw [readItem_zero_of_nested (.inl hhead.kind_eq), if_neg (by omega)]
      | succ limit =>
          have hitems := readMany_writeAll items limit rest hwords (by omega)
          simp only [readItem, hhead.kind_eq, readElements, if_neg hhead.definite, hhead.argument,
            Option.bind_eq_bind, Option.bind_some, hitems, Nat.add_le_add_iff_right]
          split <;> rfl
  | map form entries, limit, rest, hwords, hlength => by
      rw [write, List.length_append] at hlength
      have hcount := length_le_writeEntries entries
      obtain ⟨b, tail, hsplit, hhead⟩ :=
        exists_isHead (show 5 < 8 by decide) (show entries.length < 2 ^ 64 by omega)
      rw [write, hsplit, List.append_assoc, List.cons_append, depth]
      cases limit with
      | zero => rw [readItem_zero_of_nested (.inr (.inl hhead.kind_eq)), if_neg (by omega)]
      | succ limit =>
          have hentries := readMany_writeEntries entries limit rest hwords (by omega)
          simp only [readItem, hhead.kind_eq, readEntries, if_neg hhead.definite, hhead.argument,
            Option.bind_eq_bind, Option.bind_some, hentries, Nat.add_le_add_iff_right,
            hhead.immediate_iff, settled, mapOf, settledEntries_eq_map, List.length_map]
          split <;> rfl
  | tagged tag item, limit, rest, hwords, hlength => by
      rw [write, List.length_append] at hlength
      obtain ⟨b, tail, hsplit, hhead⟩ := exists_isHead (show 6 < 8 by decide) hwords.1
      rw [write, hsplit, List.append_assoc, List.cons_append, depth]
      cases limit with
      | zero => rw [readItem_zero_of_nested (.inr (.inr hhead.kind_eq)), if_neg (by omega)]
      | succ limit =>
          have hitem := readItem_write item limit rest hwords.2 (by omega)
          simp only [readItem, hhead.kind_eq, readTagged, hhead.argument, Option.bind_eq_bind,
            Option.bind_some, hitem, Nat.add_le_add_iff_right]
          split <;> rfl
  | unsigned _, limit, rest, hwords, hlength | negative _, limit, rest, hwords, hlength
  | bytes _, limit, rest, hwords, hlength | text _, limit, rest, hwords, hlength
  | .bool _, limit, rest, hwords, hlength | .unit, limit, rest, hwords, hlength
  | float _, limit, rest, hwords, hlength => by
      -- Nothing is nested in any of these, so every limit admits them.
      rw [readItem_write_of_leaf (by simp [depth]) hwords hlength, if_pos (by simp [depth])]

theorem readMany_writeAll : ∀ (items : List Item) (limit : Nat) (rest : Bytes),
    WithinWordsAll items → (writeAll items).length < 2 ^ 64 →
    readMany (readItem limit) items.length (writeAll items ++ rest) =
      if depthAll items ≤ limit then some (settledAll items, rest) else none
  | [], limit, rest, _, _ => by
      rw [writeAll, depthAll, if_pos (Nat.zero_le limit)]
      rfl
  | item :: items, limit, rest, hwords, hlength => by
      rw [writeAll, List.length_append] at hlength
      have hitem := readItem_write item limit (writeAll items ++ rest) hwords.1 (by omega)
      have hitems := readMany_writeAll items limit rest hwords.2 (by omega)
      rw [writeAll, List.length_cons, List.append_assoc, readMany, hitem, depthAll]
      by_cases hfirst : item.depth ≤ limit
      · by_cases hrest : depthAll items ≤ limit
        · rw [if_pos hfirst, if_pos (max_le hfirst hrest)]
          simp [hitems, hrest, settledAll]
        · rw [if_pos hfirst, if_neg (by omega)]
          simp [hitems, hrest]
      · rw [if_neg hfirst, if_neg (by omega)]
        rfl

theorem readMany_writeEntries : ∀ (entries : List (Item × Item)) (limit : Nat) (rest : Bytes),
    WithinWordsEntries entries → (writeEntries entries).length < 2 ^ 64 →
    readMany (readPair (readItem limit)) entries.length (writeEntries entries ++ rest) =
      if depthEntries entries ≤ limit then some (settledEntries entries, rest) else none
  | [], limit, rest, _, _ => by
      rw [writeEntries, depthEntries, if_pos (Nat.zero_le limit)]
      rfl
  | (key, value) :: entries, limit, rest, hwords, hlength => by
      rw [writeEntries, List.length_append, List.length_append] at hlength
      have hkey := readItem_write key limit (value.write ++ (writeEntries entries ++ rest))
        hwords.1.1 (by omega)
      have hvalue := readItem_write value limit (writeEntries entries ++ rest) hwords.1.2 (by omega)
      have hentries := readMany_writeEntries entries limit rest hwords.2 (by omega)
      rw [writeEntries, List.length_cons, List.append_assoc, List.append_assoc, readMany, readPair,
        hkey, depthEntries]
      by_cases hfirst : key.depth ≤ limit
      · by_cases hsecond : value.depth ≤ limit
        · by_cases hrest : depthEntries entries ≤ limit
          · rw [if_pos hfirst, if_pos (max_le (max_le hfirst hsecond) hrest)]
            simp [hvalue, hentries, hsecond, hrest, settledEntries]
          · rw [if_pos hfirst, if_neg (by omega)]
            simp [hvalue, hentries, hsecond, hrest]
        · rw [if_pos hfirst, if_neg (by omega)]
          simp [hvalue, hsecond]
      · rw [if_neg hfirst, if_neg (by omega)]
        rfl

end

/-- The bytes of an item, and nothing but them, are read to that item as far as it nests within the
    limit. -/
theorem read?_write {item : Item} (hwords : item.WithinWords)
    (hlength : item.write.length < 2 ^ 64) :
    read? item.write = if item.depth ≤ nestingLimit then some item.settled else none := by
  have hread := readItem_write item nestingLimit [] hwords hlength
  rw [List.append_nil] at hread
  rw [read?, hread]
  by_cases hdepth : item.depth ≤ nestingLimit
  · rw [if_pos hdepth, if_pos hdepth]
  · rw [if_neg hdepth, if_neg hdepth]

end TokenScan.Cbor
