/-
Module: TokenScan.Proofs.ShippedShapes
Purpose: What it means for the values of a type to come back from their items, and that records,
  variants, texts, numbers and lists do. The items are taken as they are read back from bytes, so a
  value may come back with its floats quieted.
Main exports: Faithful, settled_record, fieldSlots_record, bind_fields?_settled,
  bind_variant?_settled
-/
import TokenScan.Proofs.ItemRoundTrip
import TokenScan.Proofs.Traversal
import TokenScan.Transport.Shape

namespace TokenScan

namespace Cbor.Item

theorem writeAll_congr {items items' : List Item}
    (h : List.Forall₂ (fun item item' => item.write = item'.write) items items') :
    writeAll items = writeAll items' := by
  induction h with
  | nil => rfl
  | cons hhead _ ih => rw [writeAll, writeAll, hhead, ih]

end Cbor.Item

namespace Transport

open TokenScan.Cbor
open TokenScan.Cbor.Item

/-- The values of the type come back from their items. `received a` is what comes back of `a`, and it
    is sent as `a` was. -/
class Faithful (α : Type) [Shippable α] where
  received : α → α
  withinWords (a : α) : (toItem a).WithinWords
  ofItem?_settled (a : α) : ofItem? (toItem a).settled = some (received a)
  write_received (a : α) : (toItem (received a)).write = (toItem a).write

export Faithful (received withinWords ofItem?_settled write_received)

attribute [simp] withinWords ofItem?_settled

/-! ### Records -/

theorem settled_record (fields : List (String × Item)) :
    (record fields).settled = record (fields.map fun field => (field.1, field.2.settled)) := by
  simp only [record, mapOf, settled, settledEntries_eq_map, List.map_map, List.length_map]
  rfl

theorem withinWords_record {fields : List (String × Item)}
    (h : ∀ field ∈ fields, field.2.WithinWords) : (record fields).WithinWords := by
  rw [record, mapOf, WithinWords, withinWordsEntries_iff, List.forall_mem_map]
  intro field hfield
  exact ⟨trivial, h field hfield⟩

/-- A record is written by its names and the bytes of its fields. -/
theorem write_record_congr {fields fields' : List (String × Item)}
    (h : List.Forall₂ (fun a b => a.1 = b.1 ∧ a.2.write = b.2.write) fields fields') :
    (record fields).write = (record fields').write := by
  have hentries : writeEntries (fields.map fun field => (text field.1, field.2)) =
      writeEntries (fields'.map fun field => (text field.1, field.2)) := by
    induction h with
    | nil => rfl
    | cons hhead _ ih =>
        rw [List.map_cons, List.map_cons, writeEntries, writeEntries, hhead.1, hhead.2, ih]
  rw [record, record, mapOf, mapOf, write, write, List.length_map, List.length_map, h.length_eq]
  exact congrArg _ hentries

/-- A name is found after names that differ from it. -/
theorem findIdx?_append_cons {before : List String} {name : String} (h : name ∉ before)
    (after : List String) : (before ++ name :: after).findIdx? (· = name) = some before.length := by
  induction before with
  | nil => simp [List.findIdx?_cons]
  | cons other before ih =>
      rw [List.mem_cons, not_or] at h
      rw [List.cons_append, List.findIdx?_cons, ih h.2, decide_eq_false (Ne.symm h.1)]
      rfl

/-- The field whose turn it is goes into the first free slot. -/
theorem fillSlot_next {before after : List String} {name : String}
    (hnodup : (before ++ name :: after).Nodup) (strict : Bool) {filled : List (Option Item)}
    (hfilled : filled.length = before.length) (free : List (Option Item)) (item : Item) :
    fillSlot (before ++ name :: after) strict (filled ++ none :: free) (.text name, item) =
      some (filled ++ some item :: free) := by
  have hfresh : name ∉ before := by
    intro hmem
    exact (List.nodup_append.1 hnodup).2.2 name hmem name List.mem_cons_self rfl
  simp only [fillSlot, nameIndex, untagged, findIdx?_append_cons hfresh, ← hfilled]
  simp

/-- The slots of the fields that were read are full, those of the fields to come are free; at the end
    all are full. -/
theorem foldlM_fillSlot {names : List String} (hnodup : names.Nodup) (strict : Bool)
    (done todo : List (String × Item)) (hnames : (done ++ todo).map Prod.fst = names) :
    (todo.map fun field => (text field.1, field.2)).foldlM (fillSlot names strict)
        (done.map (fun field => some field.2) ++ List.replicate todo.length none) =
      some ((done ++ todo).map fun field => some field.2) := by
  induction todo generalizing done with
  | nil => simp
  | cons field todo ih =>
      have hrest := ih (done ++ [field]) (by simpa using hnames)
      rw [List.map_append, List.map_cons] at hnames
      have hfilled : (done.map fun field => some field.2).length =
          (done.map Prod.fst).length := by
        rw [List.length_map, List.length_map]
      have hnext := fillSlot_next (hnames ▸ hnodup) strict hfilled
        (List.replicate todo.length none) field.2
      rw [hnames] at hnext
      rw [List.length_cons, List.replicate_succ, List.map_cons, List.foldlM_cons, hnext]
      simpa using hrest

/-- The fields of a record that was sent are found in their order. -/
theorem fieldSlots_record {names : List String} {fields : List (String × Item)}
    (hnames : fields.map Prod.fst = names) (hnodup : names.Nodup) (strict : Bool) :
    fieldSlots names strict (record fields) = some (fields.map fun field => some field.2) := by
  have hall := foldlM_fillSlot hnodup strict [] fields hnames
  rw [List.map_nil, List.nil_append, List.nil_append] at hall
  rw [← hall, ← hnames, ← List.length_map]
  rfl

/-- What is made of the slots of a record that came back: they are all full. -/
theorem bind_fieldSlots_settled {α : Type} {names : List String} {fields : List (String × Item)}
    {strict : Bool} {make : List (Option Item) → Option α} {a : α}
    (hnames : fields.map Prod.fst = names) (hnodup : names.Nodup)
    (hmake : make (fields.map fun field => some field.2.settled) = some a) :
    (fieldSlots names strict (record fields).settled >>= make) = some a := by
  rw [settled_record, fieldSlots_record _ hnodup, List.map_map]
  · exact hmake
  · rw [List.map_map]
    exact hnames

/-- What is made of the fields of a record that came back. -/
theorem bind_fields?_settled {α : Type} {names : List String} {fields : List (String × Item)}
    {make : List Item → Option α} {a : α} (hnames : fields.map Prod.fst = names)
    (hnodup : names.Nodup) (hmake : make (fields.map fun field => field.2.settled) = some a) :
    (fields? names (record fields).settled >>= make) = some a := by
  have hpresent : (fields.map fun field => some field.2.settled).mapM id =
      some (fields.map fun field => field.2.settled) := by
    rw [option_mapM_eq_some_iff, List.forall₂_map_left_iff, List.forall₂_map_right_iff,
      List.forall₂_same]
    exact fun _ _ => rfl
  rw [fields?, bind_assoc]
  apply bind_fieldSlots_settled hnames hnodup
  rw [hpresent]
  exact hmake

/-! ### Variants -/

theorem settled_variantOf (name : String) (payload : Item) :
    (variantOf name payload).settled = variantOf name payload.settled := rfl

theorem depth_variantOf (name : String) (payload : Item) :
    (variantOf name payload).depth = payload.depth + 1 := by
  simp only [variantOf, mapOf, depth, depthEntries]
  omega

theorem withinWords_variantOf {payload : Item} (h : payload.WithinWords) (name : String) :
    (variantOf name payload).WithinWords :=
  ⟨⟨trivial, h⟩, trivial⟩

theorem write_variantOf_congr {payload payload' : Item} (h : payload.write = payload'.write)
    (name : String) : (variantOf name payload).write = (variantOf name payload').write := by
  simp only [variantOf, mapOf, write, writeEntries, h]
  rfl

theorem nameIndex_text {names : List String} {name : String} {i : Nat}
    (hi : names.findIdx? (· = name) = some i) : nameIndex names (.text name) = some (some i) := by
  simp only [nameIndex, untagged, hi]

/-- What is made of a variant that came back with its payload. -/
theorem bind_variant?_settled {α : Type} {names : List String} {name : String} {i : Nat}
    {payload : Item} {make : Nat × Payload → Option α} {a : α}
    (hi : names.findIdx? (· = name) = some i) (hmake : make (i, .single payload.settled) = some a) :
    (variant? names (variantOf name payload).settled >>= make) = some a := by
  have hshort : variantOf name payload.settled =
      map .immediate [(.text name, payload.settled)] := rfl
  rw [settled_variantOf, hshort]
  simp only [variant?, nameIndex_text hi]
  exact hmake

/-- What is made of a variant that came back as a bare name. -/
theorem bind_variant?_text {α : Type} {names : List String} {name : String} {i : Nat}
    {make : Nat × Payload → Option α} {a : α} (hi : names.findIdx? (· = name) = some i)
    (hmake : make (i, .absent) = some a) : (variant? names (.text name) >>= make) = some a := by
  simp only [variant?, nameIndex_text hi]
  exact hmake

theorem plainVariant?_text {α : Type} {names : List String} {values : List α} {name : String}
    {i : Nat} {a : α} (hi : names.findIdx? (· = name) = some i) (ha : values[i]? = some a) :
    plainVariant? names values (.text name) = some a :=
  bind_variant?_text hi ha

/-! ### Texts, numbers and lists -/

instance : Faithful String where
  received := id
  withinWords _ := trivial
  ofItem?_settled _ := rfl
  write_received _ := rfl

instance : Faithful UInt64 where
  received := id
  withinWords n := n.toNat_lt
  ofItem?_settled n := by
    simp only [toItem, ofItem?, settled, natBelow?, untagged]
    rw [if_pos n.toNat_lt, Option.map_some, UInt64.ofNat_toNat]
    rfl
  write_received _ := rfl

theorem settled_int (z : Int) : (int z).settled = int z := by
  unfold int
  split <;> rfl

theorem withinWords_int {width : Nat} (hwidth : width ≤ 8) {z : Int}
    (hfits : Number.TwosComplement.fits width z = true) : (int z).WithinWords := by
  have hhalf : 1 <<< (8 * width - 1) ≤ 2 ^ 63 := by
    rw [Nat.one_shiftLeft]
    exact Nat.pow_le_pow_right (by decide) (by omega)
  simp only [Number.TwosComplement.fits, Bool.and_eq_true, decide_eq_true_eq] at hfits
  unfold int
  split
  · show z.toNat < 2 ^ 64
    omega
  · show (-1 - z).toNat < 2 ^ 64
    omega

theorem int?_int {width : Nat} {z : Int} (hfits : Number.TwosComplement.fits width z = true) :
    int? width (int z) = some z := by
  unfold int
  split
  · have hz : (z.toNat : Int) = z := by omega
    simp only [int?, untagged, hz, Option.filter_some, hfits, if_true]
  · have hz : -1 - ((-1 - z).toNat : Int) = z := by omega
    simp only [int?, untagged, hz, Option.filter_some, hfits, if_true]

instance {α : Type} [Shippable α] [Faithful α] : Faithful (List α) where
  received := List.map received
  withinWords as := by
    simp only [toItem, WithinWords, withinWordsAll_iff, List.forall_mem_map]
    intro a _
    exact withinWords a
  ofItem?_settled as := by
    simp only [toItem, ofItem?, settled, untagged, settledAll_eq_map]
    rw [option_mapM_eq_some_iff, List.map_map, List.forall₂_map_left_iff,
      List.forall₂_map_right_iff, List.forall₂_same]
    intro a _
    exact ofItem?_settled a
  write_received as := by
    have hitems : writeAll ((as.map received).map toItem) = writeAll (as.map toItem) := by
      apply writeAll_congr
      rw [List.map_map, List.forall₂_map_left_iff, List.forall₂_map_right_iff, List.forall₂_same]
      intro a _
      exact write_received a
    simp only [toItem, write, List.length_map, hitems]

end Transport

end TokenScan
