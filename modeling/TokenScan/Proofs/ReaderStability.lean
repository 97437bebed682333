/-
Module: TokenScan.Proofs.ReaderStability
Purpose: Readers never look past what they take. What a reader takes off the front of some bytes it
  takes off them as well when more bytes follow, and then those are left. So the bytes of an item end
  where the item ends: a part of them that lacks the end is read to nothing, and bytes after the end
  are not part of the item.
Main exports: Stable, readItem_stable, readItem_of_cut, read?_of_cut, read?_of_extended
-/
import TokenScan.Proofs.ItemRoundTrip

namespace TokenScan.Cbor

/-- What the reader takes off some bytes it takes off them whatever follows, and what follows is
    left. -/
structure Stable {α : Type} (reader : Reader α) : Prop where
  append : ∀ {bs a rest}, reader bs = some (a, rest) →
    ∀ more, reader (bs ++ more) = some (a, rest ++ more)

section Combinators

variable {α β : Type} {reader : Reader α}

theorem stable_none : Stable fun _ => (none : Option (α × Bytes)) :=
  ⟨fun h => by simp at h⟩

/-- A reader that takes nothing. -/
theorem stable_some (a : α) : Stable fun bs => some (a, bs) := by
  constructor
  intro bs b rest h more
  cases h
  rfl

theorem stable_map (hreader : Stable reader) (f : α → β) :
    Stable fun bs => (reader bs).map fun p => (f p.1, p.2) := by
  constructor
  intro bs b rest h more
  obtain ⟨⟨a, left⟩, hread, hb⟩ := Option.map_eq_some_iff.1 h
  cases hb
  simp only [hreader.append hread more, Option.map_some]

/-- One reader after another, which may depend on what the first has read. -/
theorem stable_bind {next : α → Reader β} (hreader : Stable reader)
    (hnext : ∀ a, Stable (next a)) : Stable fun bs => reader bs >>= fun p => next p.1 p.2 := by
  constructor
  intro bs b rest h more
  obtain ⟨⟨a, left⟩, hread, hb⟩ := Option.bind_eq_some_iff.1 h
  simp only [hreader.append hread more, Option.bind_eq_bind, Option.bind_some]
  exact (hnext a).append hb more

/-- A reader that goes by the first byte. -/
theorem stable_of_cons {next : UInt8 → Reader α} (hempty : reader [] = none)
    (hcons : ∀ b bs, reader (b :: bs) = next b bs) (hnext : ∀ b, Stable (next b)) :
    Stable reader := by
  constructor
  intro bs a rest h more
  cases bs with
  | nil =>
      rw [hempty] at h
      simp at h
  | cons b bs =>
      rw [hcons] at h
      rw [List.cons_append, hcons]
      exact (hnext b).append h more

theorem readMany_stable (hreader : Stable reader) (count : Nat) :
    Stable (readMany reader count) := by
  induction count with
  | zero => exact stable_some []
  | succ count ih =>
      exact stable_bind hreader fun a => stable_bind ih fun as => stable_some (a :: as)

theorem readPair_stable (hreader : Stable reader) : Stable (readPair reader) :=
  stable_bind hreader fun a => stable_bind hreader fun b => stable_some (a, b)

/-- More fuel does no harm. The reader must need a byte, or else a break that follows would be taken
    for the end of what was read. -/
theorem readUntilBreak_append (hreader : Stable reader) (hempty : reader [] = none)
    {fuel fuel' : Nat} (hfuel : fuel ≤ fuel') {bs rest : Bytes} {as : List α}
    (h : readUntilBreak reader fuel bs = some (as, rest)) (more : Bytes) :
    readUntilBreak reader fuel' (bs ++ more) = some (as, rest ++ more) := by
  fun_induction readUntilBreak reader fuel bs generalizing fuel' as with
  | case1 => cases fuel' <;> simp_all [readUntilBreak]
  | case2 => simp at h
  | case3 fuel bs hbreak ih =>
      obtain ⟨⟨a, left⟩, hread, h⟩ := Option.bind_eq_some_iff.1 h
      obtain ⟨⟨others, left'⟩, hothers, h⟩ := Option.bind_eq_some_iff.1 h
      cases h
      cases fuel' with
      | zero => omega
      | succ fuel' =>
          cases bs with
          | nil =>
              rw [hempty] at hread
              simp at hread
          | cons b bs =>
              have hrest := ih left (Nat.le_of_succ_le_succ hfuel) hothers
              have hmore := hreader.append hread more
              rw [List.cons_append] at hmore ⊢
              rw [readUntilBreak, hmore]
              · simp [hrest]
              · rintro tail hhead
                obtain ⟨rfl, -⟩ := List.cons.inj hhead
                exact hbreak bs rfl

/-- Things up to a break, as many as there may be. -/
theorem readUntilBreak_stable (hreader : Stable reader) (hempty : reader [] = none) :
    Stable fun bs => readUntilBreak reader bs.length bs := by
  constructor
  intro bs as rest h more
  have hfuel : bs.length ≤ (bs ++ more).length := by
    rw [List.length_append]
    exact Nat.le_add_right _ _
  exact readUntilBreak_append hreader hempty hfuel h more

end Combinators

/-! ### The readers of items -/

theorem takeBytes_stable (n : Nat) : Stable (takeBytes n) := by
  constructor
  intro bs front rest h more
  simp only [takeBytes] at h
  split at h
  · next hlength =>
      cases h
      rw [← takeBytes_append hlength (bs.drop n ++ more), ← List.append_assoc, List.take_append_drop]
  · simp at h

theorem readNumber_stable (width : Nat) : Stable (readNumber width) :=
  stable_map (takeBytes_stable width) Number.ofBigEndian

theorem readArgument_stable (low : Nat) : Stable (readArgument low) := by
  unfold readArgument
  split
  · exact stable_some low
  · split
    · exact readNumber_stable 1
    · split
      · exact readNumber_stable 2
      · split
        · exact readNumber_stable 4
        · split
          · exact readNumber_stable 8
          · exact stable_none

theorem readPiece_stable (kind : Nat) : Stable (readPiece kind) := by
  have hcons : ∀ b bs, readPiece kind (b :: bs) =
      if b.toNat / 32 = kind then readArgument (b.toNat % 32) bs >>= fun p => takeBytes p.1 p.2
      else none := fun _ _ => rfl
  apply stable_of_cons rfl hcons
  intro b
  split
  · exact stable_bind (readArgument_stable _) takeBytes_stable
  · exact stable_none

theorem readString_stable (kind low : Nat) : Stable (readString kind low) := by
  unfold readString
  split
  · exact stable_map (readUntilBreak_stable (readPiece_stable kind) rfl) List.flatten
  · exact stable_bind (readArgument_stable low) takeBytes_stable

theorem readLeaf_stable (kind low : Nat) : Stable (readLeaf kind low) := by
  unfold readLeaf
  split
  · exact stable_map (readArgument_stable low) Item.unsigned
  · exact stable_map (readArgument_stable low) Item.negative
  · exact stable_map (readString_stable _ low) Item.bytes
  · have htext : ∀ s, Stable fun bs => do return (Item.text (← Text.ofUtf8? s), bs) := by
      intro s
      cases Text.ofUtf8? s with
      | none => exact stable_none
      | some text => exact stable_some (Item.text text)
    exact stable_bind (readString_stable _ low) htext
  · split
    · exact stable_some (Item.bool false)
    · exact stable_some (Item.bool true)
    · exact stable_some Item.unit
    · exact stable_some Item.unit
    · exact stable_map (readNumber_stable 2) (readLeaf.widened Binary.binary16)
    · exact stable_map (readNumber_stable 4) (readLeaf.widened Binary.binary32)
    · exact stable_map (readNumber_stable 8) fun n => Item.float (UInt64.ofNat n)
    · exact stable_none
  · exact stable_none

section Nested

variable {reader : Reader Item} (hreader : Stable reader) (low : Nat)

include hreader

theorem readTagged_stable : Stable (readTagged reader low) :=
  stable_bind (readArgument_stable low) fun tag =>
    stable_bind hreader fun item => stable_some (Item.tagged tag item)

variable (hempty : reader [] = none)

include hempty

theorem readElements_stable : Stable (readElements reader low) := by
  unfold readElements
  split
  · exact stable_map (readUntilBreak_stable hreader hempty) Item.array
  · exact stable_bind (readArgument_stable low) fun count =>
      stable_bind (readMany_stable hreader count) fun items => stable_some (Item.array items)

theorem readEntries_stable : Stable (readEntries reader low) := by
  have hpair : readPair reader [] = none := by
    rw [readPair, hempty]
    rfl
  unfold readEntries
  split
  · exact stable_map (readUntilBreak_stable (readPair_stable hreader) hpair) (Item.map .indefinite)
  · exact stable_bind (readArgument_stable low) fun count =>
      stable_bind (readMany_stable (readPair_stable hreader) count) fun entries =>
        stable_some (Item.map (if low < 24 then .immediate else .extended) entries)

end Nested

/-- An item is read alike whatever follows it. -/
theorem readItem_stable (limit : Nat) : Stable (readItem limit) := by
  induction limit with
  | zero =>
      apply stable_of_cons (by rw [readItem]) fun _ _ => by rw [readItem]
      intro b
      split
      · exact stable_none
      · exact readLeaf_stable _ _
  | succ limit ih =>
      have hempty : readItem limit [] = none := by
        rw [readItem]
      apply stable_of_cons (by rw [readItem]) fun _ _ => by rw [readItem]
      intro b
      split
      · exact readElements_stable ih _ hempty
      · exact readEntries_stable ih _ hempty
      · exact readTagged_stable ih _
      · exact readLeaf_stable _ _

/-! ### Damage to the bytes of an item -/

section Damage

variable {item : Item} (hwords : item.WithinWords)

include hwords

/-- Nothing is read when the end of an item is lost: what was read would be read from the whole too,
    and the lost bytes would be left over there. -/
theorem readItem_of_cut {front lost : Bytes} (hlength : item.write.length < 2 ^ 64)
    (hsplit : item.write = front ++ lost) (hlost : lost ≠ []) (limit : Nat) :
    readItem limit front = none := by
  cases hread : readItem limit front with
  | none => rfl
  | some p =>
      have hwhole := (readItem_stable limit).append hread lost
      rw [← hsplit, ← List.append_nil item.write, readItem_write item limit [] hwords hlength]
        at hwhole
      split at hwhole
      · injection hwhole with hpair
        obtain ⟨-, hrest⟩ := Prod.mk.inj hpair
        exact absurd (List.append_eq_nil_iff.1 hrest.symm).2 hlost
      · simp at hwhole

theorem read?_of_cut {front lost : Bytes} (hlength : item.write.length < 2 ^ 64)
    (hsplit : item.write = front ++ lost) (hlost : lost ≠ []) : read? front = none := by
  rw [read?, readItem_of_cut hwords hlength hsplit hlost]

/-- Bytes after the end of an item are left over. -/
theorem read?_of_extended {extra : Bytes} (hlength : item.write.length < 2 ^ 64)
    (hextra : extra ≠ []) : read? (item.write ++ extra) = none := by
  rw [read?, readItem_write item nestingLimit extra hwords hlength]
  split
  · next hread =>
      split at hread
      · injection hread with hpair
        exact absurd (Prod.mk.inj hpair).2 hextra
      · simp at hread
  · rfl

end Damage

end TokenScan.Cbor
