import DiskMap.Wal.Session

namespace DiskMap
open ByteMemory Database

/-- Applying the record changes the pages in this range only, and a second time it changes nothing. -/
structure WritesRange (r : InMemoryWALRecord) (loc length : Nat) : Prop where
  outside : ∀ (d : Database) evicted a, a < loc ∨ loc + length ≤ a → (d.applyRecord evicted r).pages a = d.pages a
  again : ∀ (d : Database) evicted evicted',
    ((d.applyRecord evicted r).applyRecord evicted' r).pages = (d.applyRecord evicted r).pages

namespace Database

theorem applyRecord_pages (d : Database) (evicted : Option Nat) (r : InMemoryWALRecord) :
    (d.applyRecord evicted r).pages = r.applyTo d.pages := by
  rcases r with ⟨_, _, _, body, _⟩
  cases body <;> rfl

variable {r : InMemoryWALRecord} {loc length writeLength : Nat} {data : List UInt8}

theorem writesRange_of_overwrite {bytes : List UInt8} (writes : ∀ pages, r.applyTo pages = overwrite pages loc length bytes) :
    WritesRange r loc length where
  outside d evicted a apart := by
    rw [applyRecord_pages, writes]
    exact overwrite_outside apart
  again d evicted evicted' := by
    rw [applyRecord_pages, applyRecord_pages, writes, writes]
    funext a
    by_cases inside : loc ≤ a ∧ a < loc + length
    · rw [overwrite_inside inside.1 inside.2, overwrite_inside inside.1 inside.2]
    · rw [overwrite_outside (by omega)]

/-- The SET record writes the buffer, and zeros behind it. -/
theorem setRecord_writes (d : Database) (txnId : Nat) (inside : InsidePage loc writeLength data) (pages : Mem) :
    (d.setRecord txnId loc writeLength data).applyTo pages = overwrite pages loc writeLength data := by
  obtain ⟨small, buffer⟩ := InsidePage.lengths inside
  have bound := getUnpaddedLength_le writeLength (slice d.pages loc writeLength)
  have trimmed : (List.take (getUnpaddedLength writeLength (slice d.pages loc writeLength))
      (slice d.pages loc writeLength)).length = getUnpaddedLength writeLength (slice d.pages loc writeLength) := by
    rw [List.length_take, slice_length, Nat.min_eq_left bound]
  simp only [setRecord, InMemoryWALRecord.withChecksum, InMemoryWALRecord.applyTo, Nat.mod_eq_of_lt small,
    Nat.mod_eq_of_lt buffer, Nat.mod_eq_of_lt (bound.trans_lt small)]
  rw [List.drop_append_of_le_length trimmed.ge, List.drop_eq_nil_of_le trimmed.le, List.nil_append, List.take_length]

/-- The CLR writes the old bytes, with zeros for those that have been trimmed. -/
theorem compensation_writes (d : Database) (txnId : Nat) (inside : InsidePage loc writeLength data) (w : WAL) :
    ∃ clr w', createCompensationRecord w (d.setRecord txnId loc writeLength data) = .ok (clr, w') ∧
      ∀ pages, clr.applyTo pages = overwrite pages loc writeLength (slice d.pages loc writeLength) := by
  obtain ⟨small, _⟩ := InsidePage.lengths inside
  have bound := getUnpaddedLength_le writeLength (slice d.pages loc writeLength)
  have trimmed : (List.take (getUnpaddedLength writeLength (slice d.pages loc writeLength))
      (slice d.pages loc writeLength)).length = getUnpaddedLength writeLength (slice d.pages loc writeLength) := by
    rw [List.length_take, slice_length, Nat.min_eq_left bound]
  refine ⟨_, _, rfl, fun pages => ?_⟩
  simp only [setRecord, InMemoryWALRecord.withChecksum, InMemoryWALRecord.applyTo, Nat.mod_eq_of_lt small,
    Nat.mod_eq_of_lt (bound.trans_lt small)]
  rw [List.take_append_of_le_length trimmed.ge, List.take_take, List.take_take, Nat.min_self, Nat.min_self]
  funext a
  by_cases range : loc ≤ a ∧ a < loc + writeLength
  · rw [overwrite_inside range.1 range.2, overwrite_inside range.1 range.2, take_unpadded_getD (by omega)]
  · rw [overwrite_outside (by omega), overwrite_outside (by omega)]

theorem overwrite_slice_self (pages : Mem) (loc length : Nat) (bytes : List UInt8) :
    overwrite (overwrite pages loc length bytes) loc length (slice pages loc length) = pages := by
  funext a
  by_cases range : loc ≤ a ∧ a < loc + length
  · rw [overwrite_inside range.1 range.2, slice_getD pages loc (by omega), Nat.add_sub_cancel' range.1]
  · rw [overwrite_outside (by omega), overwrite_outside (by omega)]

/-- `set` leaves the buffer and zeros behind it in the range, and the CLR for its record brings back what was there. -/
theorem set_undone (d : Database) (txnId : Nat) (evicted : Option Nat) (inside : InsidePage loc writeLength data) :
    let after := d.set txnId loc writeLength data evicted
    slice after.pages loc writeLength = data ++ List.replicate (writeLength - data.length) 0 ∧
      (∀ a, a < loc ∨ loc + writeLength ≤ a → after.pages a = d.pages a) ∧
      ∃ r, after.wal.records = d.wal.records ++ [r] ∧ WritesRange r loc writeLength ∧
        ∀ w, ∃ clr w', createCompensationRecord w r = .ok (clr, w') ∧ WritesRange clr loc writeLength ∧
          ∀ evicted', (after.applyRecord evicted' clr).pages = d.pages := by
  intro after
  have extends_ := d.set_extends txnId loc writeLength data evicted
  have pages : after.pages = overwrite d.pages loc writeLength data := setRecord_writes d txnId inside d.pages
  refine ⟨?_, fun a apart => ?_, _, extends_.wal.records, writesRange_of_overwrite (setRecord_writes d txnId inside), fun w => ?_⟩
  · have stored := (Holds.overwrite d.pages loc writeLength data).slice_zeros (k := writeLength - data.length)
      (Nat.add_sub_cancel' inside.buffer).le
    rwa [Nat.add_sub_cancel' inside.buffer, ← pages] at stored
  · rw [pages]
    exact overwrite_outside apart
  · obtain ⟨clr, w', created, writes⟩ := compensation_writes d txnId inside w
    refine ⟨clr, w', created, writesRange_of_overwrite writes, fun evicted' => ?_⟩
    rw [applyRecord_pages, writes, pages, overwrite_slice_self]

theorem set_undone_zeros : ∃ r, ((⟨{}, fun _ => 0⟩ : Database).set 1 4090 3 [5, 0] none).wal.records = [] ++ [r] ∧
    WritesRange r 4090 3 := by
  obtain ⟨_, _, r, records, writes, _⟩ := set_undone ⟨{}, fun _ => 0⟩ 1 none
    (show InsidePage 4090 3 [5, 0] from ⟨by decide, by decide, by decide⟩)
  exact ⟨r, records, writes⟩

end Database

end DiskMap
