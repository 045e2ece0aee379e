import DiskMap.Wal.Replay

namespace DiskMap
open ByteMemory

theorem pwrite_end (file bytes : List UInt8) : pwrite file file.length bytes = file ++ bytes := by
  simp [pwrite]

theorem encodeAll_append (front back : List InMemoryWALRecord) :
    encodeAll (front ++ back) = encodeAll front ++ encodeAll back := by
  simp [encodeAll]

namespace WAL

/-- The log file holds the records from `start` up to the first unflushed one, and the next
flush writes behind them. -/
structure LogHolds (start : Nat) (w : WAL) : Prop where
  position : w.logPos = w.log.length
  lower : start ≤ w.unflushedRecordIndex
  upper : w.unflushedRecordIndex ≤ w.records.length
  content : w.log = encodeAll ((w.records.take w.unflushedRecordIndex).drop start)

/-- The two states differ in nothing but how much of the log is in the file. -/
structure SameButFile (w w' : WAL) : Prop where
  nextLsn : w'.nextLsn = w.nextLsn
  nextTxnId : w'.nextTxnId = w.nextTxnId
  records : w'.records = w.records
  activeTransactions : w'.activeTransactions = w.activeTransactions
  checkpointPending : w'.checkpointPending = w.checkpointPending
  logHolds : ∀ start, w.LogHolds start → w'.LogHolds start

theorem SameButFile.refl (w : WAL) : w.SameButFile w :=
  ⟨rfl, rfl, rfl, rfl, rfl, fun _ holds => holds⟩

theorem LogHolds.flush {start : Nat} {w : WAL} (holds : w.LogHolds start) : w.flush.LogHolds start where
  position := by simp [WAL.flush, holds.position, pwrite_end]
  lower := holds.lower.trans holds.upper
  upper := le_rfl
  content := by
    have split : (w.records.take w.unflushedRecordIndex).drop start ++ w.records.drop w.unflushedRecordIndex =
        w.records.drop start := by
      have length : (w.records.take w.unflushedRecordIndex).length = w.unflushedRecordIndex :=
        List.length_take_of_le holds.upper
      rw [← List.drop_append_of_le_length (by rw [length]; exact holds.lower), List.take_append_drop]
    simp only [WAL.flush, holds.position, pwrite_end, List.take_length]
    rw [holds.content, ← encodeAll_append, split]

theorem flush_sameButFile (w : WAL) : w.SameButFile w.flush :=
  ⟨rfl, rfl, rfl, rfl, rfl, fun _ holds => holds.flush⟩

theorem flushUpTo_sameButFile (w : WAL) (lsn : Nat) : w.SameButFile (w.flushUpTo lsn) := by
  unfold flushUpTo
  split
  · split
    · exact w.flush_sameButFile
    · exact .refl w
  · exact .refl w

theorem getPage_sameButFile (w : WAL) (evicted : Option Nat) : w.SameButFile (w.getPage evicted) := by
  cases evicted with
  | none => exact .refl w
  | some lsn => exact w.flushUpTo_sameButFile lsn

theorem LogHolds.push {start : Nat} {w : WAL} (holds : w.LogHolds start) (r : InMemoryWALRecord) :
    (w.push r).LogHolds start where
  position := holds.position
  lower := holds.lower
  upper := by
    have upper := holds.upper
    simp only [WAL.push, List.length_append]
    omega
  content := by
    simp only [WAL.push]
    rw [List.take_append_of_le_length holds.upper]
    exact holds.content

theorem LogHolds.takeLsn {start : Nat} {w : WAL} (holds : w.LogHolds start) : w.takeLsn.LogHolds start :=
  ⟨holds.position, holds.lower, holds.upper, holds.content⟩

/-- After a flush the file holds every record since `start`. -/
theorem LogHolds.flushed {start : Nat} {w : WAL} (holds : w.LogHolds start) :
    w.flush.log = encodeAll (w.records.drop start) := by
  have content := holds.flush.content
  simpa only [WAL.flush, List.take_length] using content

end WAL

/-- The record that `create_compensation_record` builds from a SET record. -/
def compensation (lsn : Nat) (r : InMemoryWALRecord) (s : SetRecord) : InMemoryWALRecord :=
  let header : CompensationRecord :=
    { undoLsn := r.lsn, loc := s.loc, length := s.length, newValueLen := s.oldValueLen }
  let clr : InMemoryWALRecord :=
    { checksum := 0, lsn, txnId := r.txnId, body := .clr header, data := r.data.take s.oldValueLen }
  clr.withChecksum

theorem createCompensationRecord_set (w : WAL) {r : InMemoryWALRecord} {s : SetRecord} (body : r.body = .set s) :
    Database.createCompensationRecord w r = .ok (compensation w.nextLsn r s, w.takeLsn) := by
  simp only [Database.createCompensationRecord, body, compensation]

/-- Undo puts the old value of the SET record back, byte by byte. -/
theorem compensation_newByte (lsn : Nat) {r : InMemoryWALRecord} {s : SetRecord} (body : r.body = .set s) (a : Nat) :
    (compensation lsn r s).newByte a = r.oldByte a := by
  simp only [compensation, InMemoryWALRecord.withChecksum, InMemoryWALRecord.newByte,
    InMemoryWALRecord.oldByte, body, List.take_take, Nat.min_self]

theorem compensation_valid {lsn : Nat} {r : InMemoryWALRecord} {s : SetRecord} (small : lsn < 2 ^ 32)
    (valid : r.Valid) (body : r.body = .set s) : (compensation lsn r s).Valid where
  checksum := rfl
  lsn := small
  txnId := valid.txnId
  body := by
    have fits := valid.body
    rw [body] at fits
    exact ⟨valid.lsn, fits.1, fits.2.1, fits.2.2.1⟩
  data := by
    have data := valid.data
    rw [body] at data
    simp only [recordDataSize] at data
    simp only [compensation, InMemoryWALRecord.withChecksum, recordDataSize, List.length_take]
    omega

end DiskMap
