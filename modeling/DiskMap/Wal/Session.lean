import DiskMap.Library.GuardedRun
import DiskMap.Wal.CommittedBytes

namespace DiskMap
open ByteMemory Database

inductive WalOp
  | begin
  | set (txnId loc writeLength : Nat) (data : List UInt8) (evicted : Option Nat)
  | commit (txnId : Nat)
  | abort (txnId : Nat) (evicted : Nat → Option Nat)
  | evict (pageLsn : Nat)
  | requestCheckpoint
  | checkpoint

/-- One life of a WAL object. `openTxns` are the ids that `begin` has handed out and that have
neither committed nor aborted. `durable` is the data file as the last checkpoint left it, at
which time there were `durableRecords` records; the log file has started at `logStart` since. -/
structure Session where
  db : Database
  openTxns : List Nat
  durable : Mem
  durableRecords : Nat
  logStart : Nat

namespace Session

/-- `checkpoint` is `checkpoint_internal` past its wait for the active transactions. -/
def step (s : Session) : WalOp → Option Session
  | .begin =>
    match s.db.begin with
    | some (txnId, db) => some { s with db, openTxns := txnId :: s.openTxns }
    | none => none
  | .set txnId loc writeLength data evicted =>
    some { s with db := s.db.set txnId loc writeLength data evicted }
  | .commit txnId => some { s with db := s.db.commit txnId, openTxns := s.openTxns.erase txnId }
  | .abort txnId evicted =>
    match s.db.abort txnId evicted with
    | .ok db => some { s with db, openTxns := s.openTxns.erase txnId }
    | .error _ => none
  | .evict pageLsn => some { s with db := { s.db with wal := s.db.wal.flushUpTo pageLsn } }
  | .requestCheckpoint => some { s with db := { s.db with wal := { s.db.wal with checkpointPending := true } } }
  | .checkpoint =>
    if s.db.wal.checkpointPending ∧ s.db.wal.activeTransactions ≤ 0 then
      some { s with
        db := s.db.checkpointInternal
        durable := s.db.pages
        durableRecords := s.db.wal.records.length
        logStart := s.db.wal.unflushedRecordIndex }
    else none

end Session

/-- The range lies inside one page and the buffer does not exceed it. -/
structure InsidePage (loc writeLength : Nat) (data : List UInt8) : Prop where
  page : loc % pageSize + writeLength ≤ pageSize
  address : loc < 2 ^ 64
  buffer : data.length ≤ writeLength

instance (loc writeLength : Nat) (data : List UInt8) : Decidable (InsidePage loc writeLength data) :=
  decidable_of_iff (loc % pageSize + writeLength ≤ pageSize ∧ loc < 2 ^ 64 ∧ data.length ≤ writeLength)
    ⟨fun ⟨page, address, buffer⟩ => ⟨page, address, buffer⟩, fun ⟨page, address, buffer⟩ => ⟨page, address, buffer⟩⟩

/-- The rollback of a transaction starts its search before the first SET of the transaction. -/
def RollbackCovers (records : List InMemoryWALRecord) (txnId : Nat) : Prop :=
  ∀ r ∈ records.take (undoStart records txnId), ¬ setBy txnId r

/-- Calls as a client makes them that keeps other transactions off the bytes an unfinished one
has set. -/
def IsolatedCall (s : Session) : WalOp → Prop
  | .set txnId loc writeLength data _ =>
    txnId ∈ s.openTxns ∧ InsidePage loc writeLength data ∧
      ∀ a, loc ≤ a → a < loc + writeLength → ∀ id ∈ s.openTxns, id ≠ txnId → ¬ SetsByte s.db.wal.records id a
  | .commit txnId => txnId ∈ s.openTxns
  | .abort txnId _ => txnId ∈ s.openTxns ∧ RollbackCovers s.db.wal.records txnId
  | _ => True

/-- Transactions one after another, as the global lock makes them. -/
def SerialCall (s : Session) : WalOp → Prop
  | .begin => s.openTxns = []
  | .set txnId loc writeLength data _ => txnId ∈ s.openTxns ∧ InsidePage loc writeLength data
  | .commit txnId => txnId ∈ s.openTxns
  | .abort txnId _ => txnId ∈ s.openTxns
  | _ => True

theorem getUnpaddedLength_le (length : Nat) (data : List UInt8) : getUnpaddedLength length data ≤ length := by
  induction length with
  | zero => rfl
  | succ length ih =>
    unfold getUnpaddedLength
    split <;> omega

/-- Everything behind the unpadded length is zero. -/
theorem getUnpaddedLength_zero {length i : Nat} {data : List UInt8} (lower : getUnpaddedLength length data ≤ i)
    (upper : i < length) : data.getD i 0 = 0 := by
  induction length with
  | zero => omega
  | succ length ih =>
    unfold getUnpaddedLength at lower
    split at lower
    · omega
    · rename_i zero
      by_cases same : i = length
      · subst same
        simpa using zero
      · exact ih lower (by omega)

/-- Trimming the trailing zeros loses nothing under the implied zero fill. -/
theorem take_unpadded_getD {length i : Nat} {data : List UInt8} (within : i < length) :
    (data.take (getUnpaddedLength length data)).getD i 0 = data.getD i 0 := by
  by_cases stored : i < getUnpaddedLength length data
  · simp only [List.getD_eq_getElem?_getD, List.getElem?_take, if_pos stored]
  · have zero : data.getD i 0 = 0 := getUnpaddedLength_zero (by omega) within
    simp only [zero, List.getD_eq_getElem?_getD, List.getElem?_take, if_neg stored, Option.getD_none]

namespace Database

/-- The record that `set` creates. -/
def setRecord (d : Database) (txnId loc writeLength : Nat) (data : List UInt8) : InMemoryWALRecord :=
  let oldValue := slice d.pages loc writeLength
  let fromLength := getUnpaddedLength writeLength oldValue
  let header : SetRecord :=
    { loc
      length := writeLength % 2 ^ 16
      oldValueLen := fromLength % 2 ^ 16
      newValueLen := data.length % 2 ^ 16 }
  InMemoryWALRecord.withChecksum
    { checksum := 0, lsn := d.wal.nextLsn, txnId, body := .set header, data := oldValue.take fromLength ++ data }

theorem set_extends (d : Database) (txnId loc writeLength : Nat) (data : List UInt8) (evicted : Option Nat) :
    d.Extends [d.setRecord txnId loc writeLength data] (d.set txnId loc writeLength data evicted) where
  wal := by
    have flushed := d.wal.takeLsn.getPage_sameButFile evicted
    refine ⟨?_, flushed.nextTxnId, flushed.activeTransactions, flushed.checkpointPending, ?_, ?_, ?_, ?_⟩
    · change (d.wal.takeLsn.getPage evicted).records ++ _ = _
      rw [flushed.records]
      rfl
    · intro _
      exact flushed.nextLsn
    · intro small
      simp only [List.map_cons, List.map_nil, List.length_singleton, List.range_one, Nat.add_zero]
      rw [Nat.mod_eq_of_lt small]
      rfl
    · intro bound
      have upper := (d.wal.takeLsn.getPage_extends evicted).flushedBound bound
      change _ ≤ ((d.wal.takeLsn.getPage evicted).records ++ _).length
      rw [List.length_append]
      exact upper.trans (Nat.le_add_right _ _)
    · intro start holds
      exact (flushed.logHolds start holds.takeLsn).push _
  pages := rfl

section
variable {d : Database} {txnId loc writeLength : Nat} {data : List UInt8}

theorem setRecord_isSet : isSet (d.setRecord txnId loc writeLength data) := rfl

theorem InsidePage.lengths (inside : InsidePage loc writeLength data) :
    writeLength < 2 ^ 16 ∧ data.length < 2 ^ 16 := by
  have page := inside.page
  have buffer := inside.buffer
  unfold pageSize at page
  omega

theorem setRecord_touches (inside : InsidePage loc writeLength data) {a : Nat} :
    (d.setRecord txnId loc writeLength data).newByte a ≠ none ↔ loc ≤ a ∧ a < loc + writeLength := by
  have small := (InsidePage.lengths inside).1
  simp only [setRecord, InMemoryWALRecord.withChecksum, InMemoryWALRecord.newByte, Nat.mod_eq_of_lt small]
  split <;> simp_all

/-- The stored old value, with its implied zero fill, is what the page holds. -/
theorem setRecord_old (inside : InsidePage loc writeLength data) {a : Nat} {v : UInt8}
    (old : (d.setRecord txnId loc writeLength data).oldByte a = some v) : v = d.pages a := by
  have small := (InsidePage.lengths inside).1
  have bound := getUnpaddedLength_le writeLength (slice d.pages loc writeLength)
  simp only [setRecord, InMemoryWALRecord.withChecksum, InMemoryWALRecord.oldByte, Nat.mod_eq_of_lt small,
    Nat.mod_eq_of_lt (bound.trans_lt small)] at old
  split at old
  · rename_i range
    have within : a - loc < writeLength := by omega
    have address : loc + (a - loc) = a := by omega
    have byte := slice_getD d.pages loc within
    rw [address] at byte
    have length : (List.take (getUnpaddedLength writeLength (slice d.pages loc writeLength))
        (slice d.pages loc writeLength)).length = getUnpaddedLength writeLength (slice d.pages loc writeLength) := by
      rw [List.length_take, slice_length, Nat.min_eq_left bound]
    rw [List.take_append_of_le_length length.ge, List.take_take, Nat.min_self, take_unpadded_getD within] at old
    rw [← Option.some.inj old, byte]
  · cases old

theorem setRecord_valid (inside : InsidePage loc writeLength data) (lsn : d.wal.nextLsn < 2 ^ 32)
    (txn : txnId < 2 ^ 32) : (d.setRecord txnId loc writeLength data).Valid where
  checksum := rfl
  lsn := lsn
  txnId := txn
  body := ⟨inside.address, Nat.mod_lt _ (by decide), Nat.mod_lt _ (by decide), Nat.mod_lt _ (by decide)⟩
  data := by
    obtain ⟨small, buffer⟩ := InsidePage.lengths inside
    have bound := getUnpaddedLength_le writeLength (slice d.pages loc writeLength)
    simp only [setRecord, InMemoryWALRecord.withChecksum, recordDataSize, List.length_append, List.length_take,
      slice_length, Nat.min_eq_left bound, Nat.mod_eq_of_lt buffer, Nat.mod_eq_of_lt (bound.trans_lt small)]

end

end Database

end DiskMap
