import DiskMap.Wal.Record
import Mathlib.Data.List.Dedup

namespace DiskMap
open ByteMemory

/-- The members of `WAL` that its operations read, and the bytes of the log file. -/
structure WAL where
  nextLsn : Nat := 0
  nextTxnId : Nat := 0
  logPos : Nat := 0
  records : List InMemoryWALRecord := []
  unflushedRecordIndex : Nat := 0
  activeTransactions : Int := 0
  checkpointPending : Bool := false
  log : List UInt8 := []

def pwrite (file : List UInt8) (pos : Nat) (bytes : List UInt8) : List UInt8 :=
  file.take pos ++ List.replicate (pos - file.length) 0 ++ bytes ++ file.drop (pos + bytes.length)

namespace WAL

def push (w : WAL) (r : InMemoryWALRecord) : WAL :=
  { w with records := w.records ++ [r] }

/-- `next_lsn++` on a 32-bit counter. -/
def takeLsn (w : WAL) : WAL :=
  { w with nextLsn := (w.nextLsn + 1) % 2 ^ 32 }

/-- A record without data, as `begin`, `commit`, `abort` and `recover` create and append it. -/
def pushMark (w : WAL) (txnId : Nat) (body : RecordBody) : WAL :=
  let r : InMemoryWALRecord := { checksum := 0, lsn := w.nextLsn, txnId, body, data := [] }
  w.takeLsn.push r.withChecksum

def flush (w : WAL) : WAL :=
  let buffer := encodeAll (w.records.drop w.unflushedRecordIndex)
  { w with
    log := pwrite w.log w.logPos buffer
    logPos := w.logPos + buffer.length
    unflushedRecordIndex := w.records.length }

def flushUpTo (w : WAL) (lsn : Nat) : WAL :=
  match w.records[w.unflushedRecordIndex]? with
  | some r => if r.lsn ≤ lsn then w.flush else w
  | none => w

/-- What `get_page` does to the log: if it evicts a dirty page, it first flushes the log up to
the latest LSN of that page. -/
def getPage (w : WAL) : Option Nat → WAL
  | some evictedPageLsn => w.flushUpTo evictedPageLsn
  | none => w

end WAL

def getUnpaddedLength : Nat → List UInt8 → Nat
  | 0, _ => 0
  | i + 1, data => if data.getD i 0 ≠ 0 then i + 1 else getUnpaddedLength i data

/-- The effect of `apply_record` on the pages. -/
def InMemoryWALRecord.applyTo (r : InMemoryWALRecord) (pages : Mem) : Mem :=
  match r.body with
  | .clr c => overwrite pages c.loc c.length (r.data.take c.newValueLen)
  | .set s => overwrite pages s.loc s.length ((r.data.drop s.oldValueLen).take s.newValueLen)
  | _ => pages

/-- The log and the contents of all pages as the buffer pool shows them. -/
structure Database where
  wal : WAL
  pages : Mem

namespace Database

/-- `evicted` is the latest LSN of the dirty page that the `get_page` call evicts, if it does. -/
def applyRecord (d : Database) (evicted : Option Nat) (r : InMemoryWALRecord) : Database :=
  match r.body with
  | .clr _ | .set _ => { wal := d.wal.getPage evicted, pages := r.applyTo d.pages }
  | _ => d

def pushMark (d : Database) (txnId : Nat) (body : RecordBody) : Database :=
  { d with wal := d.wal.pushMark txnId body }

/-- `none` while a pending checkpoint makes the caller wait. The result is the LSN of the BEGIN
record, while the record itself carries `next_txn_id`. -/
def begin (d : Database) : Option (Nat × Database) :=
  if d.wal.checkpointPending then none
  else
    let txnId := d.wal.nextTxnId
    let w := { d.wal with
      activeTransactions := d.wal.activeTransactions + 1
      nextTxnId := (txnId + 1) % 2 ^ 32 }
    some (d.wal.nextLsn, { d with wal := w.pushMark txnId .begin })

def commit (d : Database) (txnId : Nat) : Database :=
  let w := (d.wal.pushMark txnId .commit).flush
  { d with wal := { w with activeTransactions := w.activeTransactions - 1 } }

/-- `set` with `data_length = data.length` and the given `write_length`. The page stays pinned by
the handle of the first `get_page`, so that only this call can evict. -/
def set (d : Database) (txnId loc writeLength : Nat) (data : List UInt8) (evicted : Option Nat) : Database :=
  let lsn := d.wal.nextLsn
  let w := d.wal.takeLsn.getPage evicted
  let oldValue := slice d.pages loc writeLength
  let fromLength := getUnpaddedLength writeLength oldValue
  let header : SetRecord :=
    { loc
      length := writeLength % 2 ^ 16
      oldValueLen := fromLength % 2 ^ 16
      newValueLen := data.length % 2 ^ 16 }
  let r : InMemoryWALRecord :=
    { checksum := 0, lsn, txnId, body := .set header, data := oldValue.take fromLength ++ data }
  let r := r.withChecksum
  let d := applyRecord { d with wal := w } none r
  { d with wal := d.wal.push r }

def createCompensationRecord (w : WAL) (r : InMemoryWALRecord) : Except String (InMemoryWALRecord × WAL) :=
  match r.body with
  | .set s =>
    let header : CompensationRecord :=
      { undoLsn := r.lsn, loc := s.loc, length := s.length, newValueLen := s.oldValueLen }
    let clr : InMemoryWALRecord :=
      { checksum := 0, lsn := w.nextLsn, txnId := r.txnId, body := .clr header
        data := r.data.take s.oldValueLen }
    .ok (clr.withChecksum, w.takeLsn)
  | _ => .error "WAL::create_compensation_record: record is not of type SET"

/-- Creates, appends and applies one CLR for each record of the list. -/
def writeClrs (d : Database) : List InMemoryWALRecord → (Nat → Option Nat) → Except String Database
  | [], _ => .ok d
  | r :: rest, evicted =>
    match createCompensationRecord d.wal r with
    | .error message => .error message
    | .ok (clr, w) =>
      writeClrs (applyRecord { d with wal := w.push clr } (evicted 0) clr) rest fun i => evicted (i + 1)

/-- `txn_begin_idx + 1`, where the search of `abort` for records to undo starts. -/
def undoStart (records : List InMemoryWALRecord) (txnId : Nat) : Nat :=
  match records.findIdx? fun r => r.txnId == txnId && r.body == .begin with
  | some i => i + 1
  | none => 0

/-- One record of the loop that fills `to_undo_indices`, whose last entry comes first here. A CLR
with no SET before it, where the source would look at the back of an empty vector, is skipped. -/
def undoStep (txnId : Nat) (stack : List InMemoryWALRecord) (r : InMemoryWALRecord) : List InMemoryWALRecord :=
  if r.txnId = txnId then
    match r.body, stack with
    | .set _, stack => r :: stack
    | .clr c, top :: rest => if c.undoLsn = top.lsn then rest else top :: rest
    | _, stack => stack
  else stack

def toUndo (txnId : Nat) (records : List InMemoryWALRecord) : List InMemoryWALRecord :=
  records.foldl (undoStep txnId) []

def abort (d : Database) (txnId : Nat) (evicted : Nat → Option Nat) : Except String Database :=
  let d := d.pushMark txnId .abortBegin
  let undo := toUndo txnId (d.wal.records.drop (undoStart d.wal.records txnId))
  match writeClrs d undo evicted with
  | .error message => .error message
  | .ok d =>
    let d := d.pushMark txnId .abortEnd
    .ok { d with wal := { d.wal with activeTransactions := d.wal.activeTransactions - 1 } }

/-- The part of `checkpoint_internal` behind the wait: the pages are in the data file, the log
file is empty. -/
def checkpointInternal (d : Database) : Database :=
  { d with wal := { d.wal with log := [], logPos := 0, checkpointPending := false } }

end Database

/-- The unspecified order in which an `unordered_set` is iterated. -/
structure SetIteration where
  order : List Nat → List Nat
  perm : ∀ l, (order l).Perm l

namespace Database

def finishedTxns (records : List InMemoryWALRecord) : List Nat :=
  (records.filter fun r => r.body == .commit || r.body == .abortEnd).map InMemoryWALRecord.txnId

/-- The first pass of `recover`. -/
def replay (d : Database) : List InMemoryWALRecord → (Nat → Option Nat) → Database
  | [], _ => d
  | r :: rest, evicted =>
    let d := d.applyRecord (evicted 0) r
    let w := { d.wal with
      nextLsn := max d.wal.nextLsn ((r.lsn + 1) % 2 ^ 32)
      nextTxnId := max d.wal.nextTxnId ((r.txnId + 1) % 2 ^ 32) }
    replay { d with wal := w } rest fun i => evicted (i + 1)

def isSet (r : InMemoryWALRecord) : Bool :=
  match r.body with
  | .set _ => true
  | _ => false

def unfinished (records : List InMemoryWALRecord) : List InMemoryWALRecord :=
  records.filter fun r => r.txnId ∉ finishedTxns records

def recover (iteration : SetIteration) (d : Database) (evictedRedo evictedUndo : Nat → Option Nat) :
    Except String Database :=
  let loaded := loadRecords d.wal.log 0
  let d := { d with wal := { d.wal with records := loaded.1, logPos := loaded.2 } }
  let d := d.replay loaded.1 evictedRedo
  let toUndo := (unfinished loaded.1).filter isSet
  let abortedTxns := ((unfinished loaded.1).map InMemoryWALRecord.txnId).dedup
  match writeClrs d toUndo.reverse evictedUndo with
  | .error message => .error message
  | .ok d => .ok <| (iteration.order abortedTxns).foldl (fun d txnId => d.pushMark txnId .abortEnd) d

end Database

end DiskMap
