import DiskMap.Library.GuardedRun
import DiskMap.Pool.BufferPool

namespace DiskMap
open ByteMemory GuardedRun

/-- A page image that `retain` has written to the data file: the records whose effect is in it,
the records that `flush` had written to the log file by then, and the bytes of that file. -/
structure EvictedImage where
  fileIndex : Nat
  effects : List InMemoryWALRecord
  flushed : List InMemoryWALRecord
  log : List UInt8

/-- The WAL over the buffer pool over the data file. `effects` are the records applied to the page
in a slot and `fileEffects` those applied to the image of a page in the file. `lsnsTaken` counts
the records that have been created, and `evictedImages` collects what `retain` has written. -/
structure PagedWal where
  wal : WAL
  pool : BufferPool
  file : Mem
  effects : Nat → List InMemoryWALRecord
  fileEffects : Nat → List InMemoryWALRecord
  lsnsTaken : Nat
  evictedImages : List EvictedImage

namespace PagedWal

def takeLsn (s : PagedWal) : PagedWal :=
  { s with wal := s.wal.takeLsn, lsnsTaken := s.lsnsTaken + 1 }

def push (s : PagedWal) (r : InMemoryWALRecord) : PagedWal :=
  { s with wal := s.wal.push r }

/-- The write-back behind the pool mutex: first the log, then the page. -/
def writeBack (s : PagedWal) (w : WriteBack) : PagedWal :=
  let wal := s.wal.flushUpTo w.pageLsn
  { s with
    wal
    file := overwrite s.file (w.fileIndex * pageSize) pageSize (slice (s.pool.pages w.poolIndex) 0 pageSize)
    fileEffects := Function.update s.fileEffects w.fileIndex (s.effects w.poolIndex)
    evictedImages :=
      { fileIndex := w.fileIndex, effects := s.effects w.poolIndex
        flushed := wal.records.take wal.unflushedRecordIndex, log := wal.log } :: s.evictedImages }

/-- Reads the page into the slot; past the end of the file there are zeros. -/
def readPage (s : PagedWal) (poolIndex fileIndex : Nat) : PagedWal :=
  { s with
    pool := { s.pool with
      pages := Function.update s.pool.pages poolIndex fun offset => s.file (fileIndex * pageSize + offset) }
    effects := Function.update s.effects poolIndex (s.fileEffects fileIndex) }

/-- The part of `retain` behind the pool mutex: the write-back, then the read. -/
def finishRetain (s : PagedWal) (r : Retained) (fileIndex : Nat) : PagedWal :=
  let s := match r.writeBack with
    | some w => s.writeBack w
    | none => s
  if r.needsRead then s.readPage r.poolIndex fileIndex else s

/-- `BufferPool::retain`; without a slot the pool is full of pinned pages and has thrown. -/
def retain (s : PagedWal) (fileIndex : Nat) (adviseEviction : Bool) : Option Nat × PagedWal :=
  match s.pool.reserve fileIndex adviseEviction with
  | none => (none, s)
  | some (r, pool) => (some r.poolIndex, finishRetain { s with pool } r fileIndex)

def release (s : PagedWal) (poolIndex : Nat) : PagedWal :=
  match s.pool.release poolIndex with
  | some pool => { s with pool }
  | none => s

/-- `memcpy` and `memset` through a handle, and `modified_by`. -/
def modify (s : PagedWal) (poolIndex : Nat) (r : InMemoryWALRecord) (offset length : Nat) (bytes : List UInt8) :
    PagedWal :=
  let pool := { s.pool with
    pages := Function.update s.pool.pages poolIndex (overwrite (s.pool.pages poolIndex) offset length bytes) }
  { s with
    pool := pool.modifiedBy poolIndex r.lsn
    effects := Function.update s.effects poolIndex (s.effects poolIndex ++ [r]) }

/-- The range and the bytes that a record writes. -/
def effectOf (r : InMemoryWALRecord) : Option (Nat × Nat × List UInt8) :=
  match r.body with
  | .clr c => some (c.loc, c.length, r.data.take c.newValueLen)
  | .set header => some (header.loc, header.length, (r.data.drop header.oldValueLen).take header.newValueLen)
  | _ => none

/-- `WAL::apply_record`; false if `get_page` has thrown. -/
def applyRecord (s : PagedWal) (r : InMemoryWALRecord) : Bool × PagedWal :=
  match effectOf r with
  | none => (true, s)
  | some (loc, length, bytes) =>
    match s.retain (loc / pageSize) false with
    | (none, s) => (false, s)
    | (some poolIndex, s) => (true, (s.modify poolIndex r (loc % pageSize) length bytes).release poolIndex)

def pushMark (s : PagedWal) (txnId : Nat) (body : RecordBody) : PagedWal :=
  let r : InMemoryWALRecord := { checksum := 0, lsn := s.wal.nextLsn, txnId, body, data := [] }
  (s.takeLsn.push r.withChecksum)

def begin (s : PagedWal) : PagedWal :=
  if s.wal.checkpointPending then s
  else
    let txnId := s.wal.nextTxnId
    pushMark { s with wal := { s.wal with
      activeTransactions := s.wal.activeTransactions + 1
      nextTxnId := (txnId + 1) % 2 ^ 32 } } txnId .begin

def commit (s : PagedWal) (txnId : Nat) : PagedWal :=
  let s := s.pushMark txnId .commit
  let wal := s.wal.flush
  { s with wal := { wal with activeTransactions := wal.activeTransactions - 1 } }

def set (s : PagedWal) (txnId loc writeLength : Nat) (data : List UInt8) : PagedWal :=
  let lsn := s.wal.nextLsn
  match s.takeLsn.retain (loc / pageSize) false with
  | (none, s) => s
  | (some poolIndex, s) =>
    let oldValue := slice (s.pool.pages poolIndex) (loc % pageSize) writeLength
    let fromLength := getUnpaddedLength writeLength oldValue
    let header : SetRecord :=
      { loc
        length := writeLength % 2 ^ 16
        oldValueLen := fromLength % 2 ^ 16
        newValueLen := data.length % 2 ^ 16 }
    let r : InMemoryWALRecord :=
      { checksum := 0, lsn, txnId, body := .set header, data := oldValue.take fromLength ++ data }
    let r := r.withChecksum
    match s.applyRecord r with
    | (false, s) => s.release poolIndex
    | (true, s) => (s.push r).release poolIndex

/-- The loop of `abort` that writes the CLRs; false if it has thrown. -/
def writeClrs (s : PagedWal) : List InMemoryWALRecord → Bool × PagedWal
  | [] => (true, s)
  | r :: rest =>
    match Database.createCompensationRecord s.wal r with
    | .error _ => (false, s)
    | .ok (clr, _) =>
      match (s.takeLsn.push clr).applyRecord clr with
      | (false, s) => (false, s)
      | (true, s) => writeClrs s rest

def abort (s : PagedWal) (txnId : Nat) : PagedWal :=
  let s := s.pushMark txnId .abortBegin
  let undo := Database.toUndo txnId (s.wal.records.drop (Database.undoStart s.wal.records txnId))
  match s.writeClrs undo with
  | (false, s) => s
  | (true, s) =>
    let s := s.pushMark txnId .abortEnd
    { s with wal := { s.wal with activeTransactions := s.wal.activeTransactions - 1 } }

end PagedWal

inductive PagedOp
  | begin
  | set (txnId loc writeLength : Nat) (data : List UInt8)
  | commit (txnId : Nat)
  | abort (txnId : Nat)
  | getPage (fileIndex : Nat) (adviseEviction : Bool)
  | dropHandle (poolIndex : Nat)

namespace PagedWal

/-- One call of a client, also if it throws. -/
def step (s : PagedWal) : PagedOp → Option PagedWal
  | .begin => some s.begin
  | .set txnId loc writeLength data => some (s.set txnId loc writeLength data)
  | .commit txnId => some (s.commit txnId)
  | .abort txnId => some (s.abort txnId)
  | .getPage fileIndex adviseEviction => some (s.retain fileIndex adviseEviction).2
  | .dropHandle poolIndex => some (s.release poolIndex)

/-- A new log and an empty pool over a data file. -/
def fresh (poolSize : Nat) (file : Mem) : PagedWal :=
  { wal := {}, pool := { poolSize }, file, effects := fun _ => [], fileEffects := fun _ => [], lsnsTaken := 0
    evictedImages := [] }

end PagedWal

end DiskMap
