import DiskMap.Library.GuardedRun
import DiskMap.Pool.PagedWal

namespace DiskMap
open ByteMemory GuardedRun

/-- The write of an evicted page to the data file: the records whose effect is in the page, by their
positions in `records`, with the `unflushed_record_index` and the records in a synced log at that time. -/
structure Eviction where
  effects : List Nat
  unflushed : Nat
  synced : List Nat
  deriving DecidableEq

/-- The WAL over the buffer pool, on a disk where calls of `fsync` may fail: `fsync i` is the result
of call number `i` for the log file. Records are counted by their positions: `effects` and `fileEffects` are
those applied to the pages in the slots and in the data file, `inFile` those with bytes in the log file, and
`synced` those that were in it at an `fsync` that succeeded. LSNs are counted without wrapping around: `lsns` have been taken,
and `begunAt` of them when an active transaction began. -/
structure SyncedWal where
  wal : WAL
  pool : BufferPool
  file : Mem
  fsync : Nat → Bool
  fsyncs : Nat := 0
  openTxns : List Nat := []
  effects : Nat → List Nat := fun _ => []
  fileEffects : Nat → List Nat := fun _ => []
  inFile : List Nat := []
  synced : List Nat := []
  evictions : List Eviction := []
  lsns : Nat := 0
  begunAt : Nat → Nat := fun _ => 0

namespace SyncedWal

/-- `sync_log` with so many attempts left; false if it throws. -/
def syncLog : Nat → SyncedWal → Bool × SyncedWal
  | 0, s => (false, s)
  | attempts + 1, s =>
    if s.fsync s.fsyncs then (true, { s with fsyncs := s.fsyncs + 1, synced := s.inFile ++ s.synced })
    else syncLog attempts { s with fsyncs := s.fsyncs + 1 }

/-- The records are counted as flushed before the log is synced. -/
def flush (s : SyncedWal) : Bool × SyncedWal :=
  let pending := s.wal.records.length - s.wal.unflushedRecordIndex
  syncLog 3 { s with wal := s.wal.flush, inFile := List.range' s.wal.unflushedRecordIndex pending ++ s.inFile }

def flushUpTo (s : SyncedWal) (lsn : Nat) : Bool × SyncedWal :=
  match s.wal.records[s.wal.unflushedRecordIndex]? with
  | some r => if r.lsn ≤ lsn then s.flush else (true, s)
  | none => (true, s)

def writePage (s : SyncedWal) (w : WriteBack) : SyncedWal :=
  { s with
    file := overwrite s.file (w.fileIndex * pageSize) pageSize (slice (s.pool.pages w.poolIndex) 0 pageSize)
    fileEffects := Function.update s.fileEffects w.fileIndex (s.effects w.poolIndex)
    evictions := { effects := s.effects w.poolIndex, unflushed := s.wal.unflushedRecordIndex, synced := s.synced } :: s.evictions }

/-- The write-back behind the pool mutex. When the flush throws, nothing is written. -/
def writeBack (s : SyncedWal) : Option WriteBack → Bool × SyncedWal
  | none => (true, s)
  | some w =>
    match s.flushUpTo w.pageLsn with
    | (false, s) => (false, s)
    | (true, s) => (true, s.writePage w)

def readPage (s : SyncedWal) (poolIndex fileIndex : Nat) : SyncedWal :=
  { s with
    pool := { s.pool with
      pages := Function.update s.pool.pages poolIndex fun offset => s.file (fileIndex * pageSize + offset) }
    effects := Function.update s.effects poolIndex (s.fileEffects fileIndex) }

/-- `BufferPool::retain`; without a slot it has thrown. The slot stays assigned and pinned when the flush throws. -/
def retain (s : SyncedWal) (fileIndex : Nat) (adviseEviction : Bool) : Option Nat × SyncedWal :=
  match s.pool.reserve fileIndex adviseEviction with
  | none => (none, s)
  | some (r, pool) =>
    match writeBack { s with pool } r.writeBack with
    | (false, s) => (none, s)
    | (true, s) => (some r.poolIndex, if r.needsRead then s.readPage r.poolIndex fileIndex else s)

def release (s : SyncedWal) (poolIndex : Nat) : SyncedWal :=
  match s.pool.release poolIndex with
  | some pool => { s with pool }
  | none => s

/-- The record with the given position and LSN is applied to the page in the slot. -/
def modify (s : SyncedWal) (poolIndex position lsn offset length : Nat) (bytes : List UInt8) : SyncedWal :=
  let pool := { s.pool with
    pages := Function.update s.pool.pages poolIndex (overwrite (s.pool.pages poolIndex) offset length bytes) }
  { s with
    pool := pool.modifiedBy poolIndex lsn
    effects := Function.update s.effects poolIndex (s.effects poolIndex ++ [position]) }

def takeLsn (s : SyncedWal) : SyncedWal := { s with wal := s.wal.takeLsn, lsns := s.lsns + 1 }

def push (s : SyncedWal) (r : InMemoryWALRecord) : SyncedWal := { s with wal := s.wal.push r }

/-- `WAL::apply_record`; false if `get_page` has thrown. -/
def applyRecord (s : SyncedWal) (r : InMemoryWALRecord) (position : Nat) : Bool × SyncedWal :=
  match PagedWal.effectOf r with
  | none => (true, s)
  | some (loc, length, bytes) =>
    match s.retain (loc / pageSize) false with
    | (none, s) => (false, s)
    | (some poolIndex, s) => (true, (s.modify poolIndex position r.lsn (loc % pageSize) length bytes).release poolIndex)

def pushMark (s : SyncedWal) (txnId : Nat) (body : RecordBody) : SyncedWal :=
  let r : InMemoryWALRecord := { checksum := 0, lsn := s.wal.nextLsn, txnId, body, data := [] }
  s.takeLsn.push r.withChecksum

/-- While a checkpoint is pending the caller waits. -/
def begin (s : SyncedWal) : SyncedWal :=
  if s.wal.checkpointPending then s
  else
    let txnId := s.wal.nextTxnId
    pushMark { s with
      wal := { s.wal with
        activeTransactions := s.wal.activeTransactions + 1
        nextTxnId := (txnId + 1) % 2 ^ 32 }
      openTxns := s.wal.nextLsn :: s.openTxns
      begunAt := Function.update s.begunAt s.wal.nextLsn s.lsns } txnId .begin

/-- When the flush throws, the transaction stays active. -/
def commit (s : SyncedWal) (txnId : Nat) : SyncedWal :=
  match (s.pushMark txnId .commit).flush with
  | (false, s) => s
  | (true, s) =>
    { s with
      wal := { s.wal with activeTransactions := s.wal.activeTransactions - 1 }
      openTxns := s.openTxns.erase txnId }

def set (s : SyncedWal) (txnId loc writeLength : Nat) (data : List UInt8) : SyncedWal :=
  let lsn := s.wal.nextLsn
  match s.takeLsn.retain (loc / pageSize) false with
  | (none, s) => s
  | (some poolIndex, s) =>
    let oldValue := slice (s.pool.pages poolIndex) (loc % pageSize) writeLength
    let fromLength := getUnpaddedLength writeLength oldValue
    let header : SetRecord :=
      { loc
        length := writeLength % 2 ^ 16
        oldValueLen := fromLength % 2 ^ 16
        newValueLen := data.length % 2 ^ 16 }
    let r : InMemoryWALRecord :=
      { checksum := 0, lsn, txnId, body := .set header, data := oldValue.take fromLength ++ data }
    let r := r.withChecksum
    match s.applyRecord r s.wal.records.length with
    | (false, s) => s.release poolIndex
    | (true, s) => (s.push r).release poolIndex

/-- The loop of `abort` that writes the CLRs; false if it has thrown. -/
def writeClrs (s : SyncedWal) : List InMemoryWALRecord → Bool × SyncedWal
  | [] => (true, s)
  | r :: rest =>
    match Database.createCompensationRecord s.wal r with
    | .error _ => (false, s)
    | .ok (clr, _) =>
      match (s.takeLsn.push clr).applyRecord clr s.wal.records.length with
      | (false, s) => (false, s)
      | (true, s) => writeClrs s rest

/-- The records that `abort` undoes. -/
def toUndo (s : SyncedWal) (txnId : Nat) : List InMemoryWALRecord :=
  Database.toUndo txnId (s.wal.records.drop (Database.undoStart s.wal.records txnId))

def abort (s : SyncedWal) (txnId : Nat) : SyncedWal :=
  let s := s.pushMark txnId .abortBegin
  match s.writeClrs (s.toUndo txnId) with
  | (false, s) => s
  | (true, s) =>
    let s := s.pushMark txnId .abortEnd
    { s with
      wal := { s.wal with activeTransactions := s.wal.activeTransactions - 1 }
      openTxns := s.openTxns.erase txnId }

/-- A dirty page of `BufferPool::flush_all`. -/
def flushSlot (s : SyncedWal) (poolIndex : Nat) : SyncedWal :=
  match s.pool.writeBackOf poolIndex with
  | none => s
  | some w =>
    { s with
      file := overwrite s.file (w.fileIndex * pageSize) pageSize (slice (s.pool.pages poolIndex) 0 pageSize)
      fileEffects := Function.update s.fileEffects w.fileIndex (s.effects poolIndex)
      pool := s.pool.update poolIndex { s.pool.metadata poolIndex with dirty := false } }

def flushAll (s : SyncedWal) : SyncedWal := (List.range s.pool.poolSize).foldl flushSlot s

/-- `checkpoint_internal` behind its wait. When `sync_log` throws, the checkpoint stays pending. -/
def checkpoint (s : SyncedWal) : SyncedWal :=
  let s := s.flushAll
  match syncLog 3 { s with wal := { s.wal with log := [], logPos := 0 }, inFile := [] } with
  | (false, s) => s
  | (true, s) => { s with wal := { s.wal with checkpointPending := false } }

end SyncedWal

inductive SyncedOp
  | begin
  | set (txnId loc writeLength : Nat) (data : List UInt8)
  | commit (txnId : Nat)
  | abort (txnId : Nat)
  | getPage (fileIndex : Nat) (adviseEviction : Bool)
  | dropHandle (poolIndex : Nat)
  | requestCheckpoint
  | checkpoint

namespace SyncedWal

/-- One call of a client or of the checkpointing thread, also if it throws. -/
def step (s : SyncedWal) : SyncedOp → Option SyncedWal
  | .begin => some s.begin
  | .set txnId loc writeLength data => some (s.set txnId loc writeLength data)
  | .commit txnId => some (s.commit txnId)
  | .abort txnId => some (s.abort txnId)
  | .getPage fileIndex adviseEviction => some (s.retain fileIndex adviseEviction).2
  | .dropHandle poolIndex => some (s.release poolIndex)
  | .requestCheckpoint => some { s with wal := { s.wal with checkpointPending := true } }
  | .checkpoint => if s.wal.checkpointPending ∧ s.wal.activeTransactions ≤ 0 then some s.checkpoint else none

/-- A new log and an empty pool over a data file. -/
def fresh (poolSize : Nat) (file : Mem) (fsync : Nat → Bool) : SyncedWal :=
  { wal := {}, pool := { poolSize }, file, fsync }

end SyncedWal

end DiskMap
