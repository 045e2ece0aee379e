import DiskMap.Pool.SyncedWal
import DiskMap.Pool.WriteAhead
import Mathlib.Data.Nat.ModEq

namespace DiskMap
open ByteMemory GuardedRun

namespace SyncedWal

/-- A WAL that has just been constructed, on a new log or after a recovery and its checkpoint: no page in the pool
is dirty, and the records that are counted as flushed are in a synced log. -/
structure Started (s : SyncedWal) : Prop where
  upper : s.wal.unflushedRecordIndex ≤ s.wal.records.length
  inUse : s.pool.InUse
  clean : ∀ slot, (s.pool.metadata slot).dirty = false
  effects : ∀ slot, ∀ i ∈ s.effects slot, i < s.wal.records.length
  fileEffects : ∀ page, ∀ i ∈ s.fileEffects page, i < s.wal.records.length
  counted : ∀ i, i < s.wal.unflushedRecordIndex → i ∈ s.synced
  idle : s.openTxns = []
  nothingWritten : s.evictions = []

/-- The oldest pending record is not newer than this LSN. -/
def Due (s : SyncedWal) (lsn : Nat) : Prop := ∀ f, s.wal.records[s.wal.unflushedRecordIndex]? = some f → f.lsn ≤ lsn

/-- Eviction of a page with a pending record makes `flush_up_to` flush the log. -/
structure Ordered (s : SyncedWal) : Prop where
  upper : s.wal.unflushedRecordIndex ≤ s.wal.records.length
  inUse : s.pool.InUse
  effects : ∀ slot, ∀ i ∈ s.effects slot, i < s.wal.records.length
  fileEffects : ∀ page, ∀ i ∈ s.fileEffects page, i < s.wal.records.length
  due : ∀ slot, (s.pool.metadata slot).dirty = true → ∀ i ∈ s.effects slot, s.wal.unflushedRecordIndex ≤ i →
    s.Due (s.pool.metadata slot).pageLsn
  evicted : ∀ e ∈ s.evictions, ∀ i ∈ e.effects, i < e.unflushed

/-- The records are the same, and either none or all of those that were pending have been counted as flushed. -/
structure SameLog (s s' : SyncedWal) : Prop where
  records : s'.wal.records = s.wal.records
  nextLsn : s'.wal.nextLsn = s.wal.nextLsn
  openTxns : s'.openTxns = s.openTxns
  lsns : s'.lsns = s.lsns
  begunAt : s'.begunAt = s.begunAt
  flushed : s'.wal.unflushedRecordIndex = s.wal.unflushedRecordIndex ∨ s'.wal.unflushedRecordIndex = s.wal.records.length

variable {s s' s'' : SyncedWal}

theorem Started.ordered (started : s.Started) : s.Ordered where
  upper := started.upper
  inUse := started.inUse
  effects := started.effects
  fileEffects := started.fileEffects
  due slot dirty := by rw [started.clean slot] at dirty; cases dirty
  evicted e member := by rw [started.nothingWritten] at member; cases member

theorem SameLog.refl (s : SyncedWal) : SameLog s s := ⟨rfl, rfl, rfl, rfl, rfl, Or.inl rfl⟩

theorem SameLog.trans (first : SameLog s s') (second : SameLog s' s'') : SameLog s s'' := by
  refine ⟨second.records.trans first.records, second.nextLsn.trans first.nextLsn, second.openTxns.trans first.openTxns,
    second.lsns.trans first.lsns, second.begunAt.trans first.begunAt, ?_⟩
  rcases second.flushed with same | all
  · rw [same]
    exact first.flushed
  · rw [all, first.records]
    exact Or.inr rfl

theorem SameLog.due (same : SameLog s s') {lsn : Nat} (due : s.Due lsn) : s'.Due lsn := by
  intro f found
  rw [same.records] at found
  rcases same.flushed with kept | all
  · rw [kept] at found
    exact due f found
  · rw [all, List.getElem?_eq_none le_rfl] at found
    cases found

/-- What `sync_log` leaves behind: the attempts, and after a success the records in the log. -/
theorem syncLog_result (attempts : Nat) (s : SyncedWal) : ∃ k synced,
    (syncLog attempts s).2 = { s with fsyncs := k, synced } ∧ s.fsyncs ≤ k ∧
      ((syncLog attempts s).1 = true → synced = s.inFile ++ s.synced) ∧
      ((syncLog attempts s).1 = false → k = s.fsyncs + attempts ∧ ∀ i, i < attempts → s.fsync (s.fsyncs + i) = false) := by
  induction attempts generalizing s with
  | zero => exact ⟨s.fsyncs, s.synced, rfl, le_rfl, nofun, fun _ => ⟨rfl, fun i impossible => absurd impossible (Nat.not_lt_zero i)⟩⟩
  | succ attempts ih =>
    rw [syncLog]
    by_cases works : s.fsync s.fsyncs = true
    · rw [if_pos works]
      exact ⟨s.fsyncs + 1, s.inFile ++ s.synced, rfl, Nat.le_succ _, fun _ => rfl, nofun⟩
    · rw [if_neg works]
      obtain ⟨k, synced, result, le, success, failure⟩ := ih { s with fsyncs := s.fsyncs + 1 }
      refine ⟨k, synced, result, (Nat.le_succ _).trans le, success, fun failed => ?_⟩
      obtain ⟨count, rest⟩ := failure failed
      refine ⟨by rw [count]; dsimp only; omega, fun i within => ?_⟩
      rcases Nat.eq_zero_or_pos i with rfl | later
      · exact Bool.eq_false_iff.mpr works
      · have next := rest (i - 1) (by omega)
        rwa [show s.fsyncs + 1 + (i - 1) = s.fsyncs + i by omega] at next

/-- After `flush` all records are counted as flushed, whether or not the log could be synced. -/
theorem flush_result (s : SyncedWal) : ∃ k inFile synced,
    s.flush.2 = { s with wal := s.wal.flush, inFile, fsyncs := k, synced } ∧ s.fsyncs ≤ k ∧
      (s.flush.1 = true → ∀ i, i ∈ synced ↔ (s.wal.unflushedRecordIndex ≤ i ∧ i < s.wal.unflushedRecordIndex +
        (s.wal.records.length - s.wal.unflushedRecordIndex)) ∨ i ∈ s.inFile ∨ i ∈ s.synced) ∧
      (s.flush.1 = false → k = s.fsyncs + 3 ∧ ∀ i, i < 3 → s.fsync (s.fsyncs + i) = false) := by
  obtain ⟨k, synced, result, le, success, failure⟩ := syncLog_result 3 { s with
    wal := s.wal.flush
    inFile := List.range' s.wal.unflushedRecordIndex (s.wal.records.length - s.wal.unflushedRecordIndex) ++ s.inFile }
  refine ⟨k, _, synced, result, le, fun done i => ?_, failure⟩
  rw [success done]
  simp only [List.mem_append, List.mem_range'_1, or_assoc]

theorem flush_sameLog (s : SyncedWal) : SameLog s s.flush.2 := by
  obtain ⟨k, inFile, synced, result, _⟩ := s.flush_result
  rw [result]
  exact ⟨rfl, rfl, rfl, rfl, rfl, Or.inr rfl⟩

theorem flushUpTo_sameLog (s : SyncedWal) (lsn : Nat) : SameLog s (s.flushUpTo lsn).2 := by
  unfold flushUpTo
  split
  · split
    · exact s.flush_sameLog
    · exact .refl s
  · exact .refl s

theorem Ordered.flush (ordered : s.Ordered) : s.flush.2.Ordered := by
  obtain ⟨k, inFile, synced, result, _⟩ := s.flush_result
  rw [result]
  refine { ordered with upper := le_rfl, due := fun slot dirty i member pending => ?_ }
  have inside := ordered.effects slot i member
  exact absurd inside (Nat.not_lt.mpr pending)

theorem Ordered.flushUpTo (ordered : s.Ordered) (lsn : Nat) : (s.flushUpTo lsn).2.Ordered := by
  unfold SyncedWal.flushUpTo
  split
  · split
    · exact ordered.flush
    · exact ordered
  · exact ordered

theorem flushUpTo_pool (s : SyncedWal) (lsn : Nat) : (s.flushUpTo lsn).2.pool = s.pool ∧ (s.flushUpTo lsn).2.effects = s.effects := by
  obtain ⟨k, inFile, synced, result, _⟩ := s.flush_result
  unfold flushUpTo
  split
  · split
    · rw [result]
      exact ⟨rfl, rfl⟩
    · exact ⟨rfl, rfl⟩
  · exact ⟨rfl, rfl⟩

/-- No record stays pending that is not newer than the LSN, if the oldest one is due. -/
theorem flushUpTo_flushes {lsn i : Nat} (inside : i < s.wal.records.length) (due : s.wal.unflushedRecordIndex ≤ i → s.Due lsn) :
    i < (s.flushUpTo lsn).2.wal.unflushedRecordIndex := by
  obtain ⟨k, inFile, synced, result, _⟩ := s.flush_result
  unfold flushUpTo
  cases oldest : s.wal.records[s.wal.unflushedRecordIndex]? with
  | none =>
    have past : s.wal.records.length ≤ s.wal.unflushedRecordIndex := List.getElem?_eq_none_iff.mp oldest
    exact inside.trans_le past
  | some f =>
    by_cases old : f.lsn ≤ lsn
    · simp only [old, if_true, result]
      exact inside
    · simp only [old, if_false]
      by_contra pending
      exact old (due (Nat.not_lt.mp pending) f oldest)

/-- The slot that `retain` assigns anew is not dirty. -/
theorem Ordered.reserve (ordered : s.Ordered) {r : Retained} {pool : BufferPool} (reserved : BufferPool.Reserved s.pool r pool) :
    Ordered { s with pool } := by
  refine { ordered with inUse := reserved.inUse, due := fun slot dirty i member pending => ?_ }
  change (pool.metadata slot).dirty = true at dirty
  change s.Due (pool.metadata slot).pageLsn
  by_cases same : slot = r.poolIndex
  · subst same
    cases read : r.needsRead with
    | true =>
      rw [reserved.fresh read] at dirty
      cases dirty
    | false =>
      obtain ⟨keptDirty, keptLsn⟩ := reserved.kept read
      rw [keptDirty] at dirty
      rw [keptLsn]
      exact ordered.due _ dirty i member pending
  · rw [reserved.others slot same] at dirty ⊢
    exact ordered.due slot dirty i member pending

theorem Ordered.writePage (ordered : s.Ordered) {w : WriteBack}
    (flushed : ∀ i ∈ s.effects w.poolIndex, i < s.wal.unflushedRecordIndex) : (s.writePage w).Ordered := by
  refine { ordered with fileEffects := fun page i member => ?_, evicted := fun e member => ?_ }
  · change i ∈ Function.update s.fileEffects w.fileIndex (s.effects w.poolIndex) page at member
    by_cases written : page = w.fileIndex
    · subst written
      rw [Function.update_self] at member
      exact ordered.effects _ i member
    · rw [Function.update_of_ne written] at member
      exact ordered.fileEffects page i member
  · rcases List.mem_cons.mp member with rfl | before
    · exact flushed
    · exact ordered.evicted e before

theorem writeBack_sameLog (s : SyncedWal) (w : Option WriteBack) : SameLog s (s.writeBack w).2 := by
  cases w with
  | none => exact .refl s
  | some w =>
    have same := s.flushUpTo_sameLog w.pageLsn
    simp only [SyncedWal.writeBack]
    split
    · rename_i result
      rw [result] at same
      exact same
    · rename_i result
      rw [result] at same
      exact ⟨same.records, same.nextLsn, same.openTxns, same.lsns, same.begunAt, same.flushed⟩

/-- The log goes first, and if it cannot, the page is not written. -/
theorem Ordered.writeBack (ordered : s.Ordered) {w : Option WriteBack}
    (due : ∀ b, w = some b → ∀ i ∈ s.effects b.poolIndex, s.wal.unflushedRecordIndex ≤ i → s.Due b.pageLsn) :
    (s.writeBack w).2.Ordered := by
  cases w with
  | none => exact ordered
  | some w =>
    have kept := ordered.flushUpTo w.pageLsn
    have flushed : ∀ i ∈ (s.flushUpTo w.pageLsn).2.effects w.poolIndex, i < (s.flushUpTo w.pageLsn).2.wal.unflushedRecordIndex := by
      rw [(s.flushUpTo_pool w.pageLsn).2]
      exact fun i member => flushUpTo_flushes (ordered.effects _ i member) fun pending => due w rfl i member pending
    simp only [SyncedWal.writeBack]
    split
    · rename_i result
      rw [result] at kept
      exact kept
    · rename_i result
      rw [result] at kept flushed
      exact kept.writePage flushed

theorem writeBack_pool (s : SyncedWal) (w : Option WriteBack) : (s.writeBack w).2.pool = s.pool := by
  cases w with
  | none => rfl
  | some w =>
    have same := (s.flushUpTo_pool w.pageLsn).1
    simp only [SyncedWal.writeBack]
    split <;> rename_i result <;> rw [result] at same <;> exact same

theorem Ordered.readPage (ordered : s.Ordered) {poolIndex : Nat} (clean : (s.pool.metadata poolIndex).dirty = false)
    (fileIndex : Nat) : (s.readPage poolIndex fileIndex).Ordered := by
  have effects : ∀ slot, ∀ i ∈ Function.update s.effects poolIndex (s.fileEffects fileIndex) slot, i < s.wal.records.length := by
    intro slot i member
    by_cases same : slot = poolIndex
    · subst same
      rw [Function.update_self] at member
      exact ordered.fileEffects fileIndex i member
    · rw [Function.update_of_ne same] at member
      exact ordered.effects slot i member
  refine { ordered with
    inUse := ⟨ordered.inUse.mapped, ordered.inUse.evictable, ordered.inUse.unused⟩
    effects := effects
    due := fun slot dirty i member pending => ?_ }
  change (s.pool.metadata slot).dirty = true at dirty
  change i ∈ Function.update s.effects poolIndex (s.fileEffects fileIndex) slot at member
  have other : slot ≠ poolIndex := by
    rintro rfl
    rw [clean] at dirty
    cases dirty
  rw [Function.update_of_ne other] at member
  exact ordered.due slot dirty i member pending

theorem retain_sameLog (s : SyncedWal) (fileIndex : Nat) (adviseEviction : Bool) :
    SameLog s (s.retain fileIndex adviseEviction).2 := by
  unfold SyncedWal.retain
  split
  · exact .refl s
  · rename_i r pool _
    have same := writeBack_sameLog { s with pool } r.writeBack
    split
    · rename_i result
      rw [result] at same
      exact ⟨same.records, same.nextLsn, same.openTxns, same.lsns, same.begunAt, same.flushed⟩
    · rename_i t result
      rw [result] at same
      split <;> exact ⟨same.records, same.nextLsn, same.openTxns, same.lsns, same.begunAt, same.flushed⟩

theorem Ordered.retain (ordered : s.Ordered) (fileIndex : Nat) (adviseEviction : Bool) :
    (s.retain fileIndex adviseEviction).2.Ordered := by
  unfold SyncedWal.retain
  split
  · exact ordered
  · rename_i r pool found
    have reserved := BufferPool.reserve_reserved ordered.inUse found
    have written : (SyncedWal.writeBack { s with pool } r.writeBack).2.Ordered := by
      refine (ordered.reserve reserved).writeBack fun b out i member pending => ?_
      obtain ⟨_, dirty, latest⟩ := reserved.written b out
      rw [latest]
      exact ordered.due b.poolIndex dirty i member pending
    have same := writeBack_pool { s with pool } r.writeBack
    split
    · rename_i result
      rw [result] at written
      exact written
    · rename_i t result
      rw [result] at written same
      split
      · rename_i read
        refine written.readPage ?_ fileIndex
        rw [same]
        exact reserved.fresh read
      · exact written

theorem retain_slot (ordered : s.Ordered) {fileIndex poolIndex : Nat} {adviseEviction : Bool}
    (retained : s.retain fileIndex adviseEviction = (some poolIndex, s')) : poolIndex < s'.pool.nextPoolIndex := by
  unfold SyncedWal.retain at retained
  split at retained
  · cases retained
  · rename_i r pool found
    have same := writeBack_pool { s with pool } r.writeBack
    split at retained
    · cases retained
    · rename_i t result
      rw [result] at same
      have slot := (BufferPool.reserve_reserved ordered.inUse found).slot
      cases retained
      split
      · exact slot.trans_eq (congrArg BufferPool.nextPoolIndex same).symm
      · exact slot.trans_eq (congrArg BufferPool.nextPoolIndex same).symm

theorem release_sameLog (s : SyncedWal) (poolIndex : Nat) : SameLog s (s.release poolIndex) := by
  unfold SyncedWal.release
  split <;> exact ⟨rfl, rfl, rfl, rfl, rfl, Or.inl rfl⟩

theorem Ordered.release (ordered : s.Ordered) (poolIndex : Nat) : (s.release poolIndex).Ordered := by
  unfold SyncedWal.release
  split
  · rename_i pool released
    obtain ⟨inUse, same⟩ := ordered.inUse.release released
    refine { ordered with inUse, due := fun slot dirty i member pending => ?_ }
    change (pool.metadata slot).dirty = true at dirty
    change s.Due (pool.metadata slot).pageLsn
    rw [(same slot).1] at dirty
    rw [(same slot).2]
    exact ordered.due slot dirty i member pending
  · exact ordered

theorem Ordered.push (ordered : s.Ordered) (r : InMemoryWALRecord) : (s.push r).Ordered := by
  have grows : s.wal.records.length ≤ (s.push r).wal.records.length := by
    change _ ≤ (s.wal.records ++ [r]).length
    rw [List.length_append]
    exact Nat.le_add_right _ _
  refine { ordered with
    upper := ordered.upper.trans grows
    effects := fun slot i member => (ordered.effects slot i member).trans_le grows
    fileEffects := fun page i member => (ordered.fileEffects page i member).trans_le grows
    due := fun slot dirty i member pending f oldest => ?_ }
  have inside : s.wal.unflushedRecordIndex < s.wal.records.length := pending.trans_lt (ordered.effects slot i member)
  change (s.wal.records ++ [r])[s.wal.unflushedRecordIndex]? = some f at oldest
  rw [List.getElem?_append_left inside] at oldest
  exact ordered.due slot dirty i member pending f oldest

/-- The oldest pending record is due for every page that a newer one is applied to. -/
theorem Ordered.modify (ordered : s.Ordered) {poolIndex position lsn : Nat} (within : poolIndex < s.pool.nextPoolIndex)
    (inside : position < s.wal.records.length) (due : s.Due lsn) (offset length : Nat) (bytes : List UInt8) :
    (s.modify poolIndex position lsn offset length bytes).Ordered := by
  let pool := { s.pool with
    pages := Function.update s.pool.pages poolIndex (overwrite (s.pool.pages poolIndex) offset length bytes) }
  have inUse : BufferPool.InUse pool := ⟨ordered.inUse.mapped, ordered.inUse.evictable, ordered.inUse.unused⟩
  have effects : ∀ slot, ∀ i ∈ Function.update s.effects poolIndex (s.effects poolIndex ++ [position]) slot,
      i < s.wal.records.length := by
    intro slot i member
    by_cases same : slot = poolIndex
    · subst same
      rw [Function.update_self] at member
      rcases List.mem_append.mp member with old | new
      · exact ordered.effects slot i old
      · rw [List.mem_singleton.mp new]
        exact inside
    · rw [Function.update_of_ne same] at member
      exact ordered.effects slot i member
  refine { ordered with inUse := inUse.update within _, effects, due := fun slot dirty i member pending f oldest => ?_ }
  change f.lsn ≤ ((pool.modifiedBy poolIndex lsn).metadata slot).pageLsn
  change ((pool.modifiedBy poolIndex lsn).metadata slot).dirty = true at dirty
  by_cases same : slot = poolIndex
  · subst same
    have raised : ((pool.modifiedBy slot lsn).metadata slot).pageLsn = max lsn (s.pool.metadata slot).pageLsn :=
      congrArg PageMetadata.pageLsn BufferPool.update_same
    rw [raised]
    exact (due f oldest).trans (le_max_left _ _)
  · have kept : (pool.modifiedBy poolIndex lsn).metadata slot = s.pool.metadata slot := BufferPool.update_other same
    rw [kept] at dirty ⊢
    change i ∈ Function.update s.effects poolIndex (s.effects poolIndex ++ [position]) slot at member
    rw [Function.update_of_ne same] at member
    exact ordered.due slot dirty i member pending f oldest

theorem applyRecord_sameLog (s : SyncedWal) (r : InMemoryWALRecord) (position : Nat) : SameLog s (s.applyRecord r position).2 := by
  unfold SyncedWal.applyRecord
  split
  · exact .refl s
  · rename_i loc length bytes _
    have retained := s.retain_sameLog (loc / pageSize) false
    split
    · rename_i result
      rw [result] at retained
      exact retained
    · rename_i poolIndex t result
      rw [result] at retained
      have modified : SameLog t (t.modify poolIndex position r.lsn (loc % pageSize) length bytes) := ⟨rfl, rfl, rfl, rfl, rfl, Or.inl rfl⟩
      exact (retained.trans modified).trans (release_sameLog _ poolIndex)

/-- A record is applied behind its `push_back`. -/
theorem Ordered.applyRecord (ordered : s.Ordered) {r : InMemoryWALRecord} {position : Nat}
    (inside : position < s.wal.records.length) (due : s.Due r.lsn) : (s.applyRecord r position).2.Ordered := by
  unfold SyncedWal.applyRecord
  split
  · exact ordered
  · rename_i loc length bytes _
    have same := s.retain_sameLog (loc / pageSize) false
    have kept := ordered.retain (loc / pageSize) false
    split
    · rename_i result
      rw [result] at kept
      exact kept
    · rename_i poolIndex t result
      rw [result] at kept same
      refine (kept.modify (retain_slot ordered result) ?_ (same.due due) _ _ _).release poolIndex
      rw [same.records]
      exact inside

theorem Ordered.takeLsn (ordered : s.Ordered) : s.takeLsn.Ordered := { ordered with }

theorem Ordered.pushMark (ordered : s.Ordered) (txnId : Nat) (body : RecordBody) : (s.pushMark txnId body).Ordered :=
  ordered.takeLsn.push _

theorem push_release (s : SyncedWal) (r : InMemoryWALRecord) (poolIndex : Nat) :
    (s.push r).release poolIndex = (s.release poolIndex).push r := by
  have same : (s.push r).pool = s.pool := rfl
  rw [release, release, same]
  cases s.pool.release poolIndex <;> rfl

/-- A record is applied before its `push_back`: nothing looks at the list in between. -/
theorem Ordered.applyRecord_push (ordered : s.Ordered) {r : InMemoryWALRecord} (due : s.Due r.lsn) :
    ((s.applyRecord r s.wal.records.length).2.push r).Ordered := by
  unfold SyncedWal.applyRecord
  split
  · exact ordered.push r
  · rename_i loc length bytes _
    have same := s.retain_sameLog (loc / pageSize) false
    have kept := ordered.retain (loc / pageSize) false
    split
    · rename_i result
      rw [result] at kept
      exact kept.push r
    · rename_i poolIndex t result
      rw [result] at kept same
      let m := t.modify poolIndex s.wal.records.length r.lsn (loc % pageSize) length bytes
      have commute : (m.release poolIndex).push r =
          ((t.push r).modify poolIndex s.wal.records.length r.lsn (loc % pageSize) length bytes).release poolIndex :=
        (push_release m r poolIndex).symm
      change ((m.release poolIndex).push r).Ordered
      rw [commute]
      have slot := retain_slot ordered result
      refine ((kept.push r).modify slot ?_ ?_ _ _ _).release poolIndex
      · change s.wal.records.length < (t.wal.records ++ [r]).length
        rw [same.records, List.length_append]
        exact Nat.lt_succ_self _
      · intro f oldest
        change (t.wal.records ++ [r])[t.wal.unflushedRecordIndex]? = some f at oldest
        rcases Nat.lt_or_ge t.wal.unflushedRecordIndex t.wal.records.length with pending | flushed
        · rw [List.getElem?_append_left pending] at oldest
          exact same.due due f oldest
        · rw [show t.wal.unflushedRecordIndex = t.wal.records.length from Nat.le_antisymm kept.upper flushed,
            List.getElem?_concat_length] at oldest
          rw [Option.some.inj oldest]

end SyncedWal

/-- The LSN counter has not wrapped around since the oldest pending record was created, and does not do so before
the last record with an effect on a page. -/
def SyncedWal.LsnsInOrder (s : SyncedWal) : SyncedOp → Prop
  | .set .. => s.Due s.wal.nextLsn
  | .abort txnId => (s.pushMark txnId .abortBegin).toUndo txnId = [] ∨
      s.Due s.wal.nextLsn ∧ s.wal.nextLsn + ((s.pushMark txnId .abortBegin).toUndo txnId).length < 2 ^ 32
  | _ => True

/-- When a transaction begins, fewer than 2^32 LSNs have been taken since the oldest active one began. -/
def SyncedWal.LsnsLeft (s : SyncedWal) : SyncedOp → Prop
  | .begin => s.wal.checkpointPending ∨ ∀ txnId ∈ s.openTxns, s.lsns < s.begunAt txnId + 2 ^ 32
  | _ => True

namespace SyncedWal

variable {s s' s'' : SyncedWal}

theorem Due.mono {lsn lsn' : Nat} (due : s.Due lsn) (le : lsn ≤ lsn') : s.Due lsn' :=
  fun f oldest => (due f oldest).trans le

/-- A record that is created now does not become older than a later one. -/
theorem Due.push {lsn : Nat} (due : s.Due lsn) {r : InMemoryWALRecord} (new : r.lsn ≤ lsn)
    (upper : s.wal.unflushedRecordIndex ≤ s.wal.records.length) : (s.push r).Due lsn := by
  intro f oldest
  change (s.wal.records ++ [r])[s.wal.unflushedRecordIndex]? = some f at oldest
  rcases Nat.lt_or_ge s.wal.unflushedRecordIndex s.wal.records.length with pending | flushed
  · rw [List.getElem?_append_left pending] at oldest
    exact due f oldest
  · rw [show s.wal.unflushedRecordIndex = s.wal.records.length from Nat.le_antisymm upper flushed,
      List.getElem?_concat_length] at oldest
    rw [← Option.some.inj oldest]
    exact new

/-- `get_page` has thrown, and no record was applied. -/
theorem Ordered.applyRecord_failed (ordered : s.Ordered) {r : InMemoryWALRecord} {position : Nat}
    (failed : s.applyRecord r position = (false, s')) : s'.Ordered := by
  unfold SyncedWal.applyRecord at failed
  split at failed
  · cases failed
  · rename_i loc length bytes _
    have kept := ordered.retain (loc / pageSize) false
    split at failed
    · rename_i result
      cases failed
      rw [result] at kept
      exact kept
    · cases failed

theorem Ordered.applied_push (ordered : s.Ordered) {r : InMemoryWALRecord} {done : Bool}
    (applied : s.applyRecord r s.wal.records.length = (done, s')) (due : s.Due r.lsn) : (s'.push r).Ordered := by
  have pushed := ordered.applyRecord_push due
  rw [applied] at pushed
  exact pushed

theorem Ordered.set (ordered : s.Ordered) (due : s.Due s.wal.nextLsn) (txnId loc writeLength : Nat) (data : List UInt8) :
    (s.set txnId loc writeLength data).Ordered := by
  have same := s.takeLsn.retain_sameLog (loc / pageSize) false
  have kept := ordered.takeLsn.retain (loc / pageSize) false
  simp only [SyncedWal.set]
  split
  · rename_i t result
    rw [result] at kept
    exact kept
  · rename_i poolIndex t result
    rw [result] at same kept
    split
    · rename_i u failed
      exact (kept.applyRecord_failed failed).release poolIndex
    · rename_i u applied
      have dueThen : t.Due s.wal.nextLsn := SameLog.due same due
      exact (kept.applied_push applied dueThen).release poolIndex

/-- The LSNs that the CLRs get do not wrap around. -/
theorem Ordered.writeClrs (ordered : s.Ordered) {undo : List InMemoryWALRecord}
    (due : undo = [] ∨ s.Due s.wal.nextLsn ∧ s.wal.nextLsn + undo.length ≤ 2 ^ 32) : (s.writeClrs undo).2.Ordered := by
  induction undo generalizing s with
  | nil => exact ordered
  | cons r rest ih =>
    obtain ⟨due, left⟩ := due.resolve_left (List.cons_ne_nil r rest)
    rw [List.length_cons] at left
    unfold SyncedWal.writeClrs
    split
    · exact ordered
    · rename_i clr w created
      have lsn := PagedWal.createCompensationRecord_lsn created
      have pushed : (s.takeLsn.push clr).Ordered := ordered.takeLsn.push clr
      have dueThen : (s.takeLsn.push clr).Due s.wal.nextLsn :=
        Due.push (s := s.takeLsn) due lsn.le ordered.upper
      have inside : s.wal.records.length < (s.takeLsn.push clr).wal.records.length := by
        change _ < (s.wal.records ++ [clr]).length
        rw [List.length_append]
        exact Nat.lt_succ_self _
      have applied := pushed.applyRecord inside (lsn ▸ dueThen)
      have same := (s.takeLsn.push clr).applyRecord_sameLog clr s.wal.records.length
      split
      · rename_i result
        rw [result] at applied
        exact applied
      · rename_i t result
        rw [result] at applied same
        refine ih applied ?_
        by_cases last : rest = []
        · exact Or.inl last
        · have more := List.length_pos_iff.mpr last
          have next : t.wal.nextLsn = s.wal.nextLsn + 1 := by
            rw [same.nextLsn]
            exact Nat.mod_eq_of_lt (by omega)
          rw [next]
          exact Or.inr ⟨(same.due dueThen).mono (Nat.le_succ _), by omega⟩

theorem Ordered.abort (ordered : s.Ordered) {txnId : Nat}
    (due : (s.pushMark txnId .abortBegin).toUndo txnId = [] ∨
      s.Due s.wal.nextLsn ∧ s.wal.nextLsn + ((s.pushMark txnId .abortBegin).toUndo txnId).length < 2 ^ 32) :
    (s.abort txnId).Ordered := by
  have undone : ((s.pushMark txnId .abortBegin).writeClrs ((s.pushMark txnId .abortBegin).toUndo txnId)).2.Ordered := by
    refine (ordered.pushMark txnId .abortBegin).writeClrs ?_
    by_cases nothing : (s.pushMark txnId .abortBegin).toUndo txnId = []
    · exact Or.inl nothing
    · obtain ⟨due, left⟩ := due.resolve_left nothing
      have more := List.length_pos_iff.mpr nothing
      have next : (s.pushMark txnId .abortBegin).wal.nextLsn = s.wal.nextLsn + 1 := Nat.mod_eq_of_lt (by omega)
      rw [next]
      exact Or.inr ⟨(Due.push (s := s.takeLsn) due le_rfl ordered.upper).mono (Nat.le_succ _), by omega⟩
  simp only [SyncedWal.abort]
  split
  · rename_i result
    rw [result] at undone
    exact undone
  · rename_i t result
    rw [result] at undone
    exact { undone.pushMark txnId .abortEnd with }

theorem Ordered.flushSlot (ordered : s.Ordered) (poolIndex : Nat) : (s.flushSlot poolIndex).Ordered := by
  unfold SyncedWal.flushSlot
  split
  · exact ordered
  · rename_i w found
    obtain ⟨same, dirty, _⟩ := BufferPool.writeBackOf_eq_some found
    rw [same] at dirty
    have within : poolIndex < s.pool.nextPoolIndex := by
      by_contra above
      rw [ordered.inUse.unused poolIndex (Nat.not_lt.mp above)] at dirty
      cases dirty
    refine { ordered with inUse := ordered.inUse.update within _, fileEffects := fun page i member => ?_, due := fun slot dirty i member pending => ?_ }
    · change i ∈ Function.update s.fileEffects w.fileIndex (s.effects poolIndex) page at member
      by_cases written : page = w.fileIndex
      · subst written
        rw [Function.update_self] at member
        exact ordered.effects _ i member
      · rw [Function.update_of_ne written] at member
        exact ordered.fileEffects page i member
    · change ((s.pool.update poolIndex _).metadata slot).dirty = true at dirty
      by_cases mine : slot = poolIndex
      · subst mine
        rw [BufferPool.update_same] at dirty
        cases dirty
      · change s.Due ((s.pool.update poolIndex _).metadata slot).pageLsn
        rw [BufferPool.update_other mine] at dirty ⊢
        exact ordered.due slot dirty i member pending

theorem Ordered.flushAll (ordered : s.Ordered) : s.flushAll.Ordered := by
  unfold SyncedWal.flushAll
  generalize List.range s.pool.poolSize = slots
  induction slots generalizing s with
  | nil => exact ordered
  | cons slot rest ih => exact ih (ordered.flushSlot slot)

theorem Ordered.checkpoint (ordered : s.Ordered) : s.checkpoint.Ordered := by
  have flushed := ordered.flushAll
  obtain ⟨k, synced, result, _⟩ := syncLog_result 3 { s.flushAll with wal := { s.flushAll.wal with log := [], logPos := 0 }, inFile := [] }
  have kept : (syncLog 3 { s.flushAll with wal := { s.flushAll.wal with log := [], logPos := 0 }, inFile := [] }).2.Ordered := by
    rw [result]
    exact { flushed with }
  simp only [SyncedWal.checkpoint]
  split
  · rename_i outcome
    rw [outcome] at kept
    exact kept
  · rename_i t outcome
    rw [outcome] at kept
    exact { kept with }

theorem Ordered.commit (ordered : s.Ordered) (txnId : Nat) : (s.commit txnId).Ordered := by
  have flushed := (ordered.pushMark txnId .commit).flush
  unfold SyncedWal.commit
  split
  · rename_i result
    rw [result] at flushed
    exact flushed
  · rename_i t result
    rw [result] at flushed
    exact { flushed with }

theorem Ordered.begin (ordered : s.Ordered) : s.begin.Ordered := by
  unfold SyncedWal.begin
  split
  · exact ordered
  · refine Ordered.pushMark ?_ _ _
    exact { ordered with }

theorem Ordered.step (ordered : s.Ordered) {op : SyncedOp} (inOrder : s.LsnsInOrder op) (run : s.step op = some s') :
    s'.Ordered := by
  cases op with
  | begin => cases run; exact ordered.begin
  | set txnId loc writeLength data => cases run; exact ordered.set inOrder txnId loc writeLength data
  | commit txnId => cases run; exact ordered.commit txnId
  | abort txnId => cases run; exact ordered.abort inOrder
  | getPage fileIndex adviseEviction => cases run; exact ordered.retain fileIndex adviseEviction
  | dropHandle poolIndex => cases run; exact ordered.release poolIndex
  | requestCheckpoint => cases run; exact { ordered with }
  | checkpoint =>
    simp only [SyncedWal.step] at run
    split at run
    · cases run; exact ordered.checkpoint
    · cases run

theorem applied_sameLog {r : InMemoryWALRecord} {position : Nat} {done : Bool}
    (applied : s.applyRecord r position = (done, s')) : SameLog s s' := by
  have same := applyRecord_sameLog s r position
  rw [applied] at same
  exact same

/-- LSNs are taken one after the other, and no transaction begins. -/
structure NoneBegins (s s' : SyncedWal) : Prop where
  openTxns : s'.openTxns.Sublist s.openTxns
  begunAt : s'.begunAt = s.begunAt
  lsns : ∃ n, s'.lsns = s.lsns + n ∧ s'.wal.nextLsn ≡ s.wal.nextLsn + n [MOD 2 ^ 32]

theorem SameLog.noneBegins (same : SameLog s s') : NoneBegins s s' := by
  refine ⟨?_, same.begunAt, 0, same.lsns, ?_⟩
  · rw [same.openTxns]
  · rw [same.nextLsn]
    rfl

theorem NoneBegins.trans (first : NoneBegins s s') (second : NoneBegins s' s'') : NoneBegins s s'' := by
  obtain ⟨n, lsns, next⟩ := first.lsns
  obtain ⟨m, lsns', next'⟩ := second.lsns
  refine ⟨second.openTxns.trans first.openTxns, second.begunAt.trans first.begunAt, n + m, ?_, ?_⟩
  · rw [lsns', lsns, Nat.add_assoc]
  · rw [← Nat.add_assoc]
    exact next'.trans (next.add_right m)

theorem takeLsn_noneBegins (s : SyncedWal) : NoneBegins s s.takeLsn :=
  ⟨.refl _, rfl, 1, rfl, Nat.mod_modEq _ _⟩

theorem takeLsn_push_noneBegins (s : SyncedWal) (r : InMemoryWALRecord) : NoneBegins s (s.takeLsn.push r) :=
  ⟨.refl _, rfl, 1, rfl, Nat.mod_modEq _ _⟩

theorem push_noneBegins (s : SyncedWal) (r : InMemoryWALRecord) : NoneBegins s (s.push r) := ⟨.refl _, rfl, 0, rfl, .refl _⟩

theorem set_noneBegins (s : SyncedWal) (txnId loc writeLength : Nat) (data : List UInt8) :
    NoneBegins s (s.set txnId loc writeLength data) := by
  have retained := s.takeLsn_noneBegins.trans (s.takeLsn.retain_sameLog (loc / pageSize) false).noneBegins
  simp only [SyncedWal.set]
  split
  · rename_i result
    rw [result] at retained
    exact retained
  · rename_i poolIndex t result
    rw [result] at retained
    split
    · rename_i u failed
      exact (retained.trans (applied_sameLog failed).noneBegins).trans (release_sameLog u poolIndex).noneBegins
    · rename_i u done
      have applied := retained.trans (applied_sameLog done).noneBegins
      exact (applied.trans (push_noneBegins u _)).trans (release_sameLog _ poolIndex).noneBegins

theorem writeClrs_noneBegins (s : SyncedWal) (undo : List InMemoryWALRecord) : NoneBegins s (s.writeClrs undo).2 := by
  induction undo generalizing s with
  | nil => exact (SameLog.refl s).noneBegins
  | cons r rest ih =>
    unfold SyncedWal.writeClrs
    split
    · exact (SameLog.refl s).noneBegins
    · rename_i clr w _
      have pushed := s.takeLsn_push_noneBegins clr
      split
      · rename_i failed
        exact pushed.trans (applied_sameLog failed).noneBegins
      · rename_i t applied
        exact (pushed.trans (applied_sameLog applied).noneBegins).trans (ih t)

/-- The end of a transaction. -/
theorem NoneBegins.ends (taken : NoneBegins s s') (activeTransactions : Int) (txnId : Nat) :
    NoneBegins s { s' with wal := { s'.wal with activeTransactions }, openTxns := s'.openTxns.erase txnId } :=
  ⟨List.erase_sublist.trans taken.openTxns, taken.begunAt, taken.lsns⟩

theorem commit_noneBegins (s : SyncedWal) (txnId : Nat) : NoneBegins s (s.commit txnId) := by
  have flushed := (s.takeLsn_push_noneBegins _).trans (flush_sameLog (s.pushMark txnId .commit)).noneBegins
  unfold SyncedWal.commit
  split
  · rename_i result
    rw [result] at flushed
    exact flushed
  · rename_i t result
    rw [result] at flushed
    exact flushed.ends _ txnId

theorem abort_noneBegins (s : SyncedWal) (txnId : Nat) : NoneBegins s (s.abort txnId) := by
  have undone := (s.takeLsn_push_noneBegins _).trans
    (writeClrs_noneBegins (s.pushMark txnId .abortBegin) ((s.pushMark txnId .abortBegin).toUndo txnId))
  simp only [SyncedWal.abort]
  split
  · rename_i result
    rw [result] at undone
    exact undone
  · rename_i t result
    rw [result] at undone
    exact (undone.trans (t.takeLsn_push_noneBegins _)).ends _ txnId

theorem flushAll_noneBegins (s : SyncedWal) : NoneBegins s s.flushAll := by
  unfold SyncedWal.flushAll
  generalize List.range s.pool.poolSize = slots
  induction slots generalizing s with
  | nil => exact (SameLog.refl s).noneBegins
  | cons slot rest ih =>
    refine NoneBegins.trans ?_ (ih _)
    unfold SyncedWal.flushSlot
    split <;> exact ⟨.refl _, rfl, 0, rfl, .refl _⟩

theorem checkpoint_noneBegins (s : SyncedWal) : NoneBegins s s.checkpoint := by
  obtain ⟨k, synced, result, _⟩ := syncLog_result 3 { s.flushAll with wal := { s.flushAll.wal with log := [], logPos := 0 }, inFile := [] }
  have flushed := s.flushAll_noneBegins
  have kept : NoneBegins s (syncLog 3 { s.flushAll with wal := { s.flushAll.wal with log := [], logPos := 0 }, inFile := [] }).2 := by
    rw [result]
    exact { flushed with }
  simp only [SyncedWal.checkpoint]
  split
  · rename_i outcome
    rw [outcome] at kept
    exact kept
  · rename_i t outcome
    rw [outcome] at kept
    exact { kept with }

/-- An id is the LSN that the counter gave out when the transaction began. -/
structure Numbered (s : SyncedWal) : Prop where
  distinct : s.openTxns.Nodup
  begun : ∀ txnId ∈ s.openTxns,
    s.begunAt txnId < s.lsns ∧ txnId + s.lsns ≡ s.wal.nextLsn + s.begunAt txnId [MOD 2 ^ 32]

theorem NoneBegins.numbered (taken : NoneBegins s s') (numbered : s.Numbered) : s'.Numbered := by
  obtain ⟨n, lsns, next⟩ := taken.lsns
  refine ⟨taken.openTxns.nodup numbered.distinct, fun txnId member => ?_⟩
  obtain ⟨earlier, counted⟩ := numbered.begun txnId (taken.openTxns.subset member)
  rw [taken.begunAt, lsns]
  refine ⟨earlier.trans_le (Nat.le_add_right _ _), ?_⟩
  calc txnId + (s.lsns + n) = txnId + s.lsns + n := (Nat.add_assoc ..).symm
    _ ≡ s.wal.nextLsn + s.begunAt txnId + n [MOD 2 ^ 32] := counted.add_right n
    _ = s.wal.nextLsn + n + s.begunAt txnId := Nat.add_right_comm ..
    _ ≡ s'.wal.nextLsn + s.begunAt txnId [MOD 2 ^ 32] := next.symm.add_right _

/-- The counter comes back to the id of an active transaction only after 2^32 LSNs. -/
theorem Numbered.nextLsn_new (numbered : s.Numbered) (left : ∀ txnId ∈ s.openTxns, s.lsns < s.begunAt txnId + 2 ^ 32) :
    s.wal.nextLsn ∉ s.openTxns := by
  intro member
  obtain ⟨earlier, counted⟩ := numbered.begun _ member
  have bound := left _ member
  have round : 2 ^ 32 ∣ s.lsns - s.begunAt s.wal.nextLsn :=
    (Nat.modEq_iff_dvd' earlier.le).mp (counted.add_left_cancel' _).symm
  have least := Nat.le_of_dvd (Nat.sub_pos_of_lt earlier) round
  omega

theorem Numbered.begin (numbered : s.Numbered) (left : s.LsnsLeft .begin) : s.begin.Numbered := by
  unfold SyncedWal.begin
  split
  · exact numbered
  · rename_i running
    have new := numbered.nextLsn_new (left.resolve_left running)
    refine ⟨List.nodup_cons.mpr ⟨new, numbered.distinct⟩, fun txnId member => ?_⟩
    change Function.update s.begunAt s.wal.nextLsn s.lsns txnId < s.lsns + 1 ∧ txnId + (s.lsns + 1) ≡
      (s.wal.nextLsn + 1) % 2 ^ 32 + Function.update s.begunAt s.wal.nextLsn s.lsns txnId [MOD 2 ^ 32]
    rcases List.mem_cons.mp member with rfl | active
    · rw [Function.update_self]
      refine ⟨Nat.lt_succ_self _, ?_⟩
      rw [Nat.add_comm s.lsns, ← Nat.add_assoc]
      exact (Nat.mod_modEq _ _).symm.add_right _
    · obtain ⟨earlier, counted⟩ := numbered.begun txnId active
      have other : txnId ≠ s.wal.nextLsn := by
        rintro rfl
        exact new active
      rw [Function.update_of_ne other]
      refine ⟨earlier.trans (Nat.lt_succ_self _), ?_⟩
      calc txnId + (s.lsns + 1) = txnId + s.lsns + 1 := (Nat.add_assoc ..).symm
        _ ≡ s.wal.nextLsn + s.begunAt txnId + 1 [MOD 2 ^ 32] := counted.add_right 1
        _ = s.wal.nextLsn + 1 + s.begunAt txnId := Nat.add_right_comm ..
        _ ≡ (s.wal.nextLsn + 1) % 2 ^ 32 + s.begunAt txnId [MOD 2 ^ 32] := (Nat.mod_modEq _ _).symm.add_right _

theorem Numbered.step {op : SyncedOp} (numbered : s.Numbered) (left : s.LsnsLeft op) (run : s.step op = some s') :
    s'.Numbered := by
  cases op with
  | begin => cases run; exact numbered.begin left
  | set txnId loc writeLength data => cases run; exact (s.set_noneBegins txnId loc writeLength data).numbered numbered
  | commit txnId => cases run; exact (s.commit_noneBegins txnId).numbered numbered
  | abort txnId => cases run; exact (s.abort_noneBegins txnId).numbered numbered
  | getPage fileIndex adviseEviction =>
    cases run
    exact (s.retain_sameLog fileIndex adviseEviction).noneBegins.numbered numbered
  | dropHandle poolIndex => cases run; exact (s.release_sameLog poolIndex).noneBegins.numbered numbered
  | requestCheckpoint => cases run; exact { numbered with }
  | checkpoint =>
    simp only [SyncedWal.step] at run
    split at run
    · cases run; exact s.checkpoint_noneBegins.numbered numbered
    · cases run

/-- While no LSN is compared across the wrap-around of the counter and no transaction stays active while 2^32 LSNs are taken,
an evicted page holds the effects of flushed records only, and active transactions have different ids. -/
theorem evictions_flushed (started : s.Started) (reach : Reaches step (fun s op => s.LsnsInOrder op ∧ s.LsnsLeft op) s s') :
    (∀ e ∈ s'.evictions, ∀ i ∈ e.effects, i < e.unflushed) ∧ s'.openTxns.Nodup := by
  have both : s'.Ordered ∧ s'.Numbered := by
    have numbered : s.Numbered := by
      refine ⟨?_, fun txnId active => ?_⟩ <;> rw [started.idle] at *
      · exact List.nodup_nil
      · cases active
    exact reach.invariant (P := fun s => s.Ordered ∧ s.Numbered) ⟨started.ordered, numbered⟩
      fun u op u' kept guard run => ⟨kept.1.step guard.1 run, kept.2.step guard.2 run⟩
  exact ⟨both.1.evicted, both.2.distinct⟩

theorem fresh_started (poolSize : Nat) (file : Mem) (fsync : Nat → Bool) : (fresh poolSize file fsync).Started where
  upper := le_rfl
  inUse := ⟨nofun, nofun, fun _ _ => rfl⟩
  clean _ := rfl
  effects _ _ := nofun
  fileEffects _ _ := nofun
  counted _ := nofun
  idle := rfl
  nothingWritten := rfl

theorem evictions_flushed_two_open : ∃ s,
    Reaches step (fun s op => s.LsnsInOrder op ∧ s.LsnsLeft op) (fresh 1 (fun _ => 0) fun _ => true) s ∧
    s.evictions.map Eviction.effects = [[2]] ∧ (∀ e ∈ s.evictions, ∀ i ∈ e.effects, i < e.unflushed) ∧
    s.openTxns = [1, 0] ∧ s.openTxns.Nodup := by
  let start := fresh 1 (fun _ => 0) fun _ => true
  have first : start.LsnsLeft .begin := Or.inr nofun
  have second : start.begin.LsnsLeft .begin := by
    refine Or.inr fun txnId active => ?_
    cases List.mem_singleton.mp active
    decide
  have due : start.begin.begin.Due 2 := by
    intro f oldest
    cases oldest
    decide
  have inOrder (t : SyncedWal) : t.LsnsInOrder .begin := trivial
  have begun : Reaches step (fun s op => s.LsnsInOrder op ∧ s.LsnsLeft op) start start.begin.begin :=
    (Reaches.init.call .begin rfl ⟨inOrder _, first⟩).call .begin rfl ⟨inOrder _, second⟩
  have written := begun.call (.set 0 4096 1 [1]) rfl ⟨due, trivial⟩
  have run := written.call (.getPage 2 false) rfl ⟨trivial, trivial⟩
  obtain ⟨flushed, distinct⟩ := evictions_flushed (fresh_started 1 (fun _ => 0) fun _ => true) run
  exact ⟨_, run, by decide, flushed, by decide, distinct⟩

/-- One transaction is open and others have come and gone, none of which has used a page. -/
structure Unused (s : SyncedWal) : Prop where
  flushed : s.wal.unflushedRecordIndex = s.wal.records.length
  checkpointPending : s.wal.checkpointPending = false
  pool : s.pool = { poolSize := 1 }
  fsync : s.fsync = fun _ => true
  openTxns : s.openTxns = [0]
  fileEffects : s.fileEffects = fun _ => []

theorem Unused.round (unused : s.Unused) : (s.begin.commit s.wal.nextLsn).Unused ∧
    (s.begin.commit s.wal.nextLsn).wal.nextLsn = (s.wal.nextLsn + 2) % 2 ^ 32 := by
  obtain ⟨wal, pool, file, fsync, fsyncs, openTxns, effects, fileEffects⟩ := s
  obtain ⟨nextLsn, nextTxnId, logPos, records, unflushed, active, pending, log⟩ := wal
  obtain ⟨flushed, running, rfl, rfl, rfl, rfl⟩ := unused
  dsimp only at flushed running
  subst flushed running
  exact ⟨⟨rfl, rfl, rfl, rfl, List.erase_cons_head .., rfl⟩, Nat.mod_add_mod _ _ _⟩

/-- The last LSN before the counter wraps around goes to one `begin`, and the first one after it to the next. -/
theorem Unused.begin_begin (unused : s.Unused) (last : s.wal.nextLsn = 2 ^ 32 - 1) :
    s.begin.begin.wal.nextLsn = 1 ∧ s.begin.begin.openTxns = [0, 2 ^ 32 - 1, 0] ∧ s.begin.begin.pool = { poolSize := 1 } ∧
      (s.begin.begin.fileEffects = fun _ => []) ∧ s.begin.begin.wal.unflushedRecordIndex = s.wal.records.length ∧
      ∃ b b', b.lsn = 2 ^ 32 - 1 ∧ s.begin.begin.wal.records = s.wal.records ++ [b, b'] := by
  obtain ⟨wal, pool, file, fsync, fsyncs, openTxns, effects, fileEffects⟩ := s
  obtain ⟨nextLsn, nextTxnId, logPos, records, unflushed, active, pending, log⟩ := wal
  obtain ⟨flushed, running, rfl, rfl, rfl, rfl⟩ := unused
  dsimp only at flushed running last
  subst flushed running last
  have wraps : (2 ^ 32 - 1 + 1) % 2 ^ 32 = 0 := rfl
  refine ⟨congrArg (fun lsn => (lsn + 1) % 2 ^ 32) wraps, congrArg (fun lsn => [lsn, 2 ^ 32 - 1, 0]) wraps, rfl, rfl, rfl, _, _, ?_,
    List.append_assoc ..⟩
  rfl

/-- The only slot of the pool holds the page that the record was applied to. -/
theorem apply_first (pool : s.pool = { poolSize := 1 }) (fileEffects : s.fileEffects = fun _ => []) {r : InMemoryWALRecord}
    {bytes : List UInt8} (lsn : r.lsn = 1) (effect : PagedWal.effectOf r = some (4096, 1, bytes)) (position : Nat) :
    ((s.retain 1 false).2.applyRecord r position).1 = true ∧ ((s.retain 1 false).2.applyRecord r position).2.wal = s.wal ∧
      (((s.retain 1 false).2.applyRecord r position).2.release 0).effects 0 = [position] ∧
      (((s.retain 1 false).2.applyRecord r position).2.release 0).openTxns = s.openTxns ∧
      ∃ retained pool, (((s.retain 1 false).2.applyRecord r position).2.release 0).pool.reserve 2 false = some (retained, pool) ∧
        retained.writeBack = some ⟨0, 1, 1⟩ := by
  obtain ⟨wal, pool, file, fsync, fsyncs, openTxns, effects, fileEffects⟩ := s
  obtain ⟨checksum, lsn, txnId, body, data⟩ := r
  dsimp only at pool fileEffects lsn
  subst pool fileEffects lsn
  unfold SyncedWal.applyRecord
  rw [effect]
  exact ⟨rfl, rfl, rfl, rfl, ⟨0, some ⟨0, 1, 1⟩, true⟩, _, rfl, rfl⟩

theorem set_first (pool : s.pool = { poolSize := 1 }) (fileEffects : s.fileEffects = fun _ => []) (next : s.wal.nextLsn = 1) :
    ∃ r, (s.set 0 4096 1 [1]).wal = s.wal.takeLsn.push r ∧ (s.set 0 4096 1 [1]).effects 0 = [s.wal.records.length] ∧
      (s.set 0 4096 1 [1]).openTxns = s.openTxns ∧
      ∃ retained pool, (s.set 0 4096 1 [1]).pool.reserve 2 false = some (retained, pool) ∧ retained.writeBack = some ⟨0, 1, 1⟩ := by
  have retained : s.takeLsn.retain (4096 / pageSize) false = (some 0, (s.takeLsn.retain 1 false).2) := by
    obtain ⟨wal, pool, file, fsync, fsyncs, openTxns, effects, fileEffects⟩ := s
    dsimp only at pool
    subst pool
    rfl
  have length : (s.takeLsn.retain 1 false).2.wal.records.length = s.wal.records.length :=
    congrArg List.length (s.takeLsn.retain_sameLog 1 false).records
  simp only [SyncedWal.set, retained]
  generalize record : InMemoryWALRecord.withChecksum _ = r
  have lsn : r.lsn = 1 := by
    rw [← record]
    exact next
  obtain ⟨bytes, effect⟩ : ∃ bytes, PagedWal.effectOf r = some (4096, 1, bytes) := by
    rw [← record]
    exact ⟨_, rfl⟩
  obtain ⟨done, wal, effects, openTxns, rest⟩ := apply_first (s := s.takeLsn) pool fileEffects lsn effect s.wal.records.length
  rw [length]
  obtain ⟨u, applied⟩ : ∃ u, (s.takeLsn.retain 1 false).2.applyRecord r s.wal.records.length = (true, u) := ⟨_, Prod.ext done rfl⟩
  rw [applied] at wal effects openTxns rest ⊢
  dsimp only
  rw [push_release]
  have released : (u.release 0).wal = u.wal := by
    unfold SyncedWal.release
    split <;> rfl
  exact ⟨r, congrArg (WAL.push · r) (released.trans wal), effects, openTxns, rest⟩

/-- The page with the newest record is older than the oldest pending one. -/
theorem retain_evicts {fileIndex : Nat} {adviseEviction : Bool} {r : Retained} {pool : BufferPool} {w : WriteBack}
    (reserved : s.pool.reserve fileIndex adviseEviction = some (r, pool)) (out : r.writeBack = some w)
    {b : InMemoryWALRecord} (oldest : s.wal.records[s.wal.unflushedRecordIndex]? = some b) (younger : w.pageLsn < b.lsn) :
    { effects := s.effects w.poolIndex, unflushed := s.wal.unflushedRecordIndex, synced := s.synced } ∈
      (s.retain fileIndex adviseEviction).2.evictions ∧ (s.retain fileIndex adviseEviction).2.openTxns = s.openTxns := by
  refine ⟨?_, (s.retain_sameLog fileIndex adviseEviction).openTxns⟩
  have kept : flushUpTo { s with pool } w.pageLsn = (true, { s with pool }) := by
    simp only [SyncedWal.flushUpTo, oldest, if_neg (Nat.not_le.mpr younger)]
  simp only [SyncedWal.retain, reserved, out, SyncedWal.writeBack, kept]
  split <;> exact List.mem_cons_self

/-- The counter has wrapped around between a record that is pending and the last one for the page. -/
theorem Unused.wrapped (unused : s.Unused) (last : s.wal.nextLsn = 2 ^ 32 - 1) :
    (∃ e ∈ ((s.begin.begin.set 0 4096 1 [1]).retain 2 false).2.evictions, ∃ i ∈ e.effects, e.unflushed < i) ∧
      ¬((s.begin.begin.set 0 4096 1 [1]).retain 2 false).2.openTxns.Nodup := by
  obtain ⟨next, openTxns, pool, fileEffects, unflushed, b, b', lsn, records⟩ := unused.begin_begin last
  obtain ⟨r, wal, effects, same, retained, newPool, reserved, out⟩ := set_first pool fileEffects next
  have oldest : (s.begin.begin.set 0 4096 1 [1]).wal.records[(s.begin.begin.set 0 4096 1 [1]).wal.unflushedRecordIndex]? = some b := by
    rw [wal]
    change (s.begin.begin.wal.records ++ [r])[s.begin.begin.wal.unflushedRecordIndex]? = some b
    rw [unflushed, records, List.append_assoc, List.getElem?_append_right le_rfl, Nat.sub_self]
    rfl
  have young : 1 < b.lsn := by
    rw [lsn]
    norm_num
  obtain ⟨evicted, stillOpen⟩ := retain_evicts reserved out oldest young
  refine ⟨⟨_, evicted, s.begin.begin.wal.records.length, ?_, ?_⟩, ?_⟩
  · rw [effects]
    exact List.mem_singleton_self _
  · rw [wal]
    change s.begin.begin.wal.unflushedRecordIndex < _
    rw [unflushed, records, List.length_append]
    exact Nat.lt_add_of_pos_right (Nat.succ_pos _)
  · rw [stillOpen, same, openTxns]
    simp

theorem unused_reached (k : Nat) : ∃ s, Reaches step (fun _ _ => True) (fresh 1 (fun _ => 0) fun _ => true) s ∧ s.Unused ∧
    s.wal.nextLsn = (2 * k + 3) % 2 ^ 32 := by
  induction k with
  | zero =>
    refine ⟨(fresh 1 (fun _ => 0) fun _ => true).begin.begin.commit 1, ?_, ⟨rfl, rfl, rfl, rfl, rfl, rfl⟩, rfl⟩
    exact ((Reaches.init.call .begin rfl trivial).call .begin rfl trivial).call (.commit 1) rfl trivial
  | succ k ih =>
    obtain ⟨s, reach, unused, next⟩ := ih
    obtain ⟨unused', next'⟩ := unused.round
    refine ⟨_, (reach.call .begin rfl trivial).call (.commit s.wal.nextLsn) rfl trivial, unused', ?_⟩
    rw [next', next, Nat.mod_add_mod]
    rfl

theorem evictions_unflushed_wrapped : ∃ s, Reaches step (fun _ _ => True) (fresh 1 (fun _ => 0) fun _ => true) s ∧
    (∃ e ∈ s.evictions, ∃ i ∈ e.effects, e.unflushed < i) ∧ ¬s.openTxns.Nodup := by
  obtain ⟨s, reach, unused, next⟩ := unused_reached (2 ^ 31 - 2)
  have run := ((reach.call .begin rfl trivial).call .begin rfl trivial).call (.set 0 4096 1 [1]) rfl trivial
  exact ⟨_, run.call (.getPage 2 false) rfl trivial, unused.wrapped (next.trans (by norm_num))⟩

end SyncedWal

end DiskMap
