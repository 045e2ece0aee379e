import DiskMap.Pool.LsnOrder

namespace DiskMap
open ByteMemory GuardedRun

namespace SyncedWal

variable {s s' s'' : SyncedWal}

/-- Of the calls of `fsync` that have been made, no three in a row failed. -/
def Reliable (s : SyncedWal) : Prop :=
  ∀ k, k + 2 < s.fsyncs → s.fsync k = true ∨ s.fsync (k + 1) = true ∨ s.fsync (k + 2) = true

/-- The records that are counted as flushed are in a synced log, and were when pages were evicted. -/
structure Covered (s : SyncedWal) : Prop where
  counted : ∀ i, i < s.wal.unflushedRecordIndex → i ∈ s.synced
  evicted : ∀ e ∈ s.evictions, ∀ i, i < e.unflushed → i ∈ e.synced

/-- As long as `sync_log` does not throw, records are synced when they are counted. -/
structure SyncKept (s s' : SyncedWal) : Prop where
  fsync : s'.fsync = s.fsync
  fsyncs : s.fsyncs ≤ s'.fsyncs
  covered : s'.Reliable → s.Covered → s'.Covered

theorem Reliable.before (reliable : s'.Reliable) (fsync : s'.fsync = s.fsync) (fsyncs : s.fsyncs ≤ s'.fsyncs) : s.Reliable := by
  intro k within
  rw [← fsync]
  exact reliable k (within.trans_le fsyncs)

/-- Three attempts are not all in vain. -/
theorem Reliable.succeeds (reliable : s.Reliable) {k : Nat} (count : s.fsyncs = k + 3) : ∃ i, i < 3 ∧ s.fsync (k + i) = true := by
  rcases reliable k (by omega) with works | works | works
  · exact ⟨0, by decide, works⟩
  · exact ⟨1, by decide, works⟩
  · exact ⟨2, by decide, works⟩

theorem SyncKept.refl (s : SyncedWal) : SyncKept s s := ⟨rfl, le_rfl, fun _ covered => covered⟩

theorem SyncKept.trans (first : SyncKept s s') (second : SyncKept s' s'') : SyncKept s s'' where
  fsync := second.fsync.trans first.fsync
  fsyncs := first.fsyncs.trans second.fsyncs
  covered reliable covered := second.covered reliable (first.covered (reliable.before second.fsync second.fsyncs) covered)

/-- Nothing is flushed or evicted. -/
theorem SyncKept.of_eq (fsync : s'.fsync = s.fsync) (fsyncs : s'.fsyncs = s.fsyncs)
    (unflushed : s'.wal.unflushedRecordIndex = s.wal.unflushedRecordIndex) (synced : s'.synced = s.synced)
    (evictions : s'.evictions = s.evictions) : SyncKept s s' where
  fsync := fsync
  fsyncs := fsyncs.ge
  covered _ covered := by
    refine ⟨?_, ?_⟩
    · rw [unflushed, synced]
      exact covered.counted
    · rw [evictions]
      exact covered.evicted

theorem SyncKept.flush (s : SyncedWal) : SyncKept s s.flush.2 := by
  obtain ⟨k, inFile, synced, result, le, success, failure⟩ := s.flush_result
  rw [result]
  refine ⟨rfl, le, fun reliable covered => ⟨fun i inside => ?_, covered.evicted⟩⟩
  cases done : s.flush.1 with
  | true =>
    refine (success done i).mpr ?_
    change i < s.wal.records.length at inside
    rcases Nat.lt_or_ge i s.wal.unflushedRecordIndex with before | pending
    · exact Or.inr (Or.inr (covered.counted i before))
    · exact Or.inl ⟨pending, by omega⟩
  | false =>
    obtain ⟨count, failed⟩ := failure done
    exact absurd (reliable.succeeds count) (by simpa using failed)

theorem SyncKept.flushUpTo (s : SyncedWal) (lsn : Nat) : SyncKept s (s.flushUpTo lsn).2 := by
  unfold SyncedWal.flushUpTo
  split
  · split
    · exact .flush s
    · exact .refl s
  · exact .refl s

theorem SyncKept.writePage (s : SyncedWal) (w : WriteBack) : SyncKept s (s.writePage w) := by
  refine ⟨rfl, le_rfl, fun _ covered => ⟨covered.counted, fun e member => ?_⟩⟩
  rcases List.mem_cons.mp member with rfl | before
  · exact covered.counted
  · exact covered.evicted e before

theorem SyncKept.writeBack (s : SyncedWal) (w : Option WriteBack) : SyncKept s (s.writeBack w).2 := by
  cases w with
  | none => exact .refl s
  | some w =>
    have flushed := SyncKept.flushUpTo s w.pageLsn
    simp only [SyncedWal.writeBack]
    split
    · rename_i result
      rw [result] at flushed
      exact flushed
    · rename_i t result
      rw [result] at flushed
      exact flushed.trans (.writePage t w)

theorem SyncKept.retain (s : SyncedWal) (fileIndex : Nat) (adviseEviction : Bool) :
    SyncKept s (s.retain fileIndex adviseEviction).2 := by
  unfold SyncedWal.retain
  split
  · exact .refl s
  · rename_i r pool _
    have begun : SyncKept s { s with pool } := .of_eq rfl rfl rfl rfl rfl
    have written := SyncKept.writeBack { s with pool } r.writeBack
    split
    · rename_i result
      rw [result] at written
      exact begun.trans written
    · rename_i t result
      rw [result] at written
      refine (begun.trans written).trans ?_
      split <;> exact .of_eq rfl rfl rfl rfl rfl

theorem SyncKept.release (s : SyncedWal) (poolIndex : Nat) : SyncKept s (s.release poolIndex) := by
  unfold SyncedWal.release
  split <;> exact .of_eq rfl rfl rfl rfl rfl

theorem SyncKept.applyRecord (s : SyncedWal) (r : InMemoryWALRecord) (position : Nat) :
    SyncKept s (s.applyRecord r position).2 := by
  unfold SyncedWal.applyRecord
  split
  · exact .refl s
  · rename_i loc length bytes _
    have retained := SyncKept.retain s (loc / pageSize) false
    split
    · rename_i result
      rw [result] at retained
      exact retained
    · rename_i poolIndex t result
      rw [result] at retained
      have modified : SyncKept t (t.modify poolIndex position r.lsn (loc % pageSize) length bytes) := .of_eq rfl rfl rfl rfl rfl
      exact (retained.trans modified).trans (.release _ poolIndex)

theorem SyncKept.applied {r : InMemoryWALRecord} {position : Nat} {done : Bool}
    (applied : s.applyRecord r position = (done, s')) : SyncKept s s' := by
  have kept := SyncKept.applyRecord s r position
  rw [applied] at kept
  exact kept

theorem SyncKept.pushMark (s : SyncedWal) (txnId : Nat) (body : RecordBody) : SyncKept s (s.pushMark txnId body) :=
  .of_eq rfl rfl rfl rfl rfl

theorem SyncKept.begin (s : SyncedWal) : SyncKept s s.begin := by
  unfold SyncedWal.begin
  split <;> exact .of_eq rfl rfl rfl rfl rfl

theorem SyncKept.commit (s : SyncedWal) (txnId : Nat) : SyncKept s (s.commit txnId) := by
  have flushed := (SyncKept.pushMark s txnId .commit).trans (.flush _)
  unfold SyncedWal.commit
  split
  · rename_i result
    rw [result] at flushed
    exact flushed
  · rename_i t result
    rw [result] at flushed
    exact flushed.trans (.of_eq rfl rfl rfl rfl rfl)

theorem SyncKept.set (s : SyncedWal) (txnId loc writeLength : Nat) (data : List UInt8) :
    SyncKept s (s.set txnId loc writeLength data) := by
  have taken : SyncKept s s.takeLsn := .of_eq rfl rfl rfl rfl rfl
  have retained := taken.trans (.retain s.takeLsn (loc / pageSize) false)
  simp only [SyncedWal.set]
  split
  · rename_i t result
    rw [result] at retained
    exact retained
  · rename_i poolIndex t result
    rw [result] at retained
    split
    · rename_i u failed
      exact (retained.trans (.applied failed)).trans (.release u poolIndex)
    · rename_i u done
      have pushed : ∀ r, SyncKept u (u.push r) := fun r => .of_eq rfl rfl rfl rfl rfl
      exact ((retained.trans (.applied done)).trans (pushed _)).trans (.release _ poolIndex)

theorem SyncKept.writeClrs (s : SyncedWal) (undo : List InMemoryWALRecord) : SyncKept s (s.writeClrs undo).2 := by
  induction undo generalizing s with
  | nil => exact .refl s
  | cons r rest ih =>
    unfold SyncedWal.writeClrs
    split
    · exact .refl s
    · rename_i clr w _
      have pushed : SyncKept s (s.takeLsn.push clr) := .of_eq rfl rfl rfl rfl rfl
      have applied := pushed.trans (.applyRecord (s.takeLsn.push clr) clr s.wal.records.length)
      split
      · rename_i result
        rw [result] at applied
        exact applied
      · rename_i t result
        rw [result] at applied
        exact applied.trans (ih t)

theorem SyncKept.abort (s : SyncedWal) (txnId : Nat) : SyncKept s (s.abort txnId) := by
  have undone := (SyncKept.pushMark s txnId .abortBegin).trans (.writeClrs _ ((s.pushMark txnId .abortBegin).toUndo txnId))
  simp only [SyncedWal.abort]
  split
  · rename_i result
    rw [result] at undone
    exact undone
  · rename_i t result
    rw [result] at undone
    exact undone.trans (.of_eq rfl rfl rfl rfl rfl)

theorem SyncKept.flushAll (s : SyncedWal) : SyncKept s s.flushAll := by
  unfold SyncedWal.flushAll
  generalize List.range s.pool.poolSize = slots
  induction slots generalizing s with
  | nil => exact .refl s
  | cons slot rest ih =>
    have first : SyncKept s (s.flushSlot slot) := by
      unfold SyncedWal.flushSlot
      split <;> exact .of_eq rfl rfl rfl rfl rfl
    exact first.trans (ih _)

theorem SyncKept.checkpoint (s : SyncedWal) : SyncKept s s.checkpoint := by
  let truncated : SyncedWal := { s.flushAll with wal := { s.flushAll.wal with log := [], logPos := 0 }, inFile := [] }
  obtain ⟨k, synced, result, le, success, failure⟩ := syncLog_result 3 truncated
  have synced_ : SyncKept truncated (syncLog 3 truncated).2 := by
    rw [result]
    refine ⟨rfl, le, fun reliable covered => ⟨fun i inside => ?_, covered.evicted⟩⟩
    cases done : (syncLog 3 truncated).1 with
    | true =>
      rw [success done]
      exact covered.counted i inside
    | false =>
      obtain ⟨count, failed⟩ := failure done
      exact absurd (reliable.succeeds count) (by simpa using failed)
  have emptied : SyncKept s.flushAll truncated := .of_eq rfl rfl rfl rfl rfl
  have kept := ((SyncKept.flushAll s).trans emptied).trans synced_
  simp only [SyncedWal.checkpoint]
  split
  · rename_i outcome
    rw [outcome] at kept
    exact kept
  · rename_i t outcome
    rw [outcome] at kept
    exact kept.trans (.of_eq rfl rfl rfl rfl rfl)

theorem SyncKept.step {op : SyncedOp} (run : s.step op = some s') : SyncKept s s' := by
  cases op with
  | begin => cases run; exact .begin s
  | set txnId loc writeLength data => cases run; exact .set s txnId loc writeLength data
  | commit txnId => cases run; exact .commit s txnId
  | abort txnId => cases run; exact .abort s txnId
  | getPage fileIndex adviseEviction => cases run; exact .retain s fileIndex adviseEviction
  | dropHandle poolIndex => cases run; exact .release s poolIndex
  | requestCheckpoint => cases run; exact .of_eq rfl rfl rfl rfl rfl
  | checkpoint =>
    simp only [SyncedWal.step] at run
    split at run
    · cases run; exact .checkpoint s
    · cases run

/-- Without three failures of `fsync` in a row, a record is counted as flushed when it is in a synced log, also when a page
is evicted. -/
theorem counted_synced (started : s.Started) (reach : Reaches step (fun _ _ => True) s s') (reliable : s'.Reliable) :
    (∀ i, i < s'.wal.unflushedRecordIndex → i ∈ s'.synced) ∧ (∀ e ∈ s'.evictions, ∀ i, i < e.unflushed → i ∈ e.synced) ∧
      (Reaches step LsnsInOrder s s' → ∀ e ∈ s'.evictions, ∀ i ∈ e.effects, i ∈ e.synced) := by
  have covered : s'.Covered := by
    refine reach.invariant_within (W := Reliable) reliable (fun _ => ⟨started.counted, ?_⟩) ?_ ?_
    · rw [started.nothingWritten]
      exact nofun
    · intro t op t' _ run reliable
      have kept := SyncKept.step run
      exact reliable.before kept.fsync kept.fsyncs
    · intro t op t' covered reliable _ run
      exact (SyncKept.step run).covered reliable covered
  refine ⟨covered.counted, covered.evicted, fun inOrder e member i applied => ?_⟩
  have ordered : s'.Ordered := inOrder.invariant started.ordered fun t op t' ordered inOrder run => ordered.step inOrder run
  exact covered.evicted e member i (ordered.evicted e member i applied)

/-- A pool of one slot: the page of a transaction is evicted behind its commit. -/
def stolen (fsync : Nat → Bool) : SyncedWal := ((((fresh 1 (fun _ => 0) fsync).begin.set 0 4096 1 [1]).commit 0).retain 2 false).2

theorem stolen_reached (fsync : Nat → Bool) : Reaches step LsnsInOrder (fresh 1 (fun _ => 0) fsync) (stolen fsync) := by
  let start := fresh 1 (fun _ => 0) fsync
  have first : start.LsnsInOrder .begin := trivial
  have begun : Reaches step LsnsInOrder start start.begin := Reaches.init.call .begin rfl first
  have due : start.begin.Due 1 := by
    intro f oldest
    cases oldest
    exact Nat.zero_le 1
  have written : Reaches step LsnsInOrder start (start.begin.set 0 4096 1 [1]) := begun.call (.set 0 4096 1 [1]) rfl due
  exact (written.call (.commit 0) rfl trivial).call (.getPage 2 false) rfl trivial

theorem counted_synced_third_attempt : (stolen fun i => i == 2).wal.unflushedRecordIndex = 3 ∧
    (stolen fun i => i == 2).evictions.map Eviction.effects = [[1]] ∧
    (∀ i, i < (stolen fun i => i == 2).wal.unflushedRecordIndex → i ∈ (stolen fun i => i == 2).synced) ∧
      (∀ e ∈ (stolen fun i => i == 2).evictions, ∀ i ∈ e.effects, i ∈ e.synced) := by
  have reliable : (stolen fun i => i == 2).Reliable := by
    intro k within
    have count : (stolen fun i => i == 2).fsyncs = 3 := by decide
    obtain rfl : k = 0 := by omega
    exact Or.inr (Or.inr rfl)
  have inOrder := stolen_reached fun i => i == 2
  have kept := counted_synced (fresh_started 1 (fun _ => 0) fun i => i == 2) (inOrder.mono fun _ _ _ => trivial) reliable
  exact ⟨by decide, by decide, kept.1, kept.2.2 inOrder⟩

/-- The commit throws, but its records are counted, and the eviction does not flush the log again. -/
theorem counted_unsynced_stolen : Reaches step (fun _ _ => True) (fresh 1 (fun _ => 0) fun _ => false) (stolen fun _ => false) ∧
    (stolen fun _ => false).wal.unflushedRecordIndex = 3 ∧ (stolen fun _ => false).synced = [] ∧
      (stolen fun _ => false).evictions = [{ effects := [1], unflushed := 3, synced := [] }] :=
  ⟨(stolen_reached _).mono fun _ _ _ => trivial, by decide⟩

end SyncedWal

end DiskMap
