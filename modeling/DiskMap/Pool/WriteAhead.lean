import DiskMap.Pool.PagedWal
import DiskMap.Wal.LogFile

namespace DiskMap
open ByteMemory GuardedRun

/-- The image was logged when it was written: the log file held every record from `logStart` on
that `flush` had written, and the records in the image are among these. -/
structure EvictedImage.Logged (logStart : Nat) (image : EvictedImage) : Prop where
  effects : ∀ r ∈ image.effects, r ∈ image.flushed
  log : image.log = encodeAll (image.flushed.drop logStart)

namespace PagedWal

/-- A WAL that has just been constructed, on a new log or after a recovery and its checkpoint:
the records it has are in the order of their LSNs, the log file holds those from `logStart` up to
the first unflushed one, and no page in the pool is dirty. -/
structure Opened (logStart : Nat) (s : PagedWal) : Prop where
  sorted : s.wal.records.Pairwise fun r r' => r.lsn < r'.lsn
  below : ∀ r ∈ s.wal.records, r.lsn < s.wal.nextLsn
  counted : s.wal.nextLsn = s.lsnsTaken
  logHolds : s.wal.LogHolds logStart
  inUse : s.pool.InUse
  clean : ∀ slot, (s.pool.metadata slot).dirty = false
  effects : ∀ slot, ∀ r ∈ s.effects slot, r ∈ s.wal.records
  fileEffects : ∀ page, ∀ r ∈ s.fileEffects page, r ∈ s.wal.records
  nothingWritten : s.evictedImages = []

/-- `page_lsn` bounds the LSNs of the records in a dirty page, and these are in the list. -/
structure WriteAhead (logStart : Nat) (s : PagedWal) : Prop where
  sorted : s.wal.records.Pairwise fun r r' => r.lsn < r'.lsn
  below : ∀ r ∈ s.wal.records, r.lsn < s.wal.nextLsn
  counted : s.wal.nextLsn = s.lsnsTaken
  logHolds : s.wal.LogHolds logStart
  inUse : s.pool.InUse
  bounded : ∀ slot, (s.pool.metadata slot).dirty = true → ∀ r ∈ s.effects slot, r.lsn ≤ (s.pool.metadata slot).pageLsn
  effects : ∀ slot, ∀ r ∈ s.effects slot, r ∈ s.wal.records
  fileEffects : ∀ page, ∀ r ∈ s.fileEffects page, r ∈ s.wal.records
  written : ∀ image ∈ s.evictedImages, image.Logged logStart

end PagedWal

/-- `flush_up_to` looks at the first unflushed record only, which is the oldest one. -/
theorem WAL.flushUpTo_covers {w : WAL} (sorted : w.records.Pairwise fun r r' => r.lsn < r'.lsn) {lsn : Nat}
    {r : InMemoryWALRecord} (member : r ∈ w.records) (within : r.lsn ≤ lsn) :
    r ∈ (w.flushUpTo lsn).records.take (w.flushUpTo lsn).unflushedRecordIndex := by
  have all : r ∈ w.flush.records.take w.flush.unflushedRecordIndex := by
    change r ∈ w.records.take w.records.length
    rw [List.take_length]
    exact member
  unfold WAL.flushUpTo
  cases oldest : w.records[w.unflushedRecordIndex]? with
  | none =>
    have past : w.records.length ≤ w.unflushedRecordIndex := List.getElem?_eq_none_iff.mp oldest
    change r ∈ w.records.take w.unflushedRecordIndex
    rw [List.take_of_length_le past]
    exact member
  | some first =>
    by_cases due : first.lsn ≤ lsn
    · simp only [due, if_true]
      exact all
    · simp only [due, if_false]
      obtain ⟨inside, found⟩ := List.getElem?_eq_some_iff.mp oldest
      obtain ⟨i, bound, at_i⟩ := List.getElem_of_mem member
      have earlier : i < w.unflushedRecordIndex := by
        by_contra later
        rcases Nat.eq_or_lt_of_le (Nat.not_lt.mp later) with same | after
        · subst same
          exact due (by rw [← found, at_i]; exact within)
        · have order := List.pairwise_iff_getElem.mp sorted _ _ inside bound after
          rw [found, at_i] at order
          omega
      rw [← at_i]
      exact List.mem_take_iff_getElem.mpr ⟨i, by omega, rfl⟩

namespace PagedWal

variable {logStart : Nat} {s s' : PagedWal}

theorem Opened.writeAhead (opened : s.Opened logStart) : s.WriteAhead logStart where
  sorted := opened.sorted
  below := opened.below
  counted := opened.counted
  logHolds := opened.logHolds
  inUse := opened.inUse
  bounded := fun slot dirty => by simp [opened.clean slot] at dirty
  effects := opened.effects
  fileEffects := opened.fileEffects
  written := by simp [opened.nothingWritten]

/-- No record is created, and none gets lost. -/
structure SameRecords (s s' : PagedWal) : Prop where
  records : s'.wal.records = s.wal.records
  nextLsn : s'.wal.nextLsn = s.wal.nextLsn
  lsnsTaken : s'.lsnsTaken = s.lsnsTaken

theorem SameRecords.refl (s : PagedWal) : s.SameRecords s := ⟨rfl, rfl, rfl⟩

theorem SameRecords.trans {s'' : PagedWal} (first : s.SameRecords s') (second : s'.SameRecords s'') : s.SameRecords s'' :=
  ⟨second.records.trans first.records, second.nextLsn.trans first.nextLsn, second.lsnsTaken.trans first.lsnsTaken⟩

theorem WriteAhead.takeLsn (ahead : s.WriteAhead logStart) (left : s.lsnsTaken + 1 < 2 ^ 32) :
    s.takeLsn.WriteAhead logStart := by
  have next : s.takeLsn.wal.nextLsn = s.wal.nextLsn + 1 := by
    change (s.wal.nextLsn + 1) % 2 ^ 32 = _
    rw [ahead.counted]
    exact Nat.mod_eq_of_lt left
  refine { ahead with below := fun r member => ?_, counted := ?_, logHolds := ahead.logHolds.takeLsn }
  · rw [next]
    exact Nat.lt_succ_of_lt (ahead.below r member)
  · rw [next, ahead.counted]
    rfl

theorem takeLsn_nextLsn (ahead : s.WriteAhead logStart) (left : s.lsnsTaken + 1 < 2 ^ 32) :
    s.wal.nextLsn < s.takeLsn.wal.nextLsn := by
  change s.wal.nextLsn < (s.wal.nextLsn + 1) % 2 ^ 32
  rw [ahead.counted, Nat.mod_eq_of_lt left]
  exact Nat.lt_succ_self _

theorem WriteAhead.push (ahead : s.WriteAhead logStart) {r : InMemoryWALRecord}
    (newest : ∀ x ∈ s.wal.records, x.lsn < r.lsn) (below : r.lsn < s.wal.nextLsn) : (s.push r).WriteAhead logStart := by
  have grows : ∀ x ∈ s.wal.records, x ∈ (s.push r).wal.records := fun x member => List.mem_append_left _ member
  refine { ahead with
    sorted := ?_
    below := fun x member => ?_
    logHolds := ahead.logHolds.push r
    effects := fun slot x member => grows x (ahead.effects slot x member)
    fileEffects := fun page x member => grows x (ahead.fileEffects page x member) }
  · change (s.wal.records ++ [r]).Pairwise _
    rw [List.pairwise_append]
    refine ⟨ahead.sorted, List.pairwise_singleton _ _, fun x member y last => ?_⟩
    rw [List.mem_singleton.mp last]
    exact newest x member
  · rcases List.mem_append.mp member with old | new
    · exact ahead.below x old
    · rw [List.mem_singleton.mp new]
      exact below

/-- The slot still shows the effects of the page that was in it, but it is no longer dirty. -/
theorem WriteAhead.reserve (ahead : s.WriteAhead logStart) {r : Retained} {pool : BufferPool}
    (reserved : BufferPool.Reserved s.pool r pool) : WriteAhead logStart { s with pool } := by
  refine { ahead with inUse := reserved.inUse, bounded := fun slot dirty x member => ?_ }
  change (pool.metadata slot).dirty = true at dirty
  change x.lsn ≤ (pool.metadata slot).pageLsn
  by_cases same : slot = r.poolIndex
  · subst same
    cases read : r.needsRead with
    | true =>
      rw [reserved.fresh read] at dirty
      cases dirty
    | false =>
      obtain ⟨keptDirty, keptLsn⟩ := reserved.kept read
      rw [keptDirty] at dirty
      rw [keptLsn]
      exact ahead.bounded _ dirty x member
  · rw [reserved.others slot same] at dirty ⊢
    exact ahead.bounded slot dirty x member

/-- The log goes first: by `flushUpTo_covers` it gets every record in the page. -/
theorem WriteAhead.writeBack (ahead : s.WriteAhead logStart) {w : WriteBack}
    (latest : ∀ r ∈ s.effects w.poolIndex, r.lsn ≤ w.pageLsn) : (s.writeBack w).WriteAhead logStart := by
  have same := s.wal.flushUpTo_sameButFile w.pageLsn
  have holds := same.logHolds logStart ahead.logHolds
  have kept : (s.writeBack w).wal.records = s.wal.records := same.records
  refine
    { sorted := ?_
      below := ?_
      counted := same.nextLsn.trans ahead.counted
      logHolds := holds
      inUse := ahead.inUse
      bounded := ahead.bounded
      effects := ?_
      fileEffects := ?_
      written := ?_ }
  · rw [kept]
    exact ahead.sorted
  · rw [kept]
    exact fun r member => (ahead.below r member).trans_eq same.nextLsn.symm
  · rw [kept]
    exact ahead.effects
  · rw [kept]
    intro page r member
    change r ∈ Function.update s.fileEffects w.fileIndex (s.effects w.poolIndex) page at member
    by_cases written : page = w.fileIndex
    · subst written
      rw [Function.update_self] at member
      exact ahead.effects _ r member
    · rw [Function.update_of_ne written] at member
      exact ahead.fileEffects page r member
  · intro image member
    rcases List.mem_cons.mp member with rfl | before
    · exact ⟨fun r inside => WAL.flushUpTo_covers ahead.sorted (ahead.effects _ r inside) (latest r inside), holds.content⟩
    · exact ahead.written image before

theorem WriteAhead.readPage (ahead : s.WriteAhead logStart) {poolIndex : Nat}
    (clean : (s.pool.metadata poolIndex).dirty = false) (fileIndex : Nat) :
    (s.readPage poolIndex fileIndex).WriteAhead logStart := by
  refine { ahead with
    inUse := ⟨ahead.inUse.mapped, ahead.inUse.evictable, ahead.inUse.unused⟩
    bounded := fun slot dirty r member => ?_
    effects := fun slot r member => ?_ }
  · change (s.pool.metadata slot).dirty = true at dirty
    change r ∈ Function.update s.effects poolIndex (s.fileEffects fileIndex) slot at member
    have other : slot ≠ poolIndex := by
      rintro rfl
      rw [clean] at dirty
      cases dirty
    rw [Function.update_of_ne other] at member
    exact ahead.bounded slot dirty r member
  · change r ∈ Function.update s.effects poolIndex (s.fileEffects fileIndex) slot at member
    by_cases same : slot = poolIndex
    · subst same
      rw [Function.update_self] at member
      exact ahead.fileEffects fileIndex r member
    · rw [Function.update_of_ne same] at member
      exact ahead.effects slot r member

theorem finishRetain_sameRecords (s : PagedWal) (r : Retained) (fileIndex : Nat) :
    s.SameRecords (s.finishRetain r fileIndex) ∧ (s.finishRetain r fileIndex).pool.nextPoolIndex = s.pool.nextPoolIndex := by
  have read : ∀ t : PagedWal, (t.readPage r.poolIndex fileIndex).pool.nextPoolIndex = t.pool.nextPoolIndex ∧
      t.SameRecords (t.readPage r.poolIndex fileIndex) := fun t => ⟨rfl, rfl, rfl, rfl⟩
  have write : ∀ w, s.SameRecords (s.writeBack w) := fun w =>
    have same := s.wal.flushUpTo_sameButFile w.pageLsn
    ⟨same.records, same.nextLsn, rfl⟩
  unfold finishRetain
  cases r.writeBack with
  | none =>
    cases r.needsRead with
    | false => exact ⟨.refl s, rfl⟩
    | true => exact ⟨(read s).2, (read s).1⟩
  | some w =>
    cases r.needsRead with
    | false => exact ⟨write w, rfl⟩
    | true => exact ⟨(write w).trans (read _).2, (read _).1⟩

theorem retain_sameRecords (s : PagedWal) (fileIndex : Nat) (adviseEviction : Bool) :
    s.SameRecords (s.retain fileIndex adviseEviction).2 := by
  unfold PagedWal.retain
  split
  · exact .refl s
  · rename_i r pool _
    have same := (finishRetain_sameRecords { s with pool } r fileIndex).1
    exact ⟨same.records, same.nextLsn, same.lsnsTaken⟩

theorem WriteAhead.retain (ahead : s.WriteAhead logStart) (fileIndex : Nat) (adviseEviction : Bool) :
    (s.retain fileIndex adviseEviction).2.WriteAhead logStart := by
  unfold PagedWal.retain
  split
  · exact ahead
  · rename_i r pool found
    have reserved := BufferPool.reserve_reserved ahead.inUse found
    have begun := ahead.reserve reserved
    have finish : ∀ w : PagedWal, w.WriteAhead logStart → w.pool = pool →
        WriteAhead logStart (if r.needsRead then w.readPage r.poolIndex fileIndex else w) := by
      intro w written same
      split
      · rename_i read
        exact written.readPage (same ▸ reserved.fresh read) fileIndex
      · exact written
    change WriteAhead logStart (finishRetain { s with pool } r fileIndex)
    unfold finishRetain
    cases out : r.writeBack with
    | none => exact finish _ begun rfl
    | some w =>
      obtain ⟨_, dirty, latest⟩ := reserved.written w out
      exact finish _ (begun.writeBack fun x member => latest ▸ ahead.bounded w.poolIndex dirty x member) rfl

theorem retain_slot (ahead : s.WriteAhead logStart) {fileIndex poolIndex : Nat} {adviseEviction : Bool}
    (retained : s.retain fileIndex adviseEviction = (some poolIndex, s')) : poolIndex < s'.pool.nextPoolIndex := by
  unfold PagedWal.retain at retained
  split at retained
  · cases retained
  · rename_i r pool found
    cases retained
    rw [(finishRetain_sameRecords _ r fileIndex).2]
    exact (BufferPool.reserve_reserved ahead.inUse found).slot

theorem WriteAhead.release (ahead : s.WriteAhead logStart) (poolIndex : Nat) :
    (s.release poolIndex).WriteAhead logStart := by
  unfold PagedWal.release
  split
  · rename_i pool released
    obtain ⟨inUse, same⟩ := ahead.inUse.release released
    refine { ahead with inUse, bounded := fun slot dirty r member => ?_ }
    change (pool.metadata slot).dirty = true at dirty
    change r.lsn ≤ (pool.metadata slot).pageLsn
    rw [(same slot).1] at dirty
    rw [(same slot).2]
    exact ahead.bounded slot dirty r member
  · exact ahead

theorem release_sameRecords (s : PagedWal) (poolIndex : Nat) : s.SameRecords (s.release poolIndex) := by
  unfold PagedWal.release
  split <;> exact ⟨rfl, rfl, rfl⟩

/-- The record is the newest one of the list, so that `modified_by` raises `page_lsn` to it. -/
theorem WriteAhead.modify (ahead : s.WriteAhead logStart) {poolIndex : Nat} (within : poolIndex < s.pool.nextPoolIndex)
    {r : InMemoryWALRecord} (member : r ∈ s.wal.records) (newest : ∀ x ∈ s.wal.records, x.lsn ≤ r.lsn)
    (offset length : Nat) (bytes : List UInt8) : (s.modify poolIndex r offset length bytes).WriteAhead logStart := by
  have mine : ∀ slot, ∀ x ∈ Function.update s.effects poolIndex (s.effects poolIndex ++ [r]) slot, x ∈ s.wal.records := by
    intro slot x inside
    by_cases same : slot = poolIndex
    · subst same
      rw [Function.update_self] at inside
      rcases List.mem_append.mp inside with old | new
      · exact ahead.effects slot x old
      · rw [List.mem_singleton.mp new]
        exact member
    · rw [Function.update_of_ne same] at inside
      exact ahead.effects slot x inside
  refine { ahead with inUse := ?_, bounded := fun slot dirty x inside => ?_, effects := mine }
  · let page := overwrite (s.pool.pages poolIndex) offset length bytes
    have pages : BufferPool.InUse { s.pool with pages := Function.update s.pool.pages poolIndex page } :=
      ⟨ahead.inUse.mapped, ahead.inUse.evictable, ahead.inUse.unused⟩
    exact pages.update within _
  · have known : x ∈ s.wal.records := mine slot x inside
    by_cases same : slot = poolIndex
    · subst same
      have raised : ((s.modify slot r offset length bytes).pool.metadata slot).pageLsn =
          max r.lsn (s.pool.metadata slot).pageLsn := congrArg PageMetadata.pageLsn BufferPool.update_same
      rw [raised]
      exact (newest x known).trans (le_max_left _ _)
    · have kept : (s.modify poolIndex r offset length bytes).pool.metadata slot = s.pool.metadata slot :=
        BufferPool.update_other same
      rw [kept] at dirty ⊢
      change x ∈ Function.update s.effects poolIndex (s.effects poolIndex ++ [r]) slot at inside
      rw [Function.update_of_ne same] at inside
      exact ahead.bounded slot dirty x inside

/-- Records are created, and none of them gets lost; the invariant lasts while LSNs do. -/
structure Keeps (logStart : Nat) (s s' : PagedWal) : Prop where
  spent : s.lsnsTaken ≤ s'.lsnsTaken
  ahead : s'.lsnsTaken < 2 ^ 32 → s.WriteAhead logStart → s'.WriteAhead logStart

theorem Keeps.refl (s : PagedWal) : Keeps logStart s s := ⟨le_rfl, fun _ ahead => ahead⟩

theorem Keeps.trans {s'' : PagedWal} (first : Keeps logStart s s') (second : Keeps logStart s' s'') :
    Keeps logStart s s'' :=
  ⟨first.spent.trans second.spent,
    fun within ahead => second.ahead within (first.ahead (second.spent.trans_lt within) ahead)⟩

/-- The counters of the transactions, and how much of the log is in the file. -/
theorem Keeps.counters {wal : WAL} (same : wal.records = s.wal.records) (nextLsn : wal.nextLsn = s.wal.nextLsn)
    (file : ∀ start, s.wal.LogHolds start → wal.LogHolds start) : Keeps logStart s { s with wal } := by
  refine ⟨le_rfl, fun _ ahead => ?_⟩
  have below : ∀ r ∈ wal.records, r.lsn < wal.nextLsn := by
    rw [same, nextLsn]
    exact ahead.below
  exact { ahead with
    sorted := same ▸ ahead.sorted
    below := below
    counted := nextLsn.trans ahead.counted
    logHolds := file logStart ahead.logHolds
    effects := same ▸ ahead.effects
    fileEffects := same ▸ ahead.fileEffects }

theorem Keeps.create (s : PagedWal) {r : InMemoryWALRecord} (lsn : r.lsn = s.wal.nextLsn) :
    Keeps logStart s (s.takeLsn.push r) := by
  refine ⟨Nat.le_succ _, fun within ahead => (ahead.takeLsn within).push (fun x member => ?_) ?_⟩
  · rw [lsn]
    exact ahead.below x member
  · rw [lsn]
    exact takeLsn_nextLsn ahead within

theorem Keeps.pushMark (s : PagedWal) (txnId : Nat) (body : RecordBody) :
    Keeps logStart s (s.pushMark txnId body) :=
  .create s rfl

theorem Keeps.activeTransactions (s : PagedWal) (count : Int) :
    Keeps logStart s { s with wal := { s.wal with activeTransactions := count } } :=
  .counters rfl rfl fun _ holds => ⟨holds.position, holds.lower, holds.upper, holds.content⟩

theorem Keeps.begin (s : PagedWal) : Keeps logStart s s.begin := by
  unfold PagedWal.begin
  split
  · exact .refl s
  · refine Keeps.trans ?_ (.pushMark _ _ _)
    exact .counters rfl rfl fun _ holds => ⟨holds.position, holds.lower, holds.upper, holds.content⟩

theorem Keeps.commit (s : PagedWal) (txnId : Nat) : Keeps logStart s (s.commit txnId) := by
  have flushed : Keeps logStart (s.pushMark txnId .commit)
      { s.pushMark txnId .commit with wal := (s.pushMark txnId .commit).wal.flush } :=
    .counters rfl rfl fun _ holds => holds.flush
  exact ((Keeps.pushMark s txnId .commit).trans flushed).trans (.activeTransactions _ _)

theorem Keeps.retain (s : PagedWal) (fileIndex : Nat) (adviseEviction : Bool) :
    Keeps logStart s (s.retain fileIndex adviseEviction).2 :=
  ⟨(retain_sameRecords s fileIndex adviseEviction).lsnsTaken.ge, fun _ ahead => ahead.retain fileIndex adviseEviction⟩

theorem Keeps.release (s : PagedWal) (poolIndex : Nat) : Keeps logStart s (s.release poolIndex) :=
  ⟨(release_sameRecords s poolIndex).lsnsTaken.ge, fun _ ahead => ahead.release poolIndex⟩

theorem applyRecord_sameRecords (s : PagedWal) (r : InMemoryWALRecord) : s.SameRecords (s.applyRecord r).2 := by
  unfold PagedWal.applyRecord
  split
  · exact .refl s
  · rename_i loc length bytes _
    have retained := s.retain_sameRecords (loc / pageSize) false
    split
    · rename_i result
      rw [result] at retained
      exact retained
    · rename_i poolIndex t result
      rw [result] at retained
      have modified : t.SameRecords (t.modify poolIndex r (loc % pageSize) length bytes) := ⟨rfl, rfl, rfl⟩
      exact (retained.trans modified).trans (release_sameRecords _ poolIndex)

/-- A record is applied behind its `push_back`. -/
theorem WriteAhead.applyRecord (ahead : s.WriteAhead logStart) {r : InMemoryWALRecord} (member : r ∈ s.wal.records)
    (newest : ∀ x ∈ s.wal.records, x.lsn ≤ r.lsn) : (s.applyRecord r).2.WriteAhead logStart := by
  unfold PagedWal.applyRecord
  split
  · exact ahead
  · rename_i loc length bytes _
    have retained := s.retain_sameRecords (loc / pageSize) false
    have kept := ahead.retain (loc / pageSize) false
    split
    · rename_i result
      rw [result] at kept
      exact kept
    · rename_i poolIndex t result
      rw [result] at kept retained
      have within := retain_slot ahead result
      rw [← retained.records] at member newest
      exact (kept.modify within member newest _ _ _).release poolIndex

/-- A record is applied before its `push_back`: nothing looks at the list in between. -/
theorem WriteAhead.modify_push (ahead : s.WriteAhead logStart) {poolIndex : Nat} (within : poolIndex < s.pool.nextPoolIndex)
    {r : InMemoryWALRecord} (newest : ∀ x ∈ s.wal.records, x.lsn < r.lsn) (below : r.lsn < s.wal.nextLsn)
    (offset length : Nat) (bytes : List UInt8) :
    (((s.modify poolIndex r offset length bytes).release poolIndex).push r).WriteAhead logStart := by
  have commute : ((s.modify poolIndex r offset length bytes).release poolIndex).push r =
      ((s.push r).modify poolIndex r offset length bytes).release poolIndex := by
    have same : ((s.push r).modify poolIndex r offset length bytes).pool = (s.modify poolIndex r offset length bytes).pool := rfl
    rw [PagedWal.release, PagedWal.release, same]
    cases (s.modify poolIndex r offset length bytes).pool.release poolIndex <;> rfl
  rw [commute]
  refine ((ahead.push newest below).modify within (List.mem_append_right _ (List.mem_singleton_self r)) ?_ _ _ _).release _
  intro x member
  rcases List.mem_append.mp member with old | new
  · exact (newest x old).le
  · rw [List.mem_singleton.mp new]

theorem Keeps.createAndApply (s : PagedWal) {r : InMemoryWALRecord} (lsn : r.lsn = s.wal.nextLsn) :
    Keeps logStart s ((s.takeLsn.push r).applyRecord r).2 := by
  have same := applyRecord_sameRecords (s.takeLsn.push r) r
  have created : Keeps logStart s (s.takeLsn.push r) := .create s lsn
  refine ⟨created.spent.trans same.lsnsTaken.ge, fun within ahead => ?_⟩
  rw [same.lsnsTaken] at within
  refine (created.ahead within ahead).applyRecord (List.mem_append_right _ (List.mem_singleton_self r)) fun x member => ?_
  rcases List.mem_append.mp member with old | new
  · rw [lsn]
    exact (ahead.below x old).le
  · rw [List.mem_singleton.mp new]

theorem WriteAhead.applyRecord_push (ahead : s.WriteAhead logStart) {r : InMemoryWALRecord}
    (newest : ∀ x ∈ s.wal.records, x.lsn < r.lsn) (below : r.lsn < s.wal.nextLsn) :
    ((s.applyRecord r).2.push r).WriteAhead logStart := by
  unfold PagedWal.applyRecord
  split
  · exact ahead.push newest below
  · rename_i loc length bytes _
    have retained := s.retain_sameRecords (loc / pageSize) false
    have kept := ahead.retain (loc / pageSize) false
    split
    · rename_i t result
      rw [result] at kept retained
      rw [← retained.records] at newest
      rw [← retained.nextLsn] at below
      exact kept.push newest below
    · rename_i poolIndex t result
      rw [result] at kept retained
      rw [← retained.records] at newest
      rw [← retained.nextLsn] at below
      exact kept.modify_push (retain_slot ahead result) newest below _ _ _

theorem Keeps.takeLsn (s : PagedWal) : Keeps logStart s s.takeLsn :=
  ⟨Nat.le_succ _, fun within ahead => ahead.takeLsn within⟩

/-- `set` takes the LSN first, and its record goes into the list last. -/
theorem Keeps.applyAndPush {t u : PagedWal} (same : s.takeLsn.SameRecords t) (kept : Keeps logStart s.takeLsn t)
    {r : InMemoryWALRecord} {done : Bool} (applied : t.applyRecord r = (done, u)) (lsn : r.lsn = s.wal.nextLsn) :
    Keeps logStart s (u.push r) := by
  have spent : u.lsnsTaken = s.lsnsTaken + 1 := by
    have unchanged := applyRecord_sameRecords t r
    rw [applied] at unchanged
    exact unchanged.lsnsTaken.trans same.lsnsTaken
  refine ⟨spent ▸ Nat.le_succ _, fun within ahead => ?_⟩
  have left : s.lsnsTaken + 1 < 2 ^ 32 := spent ▸ within
  have ready : t.WriteAhead logStart := kept.ahead (same.lsnsTaken.trans_lt left) (ahead.takeLsn left)
  have pushed : ((t.applyRecord r).2.push r).WriteAhead logStart := by
    refine ready.applyRecord_push (fun x member => ?_) ?_
    · rw [same.records] at member
      rw [lsn]
      exact ahead.below x member
    · rw [lsn, same.nextLsn]
      exact takeLsn_nextLsn ahead left
  rw [applied] at pushed
  exact pushed

/-- The page has not been read: `get_page` has thrown, and no record was applied. -/
theorem Keeps.applyRecord_failed {t : PagedWal} {r : InMemoryWALRecord} (failed : s.applyRecord r = (false, t)) :
    Keeps logStart s t := by
  unfold PagedWal.applyRecord at failed
  split at failed
  · cases failed
  · rename_i loc length bytes _
    split at failed
    · rename_i result
      cases failed
      have kept : Keeps logStart s (s.retain (loc / pageSize) false).2 := .retain s _ false
      rw [result] at kept
      exact kept
    · cases failed

theorem Keeps.set (s : PagedWal) (txnId loc writeLength : Nat) (data : List UInt8) :
    Keeps logStart s (s.set txnId loc writeLength data) := by
  have same := s.takeLsn.retain_sameRecords (loc / pageSize) false
  have kept : Keeps logStart s.takeLsn (s.takeLsn.retain (loc / pageSize) false).2 := .retain _ _ _
  simp only [PagedWal.set]
  split
  · rename_i t result
    rw [result] at kept
    exact (Keeps.takeLsn s).trans kept
  · rename_i poolIndex t result
    rw [result] at same kept
    split
    · rename_i u failed
      exact (((Keeps.takeLsn s).trans kept).trans (.applyRecord_failed failed)).trans (.release u poolIndex)
    · rename_i u applied
      exact (Keeps.applyAndPush same kept applied rfl).trans (.release _ poolIndex)

theorem createCompensationRecord_lsn {w w' : WAL} {r clr : InMemoryWALRecord}
    (created : Database.createCompensationRecord w r = .ok (clr, w')) : clr.lsn = w.nextLsn := by
  unfold Database.createCompensationRecord at created
  split at created
  · cases created
    rfl
  · cases created

theorem Keeps.writeClrs (s : PagedWal) (undo : List InMemoryWALRecord) : Keeps logStart s (s.writeClrs undo).2 := by
  induction undo generalizing s with
  | nil => exact .refl s
  | cons r rest ih =>
    unfold PagedWal.writeClrs
    split
    · exact .refl s
    · rename_i clr w created
      have applied : Keeps logStart s ((s.takeLsn.push clr).applyRecord clr).2 :=
        .createAndApply s (createCompensationRecord_lsn created)
      split
      · rename_i result
        rw [result] at applied
        exact applied
      · rename_i t result
        rw [result] at applied
        exact applied.trans (ih t)

theorem Keeps.abort (s : PagedWal) (txnId : Nat) : Keeps logStart s (s.abort txnId) := by
  have marked : Keeps logStart s (s.pushMark txnId .abortBegin) := .pushMark s txnId .abortBegin
  have undone : Keeps logStart _ _ := Keeps.writeClrs (s.pushMark txnId .abortBegin) (Database.toUndo txnId
    ((s.pushMark txnId .abortBegin).wal.records.drop (Database.undoStart (s.pushMark txnId .abortBegin).wal.records txnId)))
  simp only [PagedWal.abort]
  split
  · rename_i result
    rw [result] at undone
    exact marked.trans undone
  · rename_i t result
    rw [result] at undone
    exact ((marked.trans undone).trans (.pushMark _ txnId .abortEnd)).trans (.activeTransactions _ _)

theorem Keeps.step {op : PagedOp} (run : s.step op = some s') : Keeps logStart s s' := by
  cases op with
  | begin => cases run; exact .begin s
  | set txnId loc writeLength data => cases run; exact .set s txnId loc writeLength data
  | commit txnId => cases run; exact .commit s txnId
  | abort txnId => cases run; exact .abort s txnId
  | getPage fileIndex adviseEviction => cases run; exact .retain s fileIndex adviseEviction
  | dropHandle poolIndex => cases run; exact .release s poolIndex

theorem Opened.reaches (opened : s.Opened logStart) (reach : Reaches step (fun _ _ => True) s s')
    (left : s'.lsnsTaken < 2 ^ 32) : s'.WriteAhead logStart :=
  reach.invariant_within (W := fun s => s.lsnsTaken < 2 ^ 32) left (fun _ => opened.writeAhead)
    (fun _ _ _ _ run within => lt_of_le_of_lt (show Keeps logStart _ _ from .step run).spent within)
    fun _ _ _ ahead within _ run => (Keeps.step run).ahead within ahead

/-- The log is written ahead of the data file, in any session that creates less than 2^32 records. -/
theorem evicted_images_logged (opened : s.Opened logStart) (reach : Reaches step (fun _ _ => True) s s')
    (left : s'.lsnsTaken < 2 ^ 32) : ∀ image ∈ s'.evictedImages, image.Logged logStart :=
  (opened.reaches reach left).written

theorem fresh_opened (poolSize : Nat) (file : Mem) : (fresh poolSize file).Opened 0 where
  sorted := .nil
  below := by simp [fresh]
  counted := rfl
  logHolds := ⟨rfl, le_rfl, le_rfl, rfl⟩
  inUse := ⟨by simp [fresh], by simp [fresh, DualPriorityReplacer.Has], fun _ _ => rfl⟩
  clean := fun _ => rfl
  effects := by simp [fresh]
  fileEffects := by simp [fresh]
  nothingWritten := rfl

/-- The page of an unfinished transaction is stolen from a pool of one slot. -/
def stolenPage : PagedWal :=
  (run step (fun _ _ => True) (fresh 1 fun _ => 0) [.begin, .set 0 0 1 [1], .getPage 1 false]).getD (fresh 1 fun _ => 0)

theorem evicted_images_logged_stolen : stolenPage.evictedImages.map (fun image => image.effects.map InMemoryWALRecord.lsn) = [[1]] ∧
    ∀ image ∈ stolenPage.evictedImages, image.Logged 0 :=
  ⟨by decide, evicted_images_logged (fresh_opened 1 fun _ => 0) (.of_isSome (by decide)) (by decide)⟩

end PagedWal

end DiskMap
