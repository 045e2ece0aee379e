import DiskMap.Wal.SessionInvariant

namespace DiskMap
open ByteMemory Database

/-- The counters after the first pass of `recover`: they have passed every LSN and every
transaction id that was read. -/
structure CountersPassed (records : List InMemoryWALRecord) (w w' : WAL) : Prop where
  lower : w.nextLsn ≤ w'.nextLsn
  passed : ∀ r ∈ records, r.lsn < w'.nextLsn
  bounded : ∀ bound, w.nextLsn ≤ bound → (∀ r ∈ records, r.lsn + 1 ≤ bound) → w'.nextLsn ≤ bound
  txnIds : w.nextTxnId ≤ w.nextLsn → (∀ r ∈ records, r.txnId ≤ r.lsn) → w'.nextTxnId ≤ w'.nextLsn

theorem CountersPassed.trans {front back : List InMemoryWALRecord} {w w' w'' : WAL}
    (first : CountersPassed front w w') (second : CountersPassed back w' w'') :
    CountersPassed (front ++ back) w w'' where
  lower := first.lower.trans second.lower
  passed := by
    intro r member
    rcases List.mem_append.mp member with old | new
    · exact (first.passed r old).trans_le second.lower
    · exact second.passed r new
  bounded bound lower each :=
    second.bounded bound (first.bounded bound lower fun r member => each r (List.mem_append_left _ member))
      fun r member => each r (List.mem_append_right _ member)
  txnIds counter each :=
    second.txnIds (first.txnIds counter fun r member => each r (List.mem_append_left _ member))
      fun r member => each r (List.mem_append_right _ member)

namespace Database

theorem applyRecord_sameButFile (d : Database) (evicted : Option Nat) (r : InMemoryWALRecord) :
    d.wal.SameButFile (d.applyRecord evicted r).wal := by
  unfold applyRecord
  split
  · exact d.wal.getPage_sameButFile evicted
  · exact d.wal.getPage_sameButFile evicted
  · exact .refl _

theorem applyRecord_flushedBound (d : Database) (evicted : Option Nat) (r : InMemoryWALRecord)
    (bound : d.wal.unflushedRecordIndex ≤ d.wal.records.length) :
    (d.applyRecord evicted r).wal.unflushedRecordIndex ≤ d.wal.records.length := by
  have kept := (d.wal.getPage_extends evicted).flushedBound bound
  rw [(d.wal.getPage_sameButFile evicted).records] at kept
  unfold applyRecord
  split
  · exact kept
  · exact kept
  · exact bound

/-- One iteration of the first pass. -/
def replayOne (d : Database) (evicted : Option Nat) (r : InMemoryWALRecord) : Database :=
  let d := d.applyRecord evicted r
  { d with wal := { d.wal with
      nextLsn := max d.wal.nextLsn ((r.lsn + 1) % 2 ^ 32)
      nextTxnId := max d.wal.nextTxnId ((r.txnId + 1) % 2 ^ 32) } }

theorem replay_cons (d : Database) (r : InMemoryWALRecord) (rest : List InMemoryWALRecord)
    (evicted : Nat → Option Nat) :
    d.replay (r :: rest) evicted = (d.replayOne (evicted 0) r).replay rest fun i => evicted (i + 1) := rfl

theorem replayOne_countersPassed (d : Database) (evicted : Option Nat) {r : InMemoryWALRecord}
    (small : r.lsn + 1 < 2 ^ 32) (smallTxn : r.txnId + 1 < 2 ^ 32) :
    CountersPassed [r] d.wal (d.replayOne evicted r).wal := by
  have same := d.applyRecord_sameButFile evicted r
  have lsn : (d.replayOne evicted r).wal.nextLsn = max d.wal.nextLsn (r.lsn + 1) := by
    rw [← same.nextLsn, ← Nat.mod_eq_of_lt small]
    rfl
  have txn : (d.replayOne evicted r).wal.nextTxnId = max d.wal.nextTxnId (r.txnId + 1) := by
    rw [← same.nextTxnId, ← Nat.mod_eq_of_lt smallTxn]
    rfl
  refine ⟨?_, ?_, ?_, ?_⟩ <;> simp only [lsn, txn, List.forall_mem_singleton]
  · omega
  · omega
  · intro bound lower own
    omega
  · intro counter own
    omega

theorem replay_countersPassed (records : List InMemoryWALRecord) (d : Database) (evicted : Nat → Option Nat)
    (small : ∀ r ∈ records, r.lsn + 1 < 2 ^ 32 ∧ r.txnId + 1 < 2 ^ 32) :
    CountersPassed records d.wal (d.replay records evicted).wal := by
  induction records generalizing d evicted with
  | nil => exact ⟨le_rfl, by simp, fun _ lower _ => lower, fun counter _ => counter⟩
  | cons r rest ih =>
    obtain ⟨lsn, txn⟩ := small r List.mem_cons_self
    have first := d.replayOne_countersPassed (evicted 0) lsn txn
    exact first.trans (ih (d.replayOne (evicted 0) r) _ fun r' member => small r' (List.mem_cons_of_mem _ member))

theorem replay_keeps (records : List InMemoryWALRecord) (d : Database) (evicted : Nat → Option Nat) :
    (d.replay records evicted).wal.records = d.wal.records ∧
      (d.replay records evicted).wal.activeTransactions = d.wal.activeTransactions ∧
      (d.wal.unflushedRecordIndex ≤ d.wal.records.length →
        (d.replay records evicted).wal.unflushedRecordIndex ≤ d.wal.records.length) := by
  induction records generalizing d evicted with
  | nil => exact ⟨rfl, rfl, id⟩
  | cons r rest ih =>
    have same := d.applyRecord_sameButFile (evicted 0) r
    have sameRecords : (d.replayOne (evicted 0) r).wal.records = d.wal.records := same.records
    obtain ⟨list, active, bound⟩ := ih (d.replayOne (evicted 0) r) fun i => evicted (i + 1)
    rw [sameRecords] at list bound
    rw [replay_cons]
    exact ⟨list, active.trans same.activeTransactions, fun upper =>
      bound (d.applyRecord_flushedBound (evicted 0) r upper)⟩

/-- The ABORT_END records that `recover` appends. -/
def abortEnds : Nat → List Nat → List InMemoryWALRecord
  | _, [] => []
  | lsn, txnId :: rest => mark lsn txnId .abortEnd :: abortEnds ((lsn + 1) % 2 ^ 32) rest

theorem pushMarks_extends (txnIds : List Nat) (d : Database) :
    d.Extends (abortEnds d.wal.nextLsn txnIds) (txnIds.foldl (fun d txnId => d.pushMark txnId .abortEnd) d) := by
  induction txnIds generalizing d with
  | nil => exact ⟨.refl _, rfl⟩
  | cons txnId rest ih =>
    have first := d.pushMark_extends txnId .abortEnd rfl
    exact first.trans (ih (d.pushMark txnId .abortEnd))

theorem mem_abortEnds {lsn : Nat} {txnIds : List Nat} {r : InMemoryWALRecord} (small : lsn < 2 ^ 32)
    (member : r ∈ abortEnds lsn txnIds) : ∃ lsn' < 2 ^ 32, ∃ id ∈ txnIds, r = mark lsn' id .abortEnd := by
  induction txnIds generalizing lsn with
  | nil => simp [abortEnds] at member
  | cons txnId rest ih =>
    rcases List.mem_cons.mp member with rfl | later
    · exact ⟨lsn, small, txnId, List.mem_cons_self, rfl⟩
    · obtain ⟨lsn', bound, id, inside, shape⟩ := ih (Nat.mod_lt _ (by decide)) later
      exact ⟨lsn', bound, id, List.mem_cons_of_mem _ inside, shape⟩

theorem finishedTxns_abortEnds (lsn : Nat) (txnIds : List Nat) : finishedTxns (abortEnds lsn txnIds) = txnIds := by
  induction txnIds generalizing lsn with
  | nil => rfl
  | cons txnId rest ih =>
    have head : finishedTxns (abortEnds lsn (txnId :: rest)) =
        txnId :: finishedTxns (abortEnds ((lsn + 1) % 2 ^ 32) rest) := rfl
    rw [head, ih]

theorem abortEnds_length (lsn : Nat) (txnIds : List Nat) : (abortEnds lsn txnIds).length = txnIds.length := by
  induction txnIds generalizing lsn with
  | nil => rfl
  | cons txnId rest ih => simp [abortEnds, ih]

theorem compensations_length (lsn : Nat) (records : List InMemoryWALRecord) :
    (compensations lsn records).length = records.length := by
  induction records generalizing lsn with
  | nil => rfl
  | cons r rest ih => simp [compensations, ih]

/-- The SET records that `recover` compensates, first one first. -/
def recoverUndo (records : List InMemoryWALRecord) : List InMemoryWALRecord :=
  (unfinished records).filter isSet

def abortedTxns (records : List InMemoryWALRecord) : List Nat :=
  ((unfinished records).map InMemoryWALRecord.txnId).dedup

/-- The records in the list of a WAL that has recovered from the log `records`. -/
structure Recovered (iteration : SetIteration) (records : List InMemoryWALRecord) (pages : Mem) (d : Database) : Prop where
  shape : ∃ lsn lsn', lsn < 2 ^ 32 ∧ lsn' < 2 ^ 32 ∧
    d.wal.records = records ++ (compensations lsn (recoverUndo records).reverse ++
      abortEnds lsn' (iteration.order (abortedTxns records)))
  pages : d.pages = redo d.wal.records pages
  active : d.wal.activeTransactions = 0
  flushedBound : d.wal.unflushedRecordIndex ≤ d.wal.records.length

/-- What `recover` does once it has loaded the records. -/
def recoverLoaded (iteration : SetIteration) (records : List InMemoryWALRecord) (pages : Mem)
    (evictedRedo evictedUndo : Nat → Option Nat) : Except String Database :=
  let opened : Database := { wal := { records, logPos := (encodeAll records).length, log := encodeAll records }, pages }
  match writeClrs (opened.replay records evictedRedo) (recoverUndo records).reverse evictedUndo with
  | .error message => .error message
  | .ok d => .ok <| (iteration.order (abortedTxns records)).foldl (fun d txnId => d.pushMark txnId .abortEnd) d

theorem recover_encodeAll (iteration : SetIteration) {records : List InMemoryWALRecord} (pages : Mem)
    (valid : ∀ r ∈ records, r.Valid) (evictedRedo evictedUndo : Nat → Option Nat) :
    recover iteration { wal := { log := encodeAll records }, pages } evictedRedo evictedUndo =
      recoverLoaded iteration records pages evictedRedo evictedUndo := by
  have loaded := loadRecords_encodeAll valid []
  simp only [List.nil_append, List.length_nil] at loaded
  simp only [recover, loaded]
  rfl

/-- `recover` returns, whatever the log holds of whole records. -/
theorem recover_spec (iteration : SetIteration) {records : List InMemoryWALRecord} (pages : Mem)
    (valid : ∀ r ∈ records, r.Valid) (small : ∀ r ∈ records, r.lsn + 1 < 2 ^ 32 ∧ r.txnId + 1 < 2 ^ 32)
    (evictedRedo evictedUndo : Nat → Option Nat) :
    ∃ d w new, recover iteration { wal := { log := encodeAll records }, pages } evictedRedo evictedUndo = .ok d ∧
      Recovered iteration records pages d ∧ CountersPassed records {} w ∧ w.Extends new d.wal ∧
      d.wal.records = records ++ new := by
  let opened : Database := { wal := { records, logPos := (encodeAll records).length, log := encodeAll records }, pages }
  let first := opened.replay records evictedRedo
  obtain ⟨list, active, bound⟩ := opened.replay_keeps records evictedRedo
  have counters : CountersPassed records opened.wal first.wal := opened.replay_countersPassed records evictedRedo
    small
  have firstLsn : first.wal.nextLsn < 2 ^ 32 := by
    have upper := counters.bounded (2 ^ 32 - 1) (by simp [opened]) fun r member => by
      have own := (small r member).1
      omega
    omega
  have isSets : ∀ r ∈ (recoverUndo records).reverse, isSet r := fun r member =>
    (List.mem_filter.mp (List.mem_reverse.mp member)).2
  obtain ⟨second, run, undone⟩ := writeClrs_extends _ isSets first evictedUndo
  have marked := pushMarks_extends (iteration.order (abortedTxns records)) second
  have both := undone.trans marked
  have secondLsn := undone.wal.nextLsn_lt firstLsn
  refine ⟨_, first.wal, _, ?_, ⟨⟨_, _, firstLsn, secondLsn, ?_⟩, ?_, ?_, ?_⟩,
    ⟨counters.lower, counters.passed, counters.bounded, counters.txnIds⟩, both.wal, ?_⟩
  · rw [recover_encodeAll iteration pages valid, recoverLoaded]
    change (match writeClrs first (recoverUndo records).reverse evictedUndo with
      | .error message => (Except.error message : Except String Database)
      | .ok d => .ok <| (iteration.order (abortedTxns records)).foldl (fun d txnId => d.pushMark txnId .abortEnd) d) = _
    rw [run]
  · rw [both.wal.records, list]
  · rw [both.pages, both.wal.records, list, replay_pages, redo_append records]
  · rw [both.wal.activeTransactions, active]
  · exact both.wal.flushedBound (by rw [list]; exact bound (Nat.zero_le _))
  · rw [both.wal.records, list]

/-- What `recover` makes of each byte. -/
theorem Recovered.byte {iteration : SetIteration} {records : List InMemoryWALRecord} {pages : Mem} {d : Database}
    (result : Recovered iteration records pages d) (a : Nat) : d.pages a = (replayValue records a).getD (pages a) := by
  obtain ⟨lsn, lsn', _, small, shape⟩ := result.shape
  have quiet : lastNew (abortEnds lsn' (iteration.order (abortedTxns records))) a = none := by
    rw [lastNew_eq_none]
    intro r member
    obtain ⟨_, _, _, _, rfl⟩ := mem_abortEnds small member
    rfl
  have undone : lastNew (compensations lsn (recoverUndo records).reverse) a = firstOld (unfinished records) a := by
    rw [recoverUndo, lastNew_compensations_reverse _ _ fun r member => (List.mem_filter.mp member).2]
    exact firstOld_filter_isSet _ _
  rw [result.pages, redo_byte, shape, lastNew_append, lastNew_append, quiet, undone, Option.none_or]
  rfl

end Database

end DiskMap
