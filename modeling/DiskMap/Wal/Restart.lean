import DiskMap.Wal.CrashRecovery

namespace DiskMap
open ByteMemory Database GuardedRun

/-- The session of a WAL that has recovered and then checkpointed. -/
def Session.restarted (d : Database) : Session where
  db := d.checkpointInternal
  openTxns := []
  durable := d.pages
  durableRecords := d.wal.records.length
  logStart := d.wal.unflushedRecordIndex

/-- The number of records that `recover` appends to the ones it has read. -/
def recoveryRecords (records : List InMemoryWALRecord) : Nat :=
  (recoverUndo records).length + (abortedTxns records).length

/-- Neither the records that were read nor those of the recovery use an LSN twice. -/
def RecoveryLsnsLeft (records : List InMemoryWALRecord) : Prop :=
  recoveryRecords records < 2 ^ 32 ∧ ∀ r ∈ records, r.lsn + 1 + recoveryRecords records < 2 ^ 32

instance (records : List InMemoryWALRecord) : Decidable (RecoveryLsnsLeft records) :=
  inferInstanceAs (Decidable (_ ∧ ∀ r ∈ records, _))

namespace Database
variable {iteration : SetIteration} {records new : List InMemoryWALRecord} {pages : Mem} {d : Database} {w : WAL}

theorem mem_abortedTxns {id : Nat} : id ∈ abortedTxns records ↔ ∃ r ∈ unfinished records, r.txnId = id := by
  simp [abortedTxns]

/-- What `recover` appends carries ids of transactions in the log, and sets nothing. -/
theorem recovered_new (result : Recovered iteration records pages d) (shape : d.wal.records = records ++ new)
    (valid : ∀ r ∈ records, r.Valid) : new.length = recoveryRecords records ∧
      (∀ id ∈ abortedTxns records, id ∈ finishedTxns new) ∧
      ∀ r ∈ new, isSet r = false ∧ r.Valid ∧ ∃ r' ∈ records, r'.txnId = r.txnId := by
  obtain ⟨lsn, lsn', small, small', list⟩ := result.shape
  have isSets : ∀ r ∈ (recoverUndo records).reverse, isSet r := fun r member =>
    (List.mem_filter.mp (List.mem_reverse.mp member)).2
  cases List.append_cancel_left (shape.symm.trans list)
  refine ⟨?_, ?_, ?_⟩
  · rw [List.length_append, compensations_length, abortEnds_length, List.length_reverse,
      (iteration.perm _).length_eq]
    rfl
  · intro id member
    rw [finishedTxns, List.filter_append, List.map_append, List.mem_append]
    right
    change id ∈ finishedTxns (abortEnds lsn' _)
    rw [finishedTxns_abortEnds]
    exact (iteration.perm _).mem_iff.mpr member
  · intro r member
    rcases List.mem_append.mp member with clr | final
    · obtain ⟨r', inside, s, own, body, bound, rfl⟩ := mem_compensations small isSets clr
      have read : r' ∈ records := List.mem_of_mem_filter (List.mem_of_mem_filter (List.mem_reverse.mp inside))
      exact ⟨rfl, compensation_valid bound (valid r' read) body, r', read, rfl⟩
    · obtain ⟨own, bound, id, inside, rfl⟩ := mem_abortEnds small' final
      obtain ⟨r', open_, same⟩ := mem_abortedTxns.mp ((iteration.perm _).mem_iff.mp inside)
      have read : r' ∈ records := List.mem_of_mem_filter open_
      exact ⟨rfl, SessionInvariant.mark_valid bound (same ▸ (valid r' read).txnId) trivial rfl, r', read, same⟩

/-- The records of a recovered WAL are a history that later sessions may build on. -/
theorem restarted_ready (result : Recovered iteration records pages d) (counters : CountersPassed records {} w)
    (grows : w.Extends new d.wal) (shape : d.wal.records = records ++ new) (valid : ∀ r ∈ records, r.Valid)
    (ordered : ∀ r ∈ records, r.txnId ≤ r.lsn) (settled : Settled records) (left : RecoveryLsnsLeft records) :
    Ready (Session.restarted d) := by
  obtain ⟨count, ended, each⟩ := recovered_new result shape valid
  obtain ⟨room, lsnRoom⟩ := left
  have first : w.nextLsn ≤ 2 ^ 32 - 1 - recoveryRecords records :=
    counters.bounded _ (Nat.zero_le _) fun r member => by
      have bound := lsnRoom r member
      omega
  have next : d.wal.nextLsn = w.nextLsn + new.length := by
    rw [grows.nextLsn (by omega), Nat.mod_eq_of_lt (by omega)]
  have lsns := grows.lsns (by omega)
  refine ⟨rfl, result.active, rfl, rfl, ?_, ?_, ?_, ?_, ⟨rfl, le_rfl, result.flushedBound, ?_⟩, ?_, ?_, ?_⟩
  · change d.wal.nextLsn < 2 ^ 32
    omega
  · change d.wal.nextTxnId ≤ d.wal.nextLsn
    have counter := counters.txnIds le_rfl ordered
    rw [grows.nextTxnId]
    omega
  · change ∀ r ∈ d.wal.records, r.txnId ≤ r.lsn ∧ r.lsn < d.wal.nextLsn
    rw [shape]
    intro r member
    rcases List.mem_append.mp member with read | added
    · have passed := counters.passed r read
      exact ⟨ordered r read, by omega⟩
    · obtain ⟨_, _, r', read, same⟩ := each r added
      have lsn : r.lsn ∈ new.map InMemoryWALRecord.lsn := List.mem_map_of_mem added
      rw [lsns, List.mem_map] at lsn
      obtain ⟨i, range, value⟩ := lsn
      have index := List.mem_range.mp range
      have passed := counters.passed r' read
      have id := ordered r' read
      rw [Nat.mod_eq_of_lt (by omega)] at value
      omega
  · change ∀ r ∈ d.wal.records, r.Valid
    rw [shape]
    intro r member
    rcases List.mem_append.mp member with read | added
    · exact valid r read
    · exact (each r added).2.1
  · simp [Session.restarted, checkpointInternal, encodeAll]
  · intro a v last
    change d.pages a = v
    rw [result.pages, redo_byte]
    change lastNew d.wal.records a = some v at last
    rw [last, Option.getD_some]
  · change ∀ front r back, d.wal.records = front ++ r :: back → isSet r → r.txnId ∈ finishedTxns back
    rw [shape]
    intro front r back split set
    have read : ∃ rest, records = front ++ r :: rest ∧ back = rest ++ new := by
      rcases List.append_eq_append_iff.mp split with ⟨middle, _, tail⟩ | ⟨middle, head, tail⟩
      · have member : r ∈ new := by rw [tail]; simp
        rw [(each r member).1] at set
        cases set
      · cases middle with
        | nil =>
          have member : r ∈ new := by rw [← List.nil_append new, ← tail]; simp
          rw [(each r member).1] at set
          cases set
        | cons r' rest =>
          cases List.cons.inj tail
          exact ⟨rest, by simp_all, by simp_all⟩
    obtain ⟨rest, whole, tail⟩ := read
    have before := settled front r rest whole set
    have notFinish : (r.body == .commit || r.body == .abortEnd) = false := by
      obtain ⟨s, body⟩ := InMemoryWALRecord.isSet_iff.mp set
      simp [body]
    rw [tail, finishedTxns, List.filter_append, List.map_append, List.mem_append]
    by_cases finished : r.txnId ∈ finishedTxns records
    · left
      rw [whole, finishedTxns, List.filter_append, List.map_append, List.mem_append] at finished
      have after := finished.resolve_left before
      rwa [List.filter_cons, if_neg (by simp [notFinish])] at after
    · right
      refine ended _ (mem_abortedTxns.mpr ⟨r, List.mem_filter.mpr ⟨?_, by simpa using finished⟩, rfl⟩)
      rw [whole]
      simp
  · change Settled d.wal.records
    rw [shape]
    exact settled.append fun r member => (each r member).1

end Database

namespace Crash
variable {start s s' : Session}

theorem survivors_settled (ready : Ready start) (inv : SessionInvariant start s') (c : Crash s s') :
    Settled c.survivors := by
  intro front r back split set finished
  have whole : s'.db.wal.records = (s'.db.wal.records.take c.logged).take s'.logStart ++ front ++
      r :: (back ++ s'.db.wal.records.drop c.logged) := by
    conv_lhs => rw [← List.take_append_drop c.logged s'.db.wal.records,
      ← List.take_append_drop s'.logStart (s'.db.wal.records.take c.logged)]
    change _ ++ c.survivors ++ _ = _
    rw [split]
    simp
  refine settled ready inv _ r _ whole set ?_
  rw [finishedTxns, List.filter_append, List.map_append, List.mem_append]
  exact Or.inr finished

/-- The next process starts a session that is ready for more. -/
theorem restarted (ready : Ready start) (reach : Reaches Session.step IsolatedCall start s)
    (during : Session.During IsolatedCall s s') (left : LsnsLeft start s') (c : Crash s s')
    (room : RecoveryLsnsLeft c.survivors) {iteration : SetIteration} {evictedRedo evictedUndo : Nat → Option Nat}
    {d : Database} (run : recover iteration c.reopened evictedRedo evictedUndo = .ok d) :
    Ready (Session.restarted d) ∧ Recovered iteration c.survivors c.pages d := by
  have inv := ready.reaches (during.reaches reach) left
  obtain ⟨d', w, new, run', result, counters, grows, shape⟩ :=
    c.recover_reopened ready reach during left iteration evictedRedo evictedUndo
  cases Except.ok.inj (run.symm.trans run')
  refine ⟨restarted_ready result counters grows shape
    (fun r member => (survivor_bounds ready inv left c member).1) (fun r member => ?_)
    (survivors_settled ready inv c) room, result⟩
  exact (inv.ordered r (List.mem_of_mem_take (List.mem_of_mem_drop member))).1

end Crash

/-- Lives of a database: sessions that end in a crash, each followed by a recovery. The last one
starts in the given state, and the bytes are what the transactions that committed dictate. A
crash may have torn a flush, if only harmlessly. -/
inductive Lives (init : Mem) : Session → Mem → Prop
  | fresh : Lives init (Session.fresh init) init
  | restart {start view s s' c iteration evictedRedo evictedUndo d} : Lives init start view →
      Reaches Session.step IsolatedCall start s → Session.During IsolatedCall s s' → LsnsLeft start s' →
      @Crash.TornHarmless s s' c → RecoveryLsnsLeft c.survivors →
      recover iteration c.reopened evictedRedo evictedUndo = .ok d →
      Lives init (Session.restarted d)
        (lastCommitted view ((newRecords start s').take (c.covered - start.db.wal.records.length)))

theorem Lives.pages {init view : Mem} {start : Session} (lives : Lives init start view) :
    Ready start ∧ start.db.pages = view := by
  induction lives with
  | fresh => exact ⟨Session.fresh_ready init, rfl⟩
  | restart _ reach during left harmless room run ih =>
    obtain ⟨ready, same⟩ := ih
    obtain ⟨next, result⟩ := Crash.restarted ready reach during left _ room run
    have bytes := (Crash.recovered_iff ready (ready.reaches (during.reaches reach) left) _ result).mpr harmless
    refine ⟨next, funext fun a => ?_⟩
    rw [← same]
    exact bytes a

/-- A database whose only transaction has committed, after a crash and the recovery from it. -/
def oneCommitRecovered : Database :=
  match recoverLoaded .asInserted oneCommit.db.wal.records (fun _ => 0) quiet quiet with
  | .ok d => d
  | .error _ => oneCommit.db

theorem oneCommit_reaches : Reaches Session.step IsolatedCall .empty oneCommit :=
  (SerialOrder.reaches (Session.fresh_ready _) (serialRun_reaches (by decide)) (by decide)).1

theorem oneCommit_lives :
    Lives (fun _ => 0) (Session.restarted oneCommitRecovered) (lastCommitted (fun _ => 0) oneCommit.db.wal.records) := by
  let c := Crash.plain oneCommit (by decide) (by decide)
  have inv := (Session.fresh_ready _).reaches oneCommit_reaches (by decide)
  have log : c.reopened = { wal := { log := encodeAll oneCommit.db.wal.records }, pages := fun _ => 0 } := by
    have holds := Crash.log_eq (Or.inl rfl : Session.During IsolatedCall _ _) inv.logHolds c
    have records : c.survivors = oneCommit.db.wal.records := by decide
    rw [Crash.reopened, holds, records]
    rfl
  have recovered : recover .asInserted c.reopened quiet quiet = .ok oneCommitRecovered := by
    have valid : ∀ r ∈ oneCommit.db.wal.records, r.Valid := inv.valid
    rw [log, recover_encodeAll _ _ valid]
    rfl
  exact .restart (c := c) .fresh oneCommit_reaches (Or.inl rfl) (by decide) (Or.inl (by decide)) (by decide) recovered

/-- Whatever crashes and recoveries lie behind a session, the recovery from its own crash finds
what was committed before it and in it, exactly when the crash has left no harmful torn flush. -/
theorem restart_keeps_committed_iff {init view : Mem} {start s s' : Session} (lives : Lives init start view)
    (reach : Reaches Session.step IsolatedCall start s) (during : Session.During IsolatedCall s s')
    (left : LsnsLeft start s') (c : Crash s s') (iteration : SetIteration) (evictedRedo evictedUndo : Nat → Option Nat) :
    ∃ d, recover iteration c.reopened evictedRedo evictedUndo = .ok d ∧
      ((∀ a, d.pages a =
          lastCommitted view ((newRecords start s').take (c.covered - start.db.wal.records.length)) a) ↔
        c.TornHarmless) := by
  obtain ⟨ready, same⟩ := lives.pages
  obtain ⟨d, _, _, run, result, _⟩ := c.recover_reopened ready reach during left iteration evictedRedo evictedUndo
  have iff_ := c.recovered_iff ready (ready.reaches (during.reaches reach) left) result
  rw [← same]
  exact ⟨d, run, iff_⟩

/-- One more transaction after the recovery. -/
def secondCommit : Session := serialRun (Session.restarted oneCommitRecovered) [.begin, .set 3 8 1 [2] none, .commit 3]

theorem restart_keeps_committed_iff_commit :
    ∃ d, recover .asInserted (Crash.plain secondCommit (by decide) (by decide)).reopened quiet quiet = .ok d ∧
      ((∀ a, d.pages a = lastCommitted (lastCommitted (fun _ => 0) oneCommit.db.wal.records)
          ((newRecords (Session.restarted oneCommitRecovered) secondCommit).take (6 - 3)) a) ↔
        (Crash.plain secondCommit (by decide) (by decide)).TornHarmless) :=
  restart_keeps_committed_iff oneCommit_lives
    (SerialOrder.reaches oneCommit_lives.pages.1 (serialRun_reaches (by decide)) (by decide)).1 (Or.inl rfl) (by decide)
    (Crash.plain secondCommit (by decide) (by decide)) .asInserted quiet quiet

/-- The flush of the first commit after the recovery is cut after two of the old records. -/
def tornAfterRestart : Crash (serialRun (Session.restarted oneCommitRecovered) [.begin])
    (serialRun (Session.restarted oneCommitRecovered) [.begin, .commit 3]) where
  logged := 2
  image _ := 3
  flushed := by decide
  created := by decide
  imageLower _ := by decide
  imageUpper _ := by decide
  imageLogged i r a _ lower upper := by
    have durable : (serialRun (Session.restarted oneCommitRecovered) [.begin, .commit 3]).durableRecords = 3 := by decide
    omega

theorem restart_torn_loses_commit :
    ¬ ∀ (init view : Mem) (start s s' : Session), Lives init start view →
      Reaches Session.step IsolatedCall start s → Session.During IsolatedCall s s' → LsnsLeft start s' →
      ∀ (c : Crash s s') (iteration : SetIteration) (evictedRedo evictedUndo : Nat → Option Nat),
      ∃ d, recover iteration c.reopened evictedRedo evictedUndo = .ok d ∧ ∀ a, d.pages a =
        lastCommitted view ((newRecords start s').take (c.covered - start.db.wal.records.length)) a := by
  intro claim
  have ready := oneCommit_lives.pages.1
  have reach : Reaches Session.step IsolatedCall (Session.restarted oneCommitRecovered)
      (serialRun (Session.restarted oneCommitRecovered) [.begin]) :=
    (SerialOrder.reaches ready (serialRun_reaches (by decide)) (by decide)).1
  have during : Session.During IsolatedCall (serialRun (Session.restarted oneCommitRecovered) [.begin])
      (serialRun (Session.restarted oneCommitRecovered) [.begin, .commit 3]) :=
    Or.inr ⟨.commit 3, show 3 ∈ (serialRun _ _).openTxns by decide, by simp, rfl⟩
  obtain ⟨d, run, bytes⟩ := claim _ _ _ _ _ oneCommit_lives reach during (by decide) tornAfterRestart .asInserted quiet quiet
  obtain ⟨d', _, _, run', result, _⟩ :=
    tornAfterRestart.recover_reopened ready reach during (by decide) .asInserted quiet quiet
  cases Except.ok.inj (run.symm.trans run')
  have value : replayValue tornAfterRestart.survivors 0 = some 0 := by decide
  have expected : lastCommitted (lastCommitted (fun _ => 0) oneCommit.db.wal.records)
      ((newRecords (Session.restarted oneCommitRecovered)
        (serialRun (Session.restarted oneCommitRecovered) [.begin, .commit 3])).take
        (tornAfterRestart.covered - (Session.restarted oneCommitRecovered).db.wal.records.length)) 0 = 1 := by decide
  have found := bytes 0
  rw [result.byte, value, expected] at found
  cases found

end DiskMap
