import DiskMap.Wal.Crash

namespace DiskMap
open ByteMemory Database GuardedRun

namespace Crash
variable {start s s' : Session}

theorem survivor_bounds (ready : Ready start) (inv : SessionInvariant start s') (left : LsnsLeft start s')
    (c : Crash s s') {r : InMemoryWALRecord} (member : r ∈ c.survivors) :
    r.Valid ∧ r.lsn + 1 < 2 ^ 32 ∧ r.txnId + 1 < 2 ^ 32 := by
  have inside : r ∈ s'.db.wal.records := List.mem_of_mem_take (List.mem_of_mem_drop member)
  have order := inv.ordered r inside
  have small := inv.nextLsn_lt left
  refine ⟨?_, by omega, by omega⟩
  rw [inv.shape] at inside
  rcases List.mem_append.mp inside with old | new
  · exact ready.valid r old
  · exact inv.valid r new

/-- A process that opens the files after the crash gets through `recover`. -/
theorem recover_reopened (ready : Ready start) (reach : Reaches Session.step IsolatedCall start s)
    (during : Session.During IsolatedCall s s') (left : LsnsLeft start s') (c : Crash s s') (iteration : SetIteration)
    (evictedRedo evictedUndo : Nat → Option Nat) :
    ∃ d w new, recover iteration c.reopened evictedRedo evictedUndo = .ok d ∧
      Recovered iteration c.survivors c.pages d ∧ CountersPassed c.survivors {} w ∧ w.Extends new d.wal ∧
      d.wal.records = c.survivors ++ new := by
  have inv := ready.reaches (during.reaches reach) left
  obtain ⟨add, records⟩ := during.grows
  have before : LsnsLeft start s :=
    left.before (by rw [records, List.length_append]; exact Nat.le_add_right _ _)
  have holds := (ready.reaches reach before).logHolds
  have spec := recover_spec iteration c.pages (fun r member => (survivor_bounds ready inv left c member).1)
    (fun r member => (survivor_bounds ready inv left c member).2) evictedRedo evictedUndo
  rwa [← log_eq during holds c] at spec

/-- Recovery finds every committed value, except after a torn flush that left harmful records. -/
theorem recovered_iff (ready : Ready start) (inv : SessionInvariant start s') (c : Crash s s')
    {iteration : SetIteration} {d : Database} (result : Recovered iteration c.survivors c.pages d) :
    (∀ a, d.pages a = committedView start s' c.covered a) ↔ c.TornHarmless := by
  by_cases past : s'.durableRecords ≤ c.logged
  · have counted : c.covered = c.logged := max_eq_left past
    refine ⟨fun _ => Or.inl past, fun _ a => ?_⟩
    rw [result.byte, replay_committed ready inv c past, counted]
  · have counted : c.covered = s'.durableRecords := max_eq_right (by omega)
    have image : ∀ a, c.pages a = s'.durable a := fun a => c.pages_untouched fun r member => by
      rw [List.drop_of_length_le (by rw [List.length_take]; omega)] at member
      cases member
    have value : ∀ a, d.pages a = (replayValue c.survivors a).getD (s'.durable a) := fun a => by
      rw [result.byte, image]
    simp only [counted, ← durable_committed inv, value]
    constructor
    · refine fun same => Or.inr fun a => ⟨fun v old => ?_, fun none v last => ?_⟩
      · simpa [replayValue, old] using same a
      · simpa [replayValue, none, last] using same a
    · rintro (logged | harmless) a
      · exact absurd logged past
      · obtain ⟨olds, news⟩ := harmless a
        cases old : firstOld (unfinished c.survivors) a with
        | some v => simp [replayValue, old, olds v old]
        | none =>
          cases last : lastNew c.survivors a with
          | some v => simp [replayValue, old, last, news old v last]
          | none => simp [replayValue, old, last]

end Crash

/-- At most one transaction is open, and no BEGIN record stands behind a SET of it. -/
structure SerialOrder (s : Session) : Prop where
  single : s.openTxns.length ≤ 1
  order : ∀ id ∈ s.openTxns, ∀ (n : Nat) b, s.db.wal.records[n]? = some b → b.body = .begin →
    ∀ r ∈ s.db.wal.records.take (n + 1), ¬ setBy id r

namespace SerialOrder
variable {start s s' : Session}

theorem rollbackCovers (serial : SerialOrder s) {id : Nat} (opened : id ∈ s.openTxns) :
    RollbackCovers s.db.wal.records id := by
  unfold RollbackCovers undoStart
  cases found : s.db.wal.records.findIdx? fun r => r.txnId == id && r.body == .begin with
  | none => simp
  | some n =>
    obtain ⟨within, mark, _⟩ := List.findIdx?_eq_some_iff_getElem.mp found
    simp only [Bool.and_eq_true, beq_iff_eq] at mark
    exact serial.order id opened n _ (List.getElem?_eq_getElem within) mark.2

theorem isolatedCall (serial : SerialOrder s) {op : WalOp} (call : SerialCall s op) : IsolatedCall s op := by
  cases op with
  | set txnId loc writeLength data evicted =>
    obtain ⟨opened, inside⟩ := call
    refine ⟨opened, inside, fun a _ _ id other different => ?_⟩
    obtain ⟨only, shape⟩ := List.length_eq_one_iff.mp (serial.single.antisymm (List.length_pos_of_mem opened))
    rw [shape, List.mem_singleton] at opened other
    exact absurd (other.trans opened.symm) different
  | abort txnId evicted => exact ⟨call, serial.rollbackCovers call⟩
  | commit txnId => exact call
  | begin => trivial
  | evict pageLsn => trivial
  | requestCheckpoint => trivial
  | checkpoint => trivial

/-- Records other than BEGIN may follow. -/
theorem append (serial : SerialOrder s) {add : List InMemoryWALRecord}
    (records : s'.db.wal.records = s.db.wal.records ++ add) (noBegin : ∀ r ∈ add, r.body ≠ .begin)
    (fewer : s'.openTxns.Sublist s.openTxns) : SerialOrder s' := by
  refine ⟨fewer.length_le.trans serial.single, fun id opened n b found mark r member => ?_⟩
  rw [records] at found member
  by_cases old : n < s.db.wal.records.length
  · rw [List.getElem?_append_left old] at found
    rw [List.take_append_of_le_length old] at member
    exact serial.order id (fewer.subset opened) n b found mark r member
  · rw [List.getElem?_append_right (by omega)] at found
    exact absurd mark (noBegin b (List.mem_of_getElem? found))

theorem step (inv : SessionInvariant start s) (serial : SerialOrder s) {op : WalOp}
    (call : SerialCall s op) (run : s.step op = some s') : SerialOrder s' := by
  obtain ⟨add, appends, effect⟩ := Session.step_appends run
  cases effect with
  | begin opens =>
    -- no record carries the new id yet
    rw [show s.openTxns = [] from call] at opens
    refine ⟨by simp [opens], fun id opened n b _ _ r member byId => ?_⟩
    rw [opens, List.mem_singleton] at opened
    rw [appends.records] at member
    rcases List.mem_append.mp (List.mem_of_mem_take member) with old | new
    · have bound := inv.ordered r old
      have own := (setBy_iff.mp byId).2
      omega
    · rw [List.mem_singleton.mp new] at byId
      cases (setBy_iff.mp byId).1
  | set opens =>
    refine serial.append appends.records (fun r member body => ?_) (by rw [opens])
    rw [List.mem_singleton.mp member] at body
    cases body
  | commit opens =>
    refine serial.append appends.records (fun r member body => ?_) (by rw [opens]; exact List.erase_sublist)
    rw [List.mem_singleton.mp member] at body
    cases body
  | abort opens =>
    refine serial.append appends.records (fun r member body => ?_) (by rw [opens]; exact List.erase_sublist)
    rcases Session.mem_abortRecords member with ⟨_, _, rfl, rfl | rfl⟩ | ⟨_, _, _, _, _, _, rfl⟩ <;> cases body
  | other _ opens => exact serial.append appends.records (by simp) (by rw [opens])

/-- Transactions one after another keep off each other's bytes, and their rollbacks find their
own BEGIN records. -/
theorem reaches (ready : Ready start) (reach : Reaches Session.step SerialCall start s) (left : LsnsLeft start s) :
    Reaches Session.step IsolatedCall start s ∧ SerialOrder s := by
  refine reach.invariant_within (P := fun s => Reaches Session.step IsolatedCall start s ∧ SerialOrder s) left
    (fun _ => ⟨.init, ?_⟩) (fun _ _ _ _ run later => later.before (Session.step_records_length run))
    fun s op s' so_far later call run => ?_
  · exact ⟨by simp [ready.noTxns], by simp [ready.noTxns]⟩
  · have before := later.before (Session.step_records_length run)
    have inv := ready.reaches so_far.1 before
    exact ⟨so_far.1.next (so_far.2.isolatedCall call) run,
      SerialOrder.step inv so_far.2 call run⟩

end SerialOrder

/-- After any crash of serial transactions on a fresh log, `recover` returns. -/
theorem serial_recovered (init : Mem) {s s' : Session}
    (reach : Reaches Session.step SerialCall (Session.fresh init) s) (during : Session.During SerialCall s s')
    (left : s'.db.wal.records.length < 2 ^ 32) (c : Crash s s') (iteration : SetIteration)
    (evictedRedo evictedUndo : Nat → Option Nat) :
    ∃ d, recover iteration c.reopened evictedRedo evictedUndo = .ok d ∧
      Recovered iteration c.survivors c.pages d ∧ SessionInvariant (Session.fresh init) s' := by
  have ready := Session.fresh_ready init
  have budget : LsnsLeft (Session.fresh init) s' := by
    simpa [LsnsLeft, Session.fresh] using left
  obtain ⟨reach', _⟩ := SerialOrder.reaches ready (during.reaches reach) budget
  have before : LsnsLeft (Session.fresh init) s := by
    obtain ⟨add, records⟩ := during.grows
    exact budget.before (by rw [records, List.length_append]; exact Nat.le_add_right _ _)
  obtain ⟨first, order⟩ := SerialOrder.reaches ready reach before
  have isolated : Session.During IsolatedCall s s' := by
    rcases during with same | ⟨op, call, other, run⟩
    · exact Or.inl same
    · exact Or.inr ⟨op, order.isolatedCall call, other, run⟩
  obtain ⟨d, _, _, run, result, _⟩ := c.recover_reopened ready first isolated budget iteration evictedRedo evictedUndo
  exact ⟨d, run, result, ready.reaches reach' budget⟩

instance (s : Session) : (op : WalOp) → Decidable (SerialCall s op)
  | .begin => inferInstanceAs (Decidable (s.openTxns = []))
  | .set txnId loc writeLength data _ =>
    inferInstanceAs (Decidable (txnId ∈ s.openTxns ∧ InsidePage loc writeLength data))
  | .commit txnId => inferInstanceAs (Decidable (txnId ∈ s.openTxns))
  | .abort txnId _ => inferInstanceAs (Decidable (txnId ∈ s.openTxns))
  | .evict _ | .requestCheckpoint | .checkpoint => isTrue trivial

/-- The set iterated in the order in which its elements came. -/
def SetIteration.asInserted : SetIteration := ⟨id, fun _ => .refl _⟩

def serialRun (start : Session) (ops : List WalOp) : Session :=
  (run Session.step SerialCall start ops).getD start

theorem serialRun_reaches {start : Session} {ops : List WalOp} (done : (run Session.step SerialCall start ops).isSome) :
    Reaches Session.step SerialCall start (serialRun start ops) :=
  .of_isSome done

/-- A crash between two calls whose log file and data file are as the last flush and the last
checkpoint left them. -/
def Crash.plain (s : Session) (flushed : s.db.wal.unflushedRecordIndex ≤ s.db.wal.records.length)
    (durable : s.durableRecords ≤ s.db.wal.records.length) : Crash s s where
  logged := s.db.wal.unflushedRecordIndex
  image _ := s.durableRecords
  flushed := le_rfl
  created := flushed
  imageLower _ := le_rfl
  imageUpper _ := durable
  imageLogged _ _ _ _ lower upper := absurd lower (Nat.not_le.mpr upper)

def oneCommit : Session := serialRun .empty [.begin, .set 0 0 1 [1] none, .commit 0]

/-- The transaction writes 1 and its record is flushed, it writes 2 and aborts, a checkpoint
absorbs what is unflushed. Then another transaction begins. -/
def abortedThenCheckpoint : List WalOp :=
  [.begin, .set 0 0 1 [1] none, .evict 1, .set 0 0 1 [2] none, .abort 0 quiet, .requestCheckpoint, .checkpoint, .begin]

/-- The flush of the next commit is cut after its first record. -/
def tornCommit : Crash (serialRun .empty abortedThenCheckpoint) (serialRun .empty (abortedThenCheckpoint ++ [.commit 7])) where
  logged := 3
  image _ := 7
  flushed := by decide
  created := by decide
  imageLower _ := by decide
  imageUpper _ := by decide
  imageLogged i r a _ lower upper := by
    have durable : (serialRun .empty (abortedThenCheckpoint ++ [.commit 7])).durableRecords = 7 := by decide
    omega

/-- Recovery leaves every byte with its last committed value exactly when the crash has left no
harmful torn flush. -/
theorem recover_lastCommitted_iff (init : Mem) {s s' : Session}
    (reach : Reaches Session.step SerialCall (Session.fresh init) s) (during : Session.During SerialCall s s')
    (left : s'.db.wal.records.length < 2 ^ 32) (c : Crash s s') (iteration : SetIteration)
    (evictedRedo evictedUndo : Nat → Option Nat) :
    ∃ d, recover iteration c.reopened evictedRedo evictedUndo = .ok d ∧
      ((∀ a, d.pages a = lastCommitted init (s'.db.wal.records.take c.covered) a) ↔ c.TornHarmless) := by
  obtain ⟨d, run, result, inv⟩ := serial_recovered init reach during left c iteration evictedRedo evictedUndo
  exact ⟨d, run, c.recovered_iff (Session.fresh_ready init) inv result⟩

/-- A committed transaction survives the crash right after its commit. -/
theorem recover_lastCommitted_iff_commit :
    ∃ d, recover .asInserted (Crash.plain oneCommit (by decide) (by decide)).reopened quiet quiet =
      .ok d ∧ ((∀ a, d.pages a = lastCommitted (fun _ => 0)
        (oneCommit.db.wal.records.take 3) a) ↔
        (Crash.plain oneCommit (by decide) (by decide)).TornHarmless) :=
  recover_lastCommitted_iff (fun _ => 0) (serialRun_reaches (by decide)) (Or.inl rfl) (by decide) (Crash.plain oneCommit (by decide) (by decide))
    .asInserted quiet quiet

/-- The old value of the aborted transaction's second SET is recovered. -/
theorem recover_torn_not_lastCommitted :
    ¬ ∀ (init : Mem) (s s' : Session), Reaches Session.step SerialCall (Session.fresh init) s →
      Session.During SerialCall s s' → s'.db.wal.records.length < 2 ^ 32 → ∀ (c : Crash s s')
      (iteration : SetIteration) (evictedRedo evictedUndo : Nat → Option Nat),
      ∃ d, recover iteration c.reopened evictedRedo evictedUndo = .ok d ∧
        ∀ a, d.pages a = lastCommitted init (s'.db.wal.records.take c.covered) a := by
  intro claim
  have reach : Reaches Session.step SerialCall .empty (serialRun .empty abortedThenCheckpoint) :=
    serialRun_reaches (by decide)
  have during : Session.During SerialCall (serialRun .empty abortedThenCheckpoint)
      (serialRun .empty (abortedThenCheckpoint ++ [.commit 7])) :=
    Or.inr ⟨.commit 7, by decide, by simp, rfl⟩
  have left : (serialRun .empty (abortedThenCheckpoint ++ [.commit 7])).db.wal.records.length < 2 ^ 32 := by decide
  obtain ⟨d, run, bytes⟩ := claim _ _ _ reach during left tornCommit .asInserted quiet quiet
  obtain ⟨d', run', result, _⟩ := serial_recovered _ reach during left tornCommit .asInserted quiet quiet
  cases Except.ok.inj (run.symm.trans run')
  have value : replayValue tornCommit.survivors 0 = some 1 := by decide
  have expected : lastCommitted (fun _ => 0)
      ((serialRun .empty (abortedThenCheckpoint ++ [.commit 7])).db.wal.records.take tornCommit.covered) 0 = 0 := by decide
  have found := bytes 0
  rw [result.byte, value, expected] at found
  cases found

end DiskMap
