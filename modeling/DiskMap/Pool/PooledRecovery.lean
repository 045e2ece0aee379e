import DiskMap.Pool.PooledDatabase
import DiskMap.Wal.Versions

namespace DiskMap
open ByteMemory Database GuardedRun

/-- The WAL over the pool with the transactions that are open, and the pages as each commit has left them. -/
structure PooledSession where
  paged : PagedWal
  openTxns : List Nat
  committed : List Mem

/-- Calls of clients, and what the checkpointing thread does. -/
inductive PooledOp
  | call (op : PagedOp)
  | requestCheckpoint
  | checkpoint

namespace PooledSession

def start (poolSize : Nat) (file : Mem) : PooledSession where
  paged := .fresh poolSize file
  openTxns := []
  committed := []

/-- The transactions that a call begins and ends. -/
def after (s : PooledSession) (paged : PagedWal) : PagedOp → PooledSession
  | .begin => { s with paged, openTxns := s.paged.wal.nextLsn :: s.openTxns }
  | .commit txnId => { paged, openTxns := s.openTxns.erase txnId, committed := s.committed ++ [s.paged.shown] }
  | .abort txnId => { s with paged, openTxns := s.openTxns.erase txnId }
  | _ => { s with paged }

def step (s : PooledSession) : PooledOp → Option PooledSession
  | .call op => (s.paged.step op).map fun paged => s.after paged op
  | .requestCheckpoint => some { s with paged := { s.paged with wal := { s.paged.wal with checkpointPending := true } } }
  | .checkpoint =>
    if s.paged.wal.checkpointPending ∧ s.paged.wal.activeTransactions ≤ 0 then some { s with paged := s.paged.checkpoint }
    else none

/-- Transactions one after another, with handles that leave a slot for them, so that no call throws. `begin` waits
while a checkpoint is pending. -/
def CallAllowed (s : PooledSession) : PagedOp → Prop
  | .begin => s.openTxns = [] ∧ s.paged.wal.checkpointPending = false
  | .set txnId loc writeLength data => txnId ∈ s.openTxns ∧ InsidePage loc writeLength data ∧ s.paged.Free
  | .commit txnId => txnId ∈ s.openTxns
  | .abort txnId => txnId ∈ s.openTxns ∧ s.paged.Free
  | .getPage _ _ => True
  | .dropHandle poolIndex => 0 < (s.paged.pool.metadata poolIndex).refcount

def Allowed (s : PooledSession) : PooledOp → Prop
  | .call op => s.CallAllowed op
  | _ => True

/-- The same run of the WAL over all its pages, without a pool. -/
structure Carries (first : Mem) (s : PooledSession) (v : Versions) : Prop where
  reach : Reaches Versions.step Versions.Serial (Versions.start (Session.fresh first)) v
  opened : s.openTxns = v.session.openTxns
  committed : s.committed = v.committed
  backs : ∃ pins, PagedWal.Backs v.session.durable v.session.durableRecords pins s.paged v.session.db
  whole : v.session.logStart = v.session.db.wal.unflushedRecordIndex ∨ v.session.durableRecords ≤ v.session.db.wal.unflushedRecordIndex

namespace Carries
variable {first : Mem} {s s' : PooledSession} {v : Versions} {pins : Nat → Nat} {op : PagedOp}

theorem init (poolSize : Nat) (first : Mem) : Carries first (start poolSize first) (Versions.start (Session.fresh first)) where
  reach := .init
  opened := rfl
  committed := rfl
  whole := Or.inl rfl
  backs := by
    refine ⟨fun _ => 0, rfl, rfl, rfl, ⟨rfl, fun i r at_ => ?_⟩, le_rfl, fun r member => ?_, ?_⟩
    · cases at_
    · cases member
    · exact ⟨BufferPool.linked_new poolSize, ⟨fun f i at_ => (by cases at_), fun f _ o _ => rfl⟩,
        fun page => ⟨0, le_rfl, le_rfl, fun o _ => rfl, fun k r o at_ => (by cases at_)⟩, fun k r page o at_ => (by cases at_), le_rfl⟩

theorem whole_step (inv : Carries first s v) {walOp : WalOp} {session : Session} (runs : walOp ≠ .checkpoint)
    (run : v.session.step walOp = some session) :
    session.logStart = session.db.wal.unflushedRecordIndex ∨ session.durableRecords ≤ session.db.wal.unflushedRecordIndex := by
  obtain ⟨pins, backs⟩ := inv.backs
  obtain ⟨_, durableRecords, logStart, _⟩ := Session.step_durable runs run
  rw [durableRecords, logStart]
  rcases (Session.step_flushes run).flushed with same | all
  · rw [same]
    exact inv.whole
  · exact Or.inr (backs.applied.count.trans all)

/-- A step that is one of the WAL, other than a commit. -/
theorem keep (inv : Carries first s v) (walOp : WalOp) {session : Session} (call : SerialCall v.session walOp)
    (other : ∀ txnId, walOp ≠ .commit txnId) (runs : walOp ≠ .checkpoint) (run : v.session.step walOp = some session)
    (opened : s'.openTxns = session.openTxns) (committed : s'.committed = s.committed)
    (backs : PagedWal.Backs v.session.durable v.session.durableRecords pins s'.paged session.db) :
    Carries first s' { v with session } := by
  have next : v.step walOp = some { v with session } := by
    simp only [Versions.step, run]
  obtain ⟨durable, durableRecords, _, _⟩ := Session.step_durable runs run
  rw [← durable, ← durableRecords] at backs
  exact ⟨inv.reach.next call next, opened, committed.trans inv.committed, ⟨pins, backs⟩, inv.whole_step runs run⟩

theorem begin (inv : Carries first s v) (allowed : s.CallAllowed .begin) (run : s.step (.call .begin) = some s')
    (room : s'.paged.lsnsTaken < 2 ^ 32) : ∃ v', Carries first s' v' := by
  cases Option.some.inj run
  obtain ⟨idle, running⟩ := allowed
  obtain ⟨pins, backs⟩ := inv.backs
  rw [backs.wal] at running
  obtain ⟨d, begun, next⟩ := backs.begin running room
  have done : v.session.step .begin = some { v.session with
      db := d, openTxns := v.session.db.wal.nextLsn :: v.session.openTxns } := by
    simp only [Session.step, begun]
  refine ⟨_, inv.keep .begin (inv.opened.symm.trans idle) (by simp) (by simp) done ?_ rfl next⟩
  change s.paged.wal.nextLsn :: s.openTxns = v.session.db.wal.nextLsn :: v.session.openTxns
  rw [backs.wal, inv.opened]

theorem commit (inv : Carries first s v) {txnId : Nat} (opened : txnId ∈ s.openTxns) (run : s.step (.call (.commit txnId)) = some s')
    (room : s'.paged.lsnsTaken < 2 ^ 32) : ∃ v', Carries first s' v' := by
  cases Option.some.inj run
  obtain ⟨pins, backs⟩ := inv.backs
  rw [inv.opened] at opened
  have done : v.session.step (.commit txnId) = some { v.session with
      db := v.session.db.commit txnId, openTxns := v.session.openTxns.erase txnId } := rfl
  have next : v.step (.commit txnId) = some ⟨{ v.session with
      db := v.session.db.commit txnId, openTxns := v.session.openTxns.erase txnId }, v.committed ++ [v.session.db.pages]⟩ := by
    simp only [Versions.step, done]
  refine ⟨_, inv.reach.next (show SerialCall v.session (.commit txnId) from opened) next, congrArg (List.erase · txnId) inv.opened, ?_,
    ⟨pins, backs.commit room⟩, inv.whole_step (by simp) done⟩
  change s.committed ++ [s.paged.shown] = v.committed ++ [v.session.db.pages]
  rw [inv.committed, backs.shown]

theorem call (inv : Carries first s v) (allowed : s.CallAllowed op) (run : s.step (.call op) = some s') (room : s'.paged.lsnsTaken < 2 ^ 32) :
    ∃ v', Carries first s' v' := by
  obtain ⟨pins, backs⟩ := inv.backs
  cases op with
  | begin => exact inv.begin allowed run room
  | set txnId loc writeLength data =>
    cases Option.some.inj run
    obtain ⟨opened, inside, free⟩ := allowed
    obtain ⟨evicted, next⟩ := backs.set free inside room
    have done : v.session.step (.set txnId loc writeLength data evicted) = some { v.session with
        db := v.session.db.set txnId loc writeLength data evicted } := rfl
    rw [inv.opened] at opened
    exact ⟨_, inv.keep (.set txnId loc writeLength data evicted) ⟨opened, inside⟩ (by simp) (by simp) done inv.opened rfl next⟩
  | commit txnId => exact inv.commit allowed run room
  | abort txnId =>
    cases Option.some.inj run
    obtain ⟨opened, free⟩ := allowed
    obtain ⟨evicted, d, aborted, next⟩ := backs.abort free room
    have done : v.session.step (.abort txnId evicted) = some { v.session with
        db := d, openTxns := v.session.openTxns.erase txnId } := by
      simp only [Session.step, aborted]
    rw [inv.opened] at opened
    exact ⟨_, inv.keep (.abort txnId evicted) opened (by simp) (by simp) done (congrArg (List.erase · txnId) inv.opened) rfl next⟩
  | getPage fileIndex adviseEviction =>
    cases Option.some.inj run
    obtain ⟨evicted, pins', next⟩ := backs.retain fileIndex adviseEviction
    cases evicted with
    | none => exact ⟨v, inv.reach, inv.opened, inv.committed, ⟨pins', next⟩, inv.whole⟩
    | some pageLsn =>
      have done : v.session.step (.evict pageLsn) = some { v.session with
          db := { v.session.db with wal := v.session.db.wal.flushUpTo pageLsn } } := rfl
      exact ⟨_, inv.keep (.evict pageLsn) trivial (by simp) (by simp) done inv.opened rfl next⟩
  | dropHandle poolIndex =>
    cases Option.some.inj run
    exact ⟨v, inv.reach, inv.opened, inv.committed, ⟨_, backs.release allowed⟩, inv.whole⟩

theorem checkpoint (inv : Carries first s v) (run : s.step .checkpoint = some s') : ∃ v', Carries first s' v' := by
  obtain ⟨pins, backs⟩ := inv.backs
  unfold PooledSession.step at run
  dsimp only at run
  split at run
  · rename_i ready
    cases Option.some.inj run
    rw [backs.wal] at ready
    have done : v.session.step .checkpoint = some { v.session with
        db := v.session.db.checkpointInternal, durable := v.session.db.pages
        durableRecords := v.session.db.wal.records.length, logStart := v.session.db.wal.unflushedRecordIndex } := if_pos ready
    have next : v.step .checkpoint = some { v with session := { v.session with
        db := v.session.db.checkpointInternal, durable := v.session.db.pages
        durableRecords := v.session.db.wal.records.length, logStart := v.session.db.wal.unflushedRecordIndex } } := by
      simp only [Versions.step, done]
    exact ⟨_, inv.reach.next (show SerialCall v.session .checkpoint from trivial) next, inv.opened, inv.committed,
      ⟨pins, backs.checkpoint⟩, Or.inl rfl⟩
  · cases run

theorem step {op : PooledOp} (inv : Carries first s v) (allowed : s.Allowed op) (run : s.step op = some s')
    (room : s'.paged.lsnsTaken < 2 ^ 32) : ∃ v', Carries first s' v' := by
  cases op with
  | call op => exact inv.call allowed run room
  | requestCheckpoint =>
    cases Option.some.inj run
    obtain ⟨pins, backs⟩ := inv.backs
    have done : v.session.step .requestCheckpoint = some { v.session with
        db := { v.session.db with wal := { v.session.db.wal with checkpointPending := true } } } := rfl
    refine ⟨_, inv.keep .requestCheckpoint trivial (by simp) (by simp) done inv.opened rfl (?_ : PagedWal.Backs _ _ pins _ _)⟩
    rw [backs.wal]
    exact backs.withWal _ rfl rfl le_rfl backs.bound
  | checkpoint => exact inv.checkpoint run

/-- What is in the two files is what a crash would leave. -/
theorem crash (inv : Carries first s v) : ∃ c : Crash v.session v.session,
    c.reopened = { wal := { log := s.paged.wal.log }, pages := s.paged.file } ∧ c.TornHarmless := by
  obtain ⟨pins, backs⟩ := inv.backs
  choose image held using backs.applied.image
  have wal := backs.wal
  have logged : ∀ (i : Nat) r a, v.session.db.wal.records[i]? = some r → v.session.durableRecords ≤ i → i < image (a / pageSize) →
      r.newByte a ≠ none → i < v.session.db.wal.unflushedRecordIndex := by
    intro i r a at_ late before touches
    rw [← Nat.div_add_mod' a pageSize] at touches
    have reached := (held (a / pageSize)).logged i r (a % pageSize) at_ late before
      (Nat.mod_lt a (by decide : 0 < pageSize)) touches
    rw [wal] at reached
    exact reached
  let c : Crash v.session v.session := {
    logged := v.session.db.wal.unflushedRecordIndex
    image
    flushed := le_rfl
    created := backs.bound
    imageLower := fun page => (held page).lower
    imageUpper := fun page => (held page).upper
    imageLogged := logged }
  have log : c.log = s.paged.wal.log := by
    have none_ : (v.session.db.wal.records.take c.logged).drop v.session.db.wal.unflushedRecordIndex = [] :=
      List.drop_eq_nil_of_le (List.length_take_le _ _)
    rw [Crash.log, none_, wal]
    exact List.append_nil _
  have pages : c.pages = s.paged.file := by
    funext a
    have byte := (held (a / pageSize)).bytes (a % pageSize) (Nat.mod_lt a (by decide : 0 < pageSize))
    rw [Nat.div_add_mod'] at byte
    rw [Crash.pages, byte]
  refine ⟨c, by rw [Crash.reopened, log, pages], inv.whole.symm.imp_right fun start a => ?_⟩
  -- the log file has been empty since the checkpoint
  have empty : c.survivors = [] := by
    rw [Crash.survivors, start]
    exact List.drop_eq_nil_of_le (List.length_take_le _ _)
  rw [empty]
  exact ⟨fun _ impossible => (by cases impossible), fun _ _ impossible => (by cases impossible)⟩

end Carries

theorem step_spent {s s' : PooledSession} {op : PooledOp} (run : s.step op = some s') : s.paged.lsnsTaken ≤ s'.paged.lsnsTaken := by
  cases op with
  | call op =>
    obtain ⟨paged, stepped, rfl⟩ := Option.map_eq_some_iff.mp run
    have kept : PagedWal.Keeps 0 s.paged paged := .step stepped
    cases op <;> exact kept.spent
  | requestCheckpoint =>
    cases Option.some.inj run
    exact le_rfl
  | checkpoint =>
    unfold step at run
    dsimp only at run
    split at run
    · cases Option.some.inj run
      exact s.paged.flushAll_pooled.2.2.ge
    · cases run

theorem simulates {poolSize : Nat} {first : Mem} {s : PooledSession} (reach : Reaches step Allowed (start poolSize first) s)
    (left : s.paged.lsnsTaken < 2 ^ 32) : ∃ v, Carries first s v := by
  induction reach with
  | init => exact ⟨_, .init poolSize first⟩
  | next _ allowed run ih =>
    obtain ⟨v, inv⟩ := ih ((step_spent run).trans_lt left)
    exact inv.step allowed run left

/-- Kill the program between two calls. The recovery over the log and the data file, in which the pool has left some pages
that are newer than the last commit and some that are older, finds the pages as the last commit has shown them. -/
theorem recover_pooled {poolSize : Nat} {first : Mem} {s : PooledSession} (reach : Reaches step Allowed (start poolSize first) s)
    (left : s.paged.lsnsTaken < 2 ^ 32) (iteration : SetIteration) (evictedRedo evictedUndo : Nat → Option Nat) :
    ∃ d, recover iteration { wal := { log := s.paged.wal.log }, pages := s.paged.file } evictedRedo evictedUndo = .ok d ∧
      d.pages = s.committed.getLast?.getD first := by
  obtain ⟨v, inv⟩ := simulates reach left
  obtain ⟨c, files, harmless⟩ := inv.crash
  obtain ⟨pins, backs⟩ := inv.backs
  have room : LsnsLeft (Session.fresh first) v.session := by
    rw [backs.taken] at left
    simpa [LsnsLeft, Session.fresh] using left
  obtain ⟨d, run, lower, upper, version⟩ := recover_version (Session.fresh_ready first) inv.reach (Or.inl rfl) room c harmless
    iteration evictedRedo evictedUndo
  rw [files] at run
  refine ⟨d, run, ?_⟩
  have last : (first :: v.committed).getLast? = some d.pages := by
    rw [List.getLast?_eq_getElem?]
    rw [le_antisymm upper lower] at version
    exact version
  rw [List.getLast?_cons] at last
  rw [inv.committed]
  exact (Option.some.inj last).symm

instance (s : PagedWal) : Decidable s.Free :=
  inferInstanceAs (Decidable (∃ i, i < s.pool.poolSize ∧ (s.pool.metadata i).refcount = 0))

instance (s : PooledSession) : (op : PooledOp) → Decidable (s.Allowed op)
  | .call .begin => inferInstanceAs (Decidable (s.openTxns = [] ∧ s.paged.wal.checkpointPending = false))
  | .call (.set txnId loc writeLength data) =>
    inferInstanceAs (Decidable (txnId ∈ s.openTxns ∧ InsidePage loc writeLength data ∧ s.paged.Free))
  | .call (.commit txnId) => inferInstanceAs (Decidable (txnId ∈ s.openTxns))
  | .call (.abort txnId) => inferInstanceAs (Decidable (txnId ∈ s.openTxns ∧ s.paged.Free))
  | .call (.dropHandle poolIndex) => inferInstanceAs (Decidable (0 < (s.paged.pool.metadata poolIndex).refcount))
  | .call (.getPage _ _) | .requestCheckpoint | .checkpoint => isTrue trivial

/-- One transaction has committed, and the page that the next one has written to has left the only slot. -/
def stolen : PooledSession :=
  (run step Allowed (start 1 fun _ => 0) [.call .begin, .call (.set 0 0 1 [1]), .call (.commit 0), .call .begin,
    .call (.set 3 0 1 [2]), .call (.getPage 1 false)]).getD (start 1 fun _ => 0)

theorem recover_pooled_stolen : (stolen.paged.fileEffects 0).map InMemoryWALRecord.lsn = [1, 4] ∧ (stolen.committed.getLast?.getD fun _ => 0) 0 = 1 ∧
    ∃ d, recover .asInserted { wal := { log := stolen.paged.wal.log }, pages := stolen.paged.file } quiet quiet = .ok d ∧
      d.pages = stolen.committed.getLast?.getD fun _ => 0 :=
  ⟨by decide, by decide, recover_pooled (.of_isSome (by decide)) (by decide) .asInserted quiet quiet⟩

end PooledSession

end DiskMap
