import DiskMap.Library.Schedules
import DiskMap.Wal.Restart

namespace DiskMap
open Database GuardedRun Schedules

/-- Where a thread is that runs transactions. -/
inductive ClientPc
  | idle
  /-- In `begin`, about to take `wal_mutex`. -/
  | begins
  /-- In `begin`, asleep on `checkpoint_done`. -/
  | sleeps
  /-- `begin` has returned, `begin_rw_transaction` has not counted the transaction yet. -/
  | begun (txnId : Nat)
  | running (txnId : Nat)
  deriving DecidableEq, Repr

/-- Where a thread is that checkpoints: in `checkpoint`, or in `checkpoint_periodically`. -/
inductive CheckpointPc
  | idle
  /-- About to take `wal_mutex`. -/
  | locks
  | readsCount
  | readsFlag
  /-- It has read what makes it wait, and does not wait yet. -/
  | waits
  /-- Asleep on `checkpoint_cv` in the loop of `checkpoint_periodically`. -/
  | sleeps
  | requests
  /-- Asleep on `checkpoint_cv` in `checkpoint_internal`. -/
  | drains
  /-- Woken there, about to take `wal_mutex` again. -/
  | woken
  | flushes
  | readsExit
  | resets
  | exited
  deriving DecidableEq, Repr

inductive DestructorPc
  | alive
  /-- `~WAL` has set `shutting_down`. -/
  | notifies
  | joins
  | closed
  deriving DecidableEq, Repr

namespace ClientPc

/-- The transaction that the thread has begun and not finished. -/
def txn : ClientPc → Option Nat
  | begun txnId => some txnId
  | running txnId => some txnId
  | _ => none

def hasTxn (id : Nat) (pc : ClientPc) : Nat := if pc.txn = some id then 1 else 0

/-- What `checkpoint_done.notify_all` makes of it. -/
def notified : ClientPc → ClientPc
  | sleeps => begins
  | pc => pc

theorem txn_notified (pc : ClientPc) : pc.notified.txn = pc.txn := by
  cases pc <;> rfl

theorem notified_ne_sleeps (pc : ClientPc) : pc.notified ≠ sleeps := by
  cases pc <;> simp [notified]

end ClientPc

namespace CheckpointPc

/-- The thread has `wal_mutex` there. -/
@[simp] def Holds : CheckpointPc → Prop
  | readsCount | readsFlag | waits | requests | flushes | readsExit | resets => True
  | _ => False

instance (pc : CheckpointPc) : Decidable pc.Holds := by
  unfold Holds
  split <;> infer_instance

/-- What `checkpoint_cv.notify_all` makes of it. -/
def notified : CheckpointPc → CheckpointPc
  | sleeps => locks
  | drains => woken
  | pc => pc

end CheckpointPc

/-- How a client ends a transaction. -/
inductive Finish
  | commit
  | abort (evicted : Nat → Option Nat)

def Finish.walOp (txnId : Nat) : Finish → WalOp
  | commit => .commit txnId
  | abort evicted => .abort txnId evicted

inductive ThreadOp (ι κ : Type)
  /-- A client calls `begin_rw_transaction`. -/
  | call (i : ι)
  | begin (i : ι)
  | count (i : ι)
  | set (i : ι) (loc writeLength : Nat) (data : List UInt8) (evicted : Option Nat)
  | finish (i : ι) (how : Finish)
  /-- A thread's `get_page` writes back a dirty page, whoever has `wal_mutex`. The flush and the write are one step, which no
  other thread's step divides. -/
  | evict (pageLsn : Nat)
  /-- A thread calls `checkpoint`. -/
  | callCheckpoint (k : κ)
  | checkpoint (thread : Option κ)
  /-- `~WAL` begins. -/
  | shutDown
  | destructor
  /-- Spurious wakeups. -/
  | wakeClient (i : ι)
  | wakeCheckpoint (thread : Option κ)

/-- A WAL, the clients `ι` that run its transactions, and the threads that checkpoint it: `none` is
the one that the constructor starts, `some k` are callers of `checkpoint`. `walMutex` tells which of
these has the mutex between its steps. What a client does in the mutex is one step, and it has one
transaction at a time. `sync_log` succeeds. -/
structure Threads (ι κ : Type) where
  session : Session
  transactionsSinceLastCheckpoint : Nat
  shuttingDown : Bool
  walMutex : Option (Option κ)
  clients : ι → ClientPc
  checkpointers : Option κ → CheckpointPc
  destructor : DestructorPc

/-- The part of `checkpoint_internal` behind its wait. -/
def Session.checkpointed (s : Session) : Session where
  db := s.db.checkpointInternal
  openTxns := s.openTxns
  durable := s.db.pages
  durableRecords := s.db.wal.records.length
  logStart := s.db.wal.unflushedRecordIndex

def Session.requested (s : Session) : Session :=
  { s with db := { s.db with wal := { s.db.wal with checkpointPending := true } } }

/-- Only what checkpoints do changes whether one is pending. -/
theorem Session.step_pending {s s' : Session} {op : WalOp} (request : op ≠ .requestCheckpoint) (checkpoint : op ≠ .checkpoint)
    (run : s.step op = some s') : s'.db.wal.checkpointPending = s.db.wal.checkpointPending := by
  cases op with
  | begin =>
    simp only [step, Database.begin] at run
    split at run
    · rename_i began
      split at began
      · cases began
      · cases Option.some.inj began
        cases Option.some.inj run
        rfl
    · cases run
  | set txnId loc writeLength data evicted =>
    cases Option.some.inj run
    exact (s.db.set_extends txnId loc writeLength data evicted).wal.checkpointPending
  | commit txnId =>
    cases Option.some.inj run
    rfl
  | abort txnId evicted =>
    obtain ⟨d', last, returned, grows⟩ := s.db.abort_extends txnId evicted
    simp only [step, returned] at run
    cases Option.some.inj run
    exact grows.wal.checkpointPending
  | evict pageLsn =>
    cases Option.some.inj run
    exact (s.db.wal.flushUpTo_sameButFile pageLsn).checkpointPending
  | requestCheckpoint => exact absurd rfl request
  | checkpoint => exact absurd rfl checkpoint

theorem Session.step_finish {s s' : Session} {txnId : Nat} {how : Finish} (run : s.step (how.walOp txnId) = some s') :
    s'.openTxns = s.openTxns.erase txnId ∧ s'.db.wal.activeTransactions = s.db.wal.activeTransactions - 1 ∧
      s'.db.wal.checkpointPending = s.db.wal.checkpointPending := by
  obtain ⟨add, _, effect⟩ := Session.step_appends run
  cases how with
  | commit =>
    cases effect with
    | commit opens active => exact ⟨opens, active, Session.step_pending (by simp [Finish.walOp]) (by simp [Finish.walOp]) run⟩
    | other kind => simp [Finish.walOp] at kind
  | abort evicted =>
    cases effect with
    | abort opens active => exact ⟨opens, active, Session.step_pending (by simp [Finish.walOp]) (by simp [Finish.walOp]) run⟩
    | other kind => simp [Finish.walOp] at kind

namespace Threads
variable {ι κ : Type}

/-- `checkpoint_cv.notify_all()` -/
def notifyCheckpoint (s : Threads ι κ) : Threads ι κ :=
  { s with checkpointers := fun thread => (s.checkpointers thread).notified }

/-- `checkpoint_done.notify_all()` -/
def notifyDone (s : Threads ι κ) : Threads ι κ :=
  { s with clients := fun i => (s.clients i).notified }

section
variable [DecidableEq ι]

def client (s : Threads ι κ) (i : ι) (pc : ClientPc) : Threads ι κ :=
  { s with clients := Function.update s.clients i pc }

theorem client_same (s : Threads ι κ) (i : ι) (pc : ClientPc) : (s.client i pc).clients i = pc :=
  Function.update_self _ _ _

theorem client_other (s : Threads ι κ) {i j : ι} (pc : ClientPc) (different : j ≠ i) : (s.client i pc).clients j = s.clients j :=
  Function.update_of_ne different _ _

end

variable [DecidableEq κ]

/-- After the constructor of the WAL, which has started the periodic thread. -/
def start (session : Session) : Threads ι κ where
  session := session
  transactionsSinceLastCheckpoint := 0
  shuttingDown := false
  walMutex := none
  clients _ := .idle
  checkpointers thread := if thread = none then .locks else .idle
  destructor := .alive

def checkpointer (s : Threads ι κ) (thread : Option κ) (pc : CheckpointPc) : Threads ι κ :=
  { s with checkpointers := Function.update s.checkpointers thread pc }

/-- The thread goes to `pc`, and has the mutex there or has left it. -/
def put (s : Threads ι κ) (thread : Option κ) (pc : CheckpointPc) : Threads ι κ :=
  { s.checkpointer thread pc with walMutex := if pc.Holds then some thread else none }

theorem put_same (s : Threads ι κ) (thread : Option κ) (pc : CheckpointPc) : (s.put thread pc).checkpointers thread = pc :=
  Function.update_self _ _ _

theorem put_other (s : Threads ι κ) {thread other : Option κ} (pc : CheckpointPc) (different : other ≠ thread) :
    (s.put thread pc).checkpointers other = s.checkpointers other :=
  Function.update_of_ne different _ _

/-- The loop condition of `checkpoint_internal`. -/
def drain (s : Threads ι κ) (thread : Option κ) : Threads ι κ :=
  s.put thread (if 0 < s.session.db.wal.activeTransactions then .drains else .flushes)

/-- `checkpoint`, or the body of the loop in `checkpoint_periodically`. -/
def checkpointStep (s : Threads ι κ) (thread : Option κ) : Option (Threads ι κ) :=
  match s.checkpointers thread with
  | .locks => if s.walMutex = none then some (s.put thread (if thread = none then .readsCount else .requests)) else none
  | .readsCount => some (s.put thread (if s.transactionsSinceLastCheckpoint < 5 then .readsFlag else .requests))
  | .readsFlag => some (s.put thread (if s.shuttingDown then .requests else .waits))
  | .waits => some (s.put thread .sleeps)
  | .requests => some ({ s with session := s.session.requested }.drain thread)
  | .woken => if s.walMutex = none then some (s.drain thread) else none
  | .flushes =>
    some ({ s with session := s.session.checkpointed }.put thread (if thread = none then .readsExit else .idle)).notifyDone
  | .readsExit => some (s.put thread (if s.shuttingDown then .exited else .resets))
  | .resets => some { s.put thread .readsCount with transactionsSinceLastCheckpoint := 0 }
  | .idle | .sleeps | .drains | .exited => none

def step [DecidableEq ι] (s : Threads ι κ) : ThreadOp ι κ → Option (Threads ι κ)
  | .call i => if s.destructor = .alive ∧ s.clients i = .idle then some (s.client i .begins) else none
  | .begin i =>
    if s.walMutex = none ∧ s.clients i = .begins then
      match s.session.db.begin with
      | some (txnId, db) =>
        some { s.client i (.begun txnId) with session := { s.session with db, openTxns := txnId :: s.session.openTxns } }
      | none => some (s.client i .sleeps)
    else none
  | .count i =>
    match s.clients i with
    | .begun txnId =>
      some { s.client i (.running txnId) with transactionsSinceLastCheckpoint := s.transactionsSinceLastCheckpoint + 1 }
    | _ => none
  | .set i loc writeLength data evicted =>
    match s.clients i with
    | .running txnId =>
      if s.walMutex = none then
        (s.session.step (.set txnId loc writeLength data evicted)).map fun session => { s with session }
      else none
    | _ => none
  | .finish i how =>
    match s.clients i with
    | .running txnId =>
      if s.walMutex = none then
        (s.session.step (how.walOp txnId)).map fun session => { s.client i .idle with session }.notifyCheckpoint
      else none
    | _ => none
  | .evict pageLsn =>
    if s.destructor = .alive then (s.session.step (.evict pageLsn)).map fun session => { s with session } else none
  | .callCheckpoint k =>
    if s.destructor = .alive ∧ s.checkpointers (some k) = .idle then some (s.checkpointer (some k) .locks) else none
  | .checkpoint thread => s.checkpointStep thread
  | .shutDown => if s.destructor = .alive then some { s with shuttingDown := true, destructor := .notifies } else none
  | .destructor =>
    match s.destructor with
    | .notifies => some { s.notifyCheckpoint with destructor := .joins }
    | .joins => if s.checkpointers none = .exited then some { s with destructor := .closed } else none
    | _ => none
  | .wakeClient i => if s.clients i = .sleeps then some (s.client i .begins) else none
  | .wakeCheckpoint thread =>
    if (s.checkpointers thread).notified = s.checkpointers thread then none
    else some (s.checkpointer thread (s.checkpointers thread).notified)

/-- Nobody uses the WAL. -/
def Unused (s : Threads ι κ) : Prop := (∀ i, s.clients i = .idle) ∧ ∀ k, s.checkpointers (some k) = .idle

/-- The program destroys the WAL when it has stopped using it. -/
def Proper (s : Threads ι κ) : ThreadOp ι κ → Prop
  | .shutDown => s.Unused
  | _ => True

/-- The clients keep off the bytes that unfinished transactions have set. -/
def Isolated (s : Threads ι κ) : ThreadOp ι κ → Prop
  | .set i loc writeLength data evicted => ∀ txnId, s.clients i = .running txnId →
    IsolatedCall s.session (.set txnId loc writeLength data evicted)
  | .finish i how => ∀ txnId, s.clients i = .running txnId → IsolatedCall s.session (how.walOp txnId)
  | .shutDown => s.Unused
  | _ => True

end Threads

namespace CheckpointPc

/-- The thread is in `checkpoint_internal` and has asked for the checkpoint. -/
@[simp] def Asked : CheckpointPc → Prop
  | drains | woken | flushes => True
  | _ => False

/-- The thread has read that there were too few transactions. -/
@[simp] def ReadFew : CheckpointPc → Prop
  | readsFlag | waits | sleeps => True
  | _ => False

/-- The thread is about to make a checkpoint. -/
@[simp] def Due : CheckpointPc → Prop
  | requests | drains | woken | flushes => True
  | _ => False

/-- Places that only `checkpoint_periodically` has. -/
@[simp] def Periodic : CheckpointPc → Prop
  | readsCount | readsFlag | waits | sleeps | readsExit | resets | exited => True
  | _ => False

theorem notified_holds (pc : CheckpointPc) : pc.notified.Holds ↔ pc.Holds := by
  cases pc <;> rfl

theorem notified_asked {pc : CheckpointPc} (asked : pc.Asked) : pc.notified.Asked := by
  cases pc <;> exact asked

/-- A thread that is notified does not sleep any more. -/
theorem notified_awake (pc : CheckpointPc) : pc.notified ≠ sleeps ∧ pc.notified ≠ drains := by
  cases pc <;> simp [notified]

theorem notified_exited {pc : CheckpointPc} (exited : pc = .exited) : pc.notified = .exited := by
  rw [exited]
  rfl

end CheckpointPc

/-- What holds where a thread that checkpoints is at `pc`. -/
structure Threads.Place {ι κ : Type} (s : Threads ι κ) (thread : Option κ) (pc : CheckpointPc) : Prop where
  flushes : pc = .flushes → s.session.openTxns = []
  drains : pc = .drains → s.session.openTxns ≠ []
  /-- A transaction that has been counted since will wake the thread when it ends. -/
  counted : pc.ReadFew → 5 ≤ s.transactionsSinceLastCheckpoint → ∃ i txnId, s.clients i = .running txnId
  due : thread = none → pc.Due → s.shuttingDown = false → 5 ≤ s.transactionsSinceLastCheckpoint
  started : thread = none → pc ≠ .idle
  caller : thread ≠ none → ¬ pc.Periodic ∧ (s.destructor ≠ .alive → pc = .idle)
  exited : pc = .exited → s.destructor ≠ .alive

/-- Who has the mutex, and who waits for whom. -/
structure ThreadsInvariant {ι κ : Type} [Fintype ι] (s : Threads ι κ) : Prop where
  mutex : ∀ thread, s.walMutex = some thread ↔ (s.checkpointers thread).Holds
  places : ∀ thread, s.Place thread (s.checkpointers thread)
  asked : s.session.db.wal.checkpointPending = true → ∃ thread, (s.checkpointers thread).Asked
  txns : ∀ id, s.session.openTxns.count id = weight (ClientPc.hasTxn id) s.clients
  active : s.session.db.wal.activeTransactions = s.session.openTxns.length
  sleeps : ∀ i, s.clients i = .sleeps → s.session.db.wal.checkpointPending = true
  shutting : s.shuttingDown = true ↔ s.destructor ≠ .alive
  unused : s.destructor ≠ .alive → ∀ i, s.clients i = .idle
  closed : s.destructor = .closed → s.checkpointers none = .exited

namespace Threads
variable {ι κ : Type} {s : Threads ι κ} {thread : Option κ} {pc : CheckpointPc}

/-- Where the threads are does not matter for what holds at a place. -/
theorem Place.of_places {checkpointers : Option κ → CheckpointPc} {walMutex : Option (Option κ)} (here : s.Place thread pc) :
    { s with checkpointers, walMutex }.Place thread pc :=
  ⟨here.flushes, here.drains, here.counted, here.due, here.started, here.caller, here.exited⟩

theorem Place.of_session {session : Session} (here : s.Place thread pc) (opens : session.openTxns = s.session.openTxns) :
    { s with session }.Place thread pc :=
  ⟨fun is => opens.trans (here.flushes is), fun is => opens ▸ here.drains is, here.counted, here.due, here.started, here.caller, here.exited⟩

theorem Place.notified (here : s.Place thread pc) : s.Place thread pc.notified := by
  have due := here.due
  have callers := here.caller
  cases pc
  case sleeps => constructor <;> simp_all [CheckpointPc.notified]
  case drains => constructor <;> simp_all [CheckpointPc.notified]
  all_goals exact here

/-- What a client does in the mutex leaves the places outside as they are. -/
theorem Place.work {session : Session} {clients : ι → ClientPc} (here : s.Place thread pc) (outside : ¬ pc.Holds)
    (drains : pc = .drains → session.openTxns ≠ [])
    (counted : pc.ReadFew → 5 ≤ s.transactionsSinceLastCheckpoint → ∃ i txnId, clients i = .running txnId) :
    { s with session, clients }.Place thread pc := by
  have noFlush : pc ≠ .flushes := by
    rintro rfl
    exact outside trivial
  exact ⟨fun is => absurd is noFlush, drains, counted, here.due, here.started, here.caller, here.exited⟩

/-- The place behind the loop condition of `checkpoint_internal`. -/
theorem Place.drained (here : s.Place thread pc) (active : s.session.db.wal.activeTransactions = s.session.openTxns.length) (due : pc.Due) :
    s.Place thread (if 0 < s.session.db.wal.activeTransactions then .drains else .flushes) := by
  have opens : 0 < s.session.db.wal.activeTransactions ↔ s.session.openTxns ≠ [] := by
    rw [active, ← List.length_pos_iff]
    omega
  have busy : pc ≠ .idle := by
    rintro rfl
    exact due
  have first := here.due
  have callers := here.caller
  split <;> constructor <;> simp_all

/-- Other clients go on running. -/
theorem Place.counted_client [DecidableEq ι] (here : s.Place thread pc) {i : ι} {place : ClientPc} (still : ∀ txnId, s.clients i ≠ .running txnId) (few : pc.ReadFew)
    (many : 5 ≤ s.transactionsSinceLastCheckpoint) : ∃ j txnId, (s.client i place).clients j = .running txnId := by
  obtain ⟨j, txnId, running⟩ := here.counted few many
  have different : j ≠ i := by
    rintro rfl
    exact still txnId running
  exact ⟨j, txnId, (client_other s place different).trans running⟩

variable [DecidableEq κ]

theorem places_put (places : ∀ other, other ≠ thread → s.Place other (s.checkpointers other)) (place : s.Place thread pc)
    (other : Option κ) : s.Place other ((s.put thread pc).checkpointers other) := by
  by_cases same : other = thread
  · rw [same, put_same]
    exact place
  · rw [put_other s pc same]
    exact places other same

theorem mutex_put (free : s.walMutex = none ∨ s.walMutex = some thread)
    (mutex : ∀ thread, s.walMutex = some thread ↔ (s.checkpointers thread).Holds) (other : Option κ) :
    (s.put thread pc).walMutex = some other ↔ ((s.put thread pc).checkpointers other).Holds := by
  change (if pc.Holds then some thread else none) = some other ↔ _
  by_cases same : other = thread
  · rw [same, put_same]
    split <;> simp_all
  · rw [put_other s pc same, ← mutex other]
    have away : s.walMutex ≠ some other := by
      rcases free with none | own
      · simp [none]
      · rw [own]
        exact fun eq => same (Option.some.inj eq).symm
    refine iff_of_false ?_ away
    split
    · exact fun eq => same (Option.some.inj eq).symm
    · simp

end Threads

namespace ThreadsInvariant
open Threads
variable {ι κ : Type} [Fintype ι] {s s' : Threads ι κ} {thread : Option κ} {pc : CheckpointPc}

/-- Nobody has the mutex. -/
theorem away (inv : ThreadsInvariant s) (free : s.walMutex = none) (thread : Option κ) : ¬ (s.checkpointers thread).Holds := by
  rw [← inv.mutex, free]
  simp

/-- One thread has the mutex. -/
theorem alone (inv : ThreadsInvariant s) (holds : (s.checkpointers thread).Holds) {other : Option κ} (different : other ≠ thread) :
    ¬ (s.checkpointers other).Holds := by
  rw [← inv.mutex, (inv.mutex thread).mpr holds]
  exact fun same => different (Option.some.inj same).symm

theorem alive (inv : ThreadsInvariant s) {i : ι} (busy : s.clients i ≠ .idle) : s.destructor = .alive := by
  by_contra closing
  exact busy (inv.unused closing i)

/-- A step of the session that neither begins nor ends a transaction. -/
theorem work (inv : ThreadsInvariant s) {session : Session}
    (opens : session.openTxns = s.session.openTxns) (active : session.db.wal.activeTransactions = s.session.db.wal.activeTransactions)
    (pending : session.db.wal.checkpointPending = s.session.db.wal.checkpointPending) : ThreadsInvariant { s with session } where
  mutex := inv.mutex
  places thread := (inv.places thread).of_session opens
  asked now := inv.asked (pending ▸ now)
  txns id := opens ▸ inv.txns id
  active := by
    rw [active, opens]
    exact inv.active
  sleeps j asleep := pending.trans (inv.sleeps j asleep)
  shutting := inv.shutting
  unused := inv.unused
  closed := inv.closed

/-- The destructor begins, notifies, and returns. -/
theorem shutDown (inv : ThreadsInvariant s) (unused : s.Unused) :
    ThreadsInvariant { s with shuttingDown := true, destructor := .notifies } where
  mutex := inv.mutex
  places thread := by
    have here := inv.places thread
    refine ⟨here.flushes, here.drains, here.counted, by simp, here.started, fun caller => ⟨(here.caller caller).1, fun _ => ?_⟩, by simp⟩
    obtain ⟨k, rfl⟩ := Option.ne_none_iff_exists'.mp caller
    exact unused.2 k
  asked := inv.asked
  txns := inv.txns
  active := inv.active
  sleeps := inv.sleeps
  shutting := by simp
  unused _ := unused.1
  closed closed := by cases closed

theorem notify (inv : ThreadsInvariant s) (is : s.destructor = .notifies) : ThreadsInvariant { s.notifyCheckpoint with destructor := .joins } where
  mutex thread := (inv.mutex thread).trans (CheckpointPc.notified_holds _).symm
  places thread := by
    have here := (inv.places thread).notified
    exact ⟨here.flushes, here.drains, here.counted, here.due, here.started,
      fun caller => ⟨(here.caller caller).1, fun _ => (here.caller caller).2 (by simp [is])⟩, by simp⟩
  asked now := by
    obtain ⟨thread, before⟩ := inv.asked now
    exact ⟨thread, CheckpointPc.notified_asked before⟩
  txns := inv.txns
  active := inv.active
  sleeps := inv.sleeps
  shutting := iff_of_true (inv.shutting.mpr (by simp [is])) (by simp)
  unused _ := inv.unused (by simp [is])
  closed closed := by cases closed

theorem join (inv : ThreadsInvariant s) (is : s.destructor = .joins) (exited : s.checkpointers none = .exited) :
    ThreadsInvariant { s with destructor := .closed } where
  mutex := inv.mutex
  places thread := by
    have here := inv.places thread
    exact ⟨here.flushes, here.drains, here.counted, here.due, here.started,
      fun caller => ⟨(here.caller caller).1, fun _ => (here.caller caller).2 (by simp [is])⟩, by simp⟩
  asked := inv.asked
  txns := inv.txns
  active := inv.active
  sleeps := inv.sleeps
  shutting := iff_of_true (inv.shutting.mpr (by simp [is])) (by simp)
  unused _ := inv.unused (by simp [is])
  closed _ := exited

variable [DecidableEq κ]

/-- A thread goes on, and nothing else changes but the owner of the mutex. -/
theorem move (inv : ThreadsInvariant s) (owner : Option (Option κ))
    (mutex : ∀ other, owner = some other ↔ ((s.checkpointer thread pc).checkpointers other).Holds) (place : s.Place thread pc)
    (asked : (s.checkpointers thread).Asked → pc.Asked) (runs : s.checkpointers thread ≠ .exited) :
    ThreadsInvariant { s.checkpointer thread pc with walMutex := owner } where
  mutex := mutex
  places other := (places_put (fun other _ => inv.places other) place other).of_places
  asked pending := by
    obtain ⟨other, before⟩ := inv.asked pending
    refine ⟨other, ?_⟩
    change ((s.put thread pc).checkpointers other).Asked
    by_cases same : other = thread
    · rw [same, put_same]
      exact asked (same ▸ before)
    · rwa [put_other s pc same]
  txns := inv.txns
  active := inv.active
  sleeps := inv.sleeps
  shutting := inv.shutting
  unused := inv.unused
  closed closed := by
    have before := inv.closed closed
    have different : none ≠ thread := by
      rintro rfl
      exact runs before
    exact (put_other s pc different).trans before

theorem put (inv : ThreadsInvariant s) (free : s.walMutex = none ∨ s.walMutex = some thread) (place : s.Place thread pc)
    (asked : (s.checkpointers thread).Asked → pc.Asked) (runs : s.checkpointers thread ≠ .exited) :
    ThreadsInvariant (s.put thread pc) :=
  inv.move _ (mutex_put free inv.mutex) place asked runs

/-- A thread goes on outside the mutex. -/
theorem outside (inv : ThreadsInvariant s) (before : ¬ (s.checkpointers thread).Holds) (after : ¬ pc.Holds) (place : s.Place thread pc)
    (asked : (s.checkpointers thread).Asked → pc.Asked) (runs : s.checkpointers thread ≠ .exited) :
    ThreadsInvariant (s.checkpointer thread pc) := by
  refine inv.move s.walMutex (fun other => ?_) place asked runs
  rw [inv.mutex]
  by_cases same : other = thread
  · rw [same]
    exact iff_of_false before ((put_same s thread pc).symm ▸ after)
  · rw [← put_other s pc same]
    rfl

/-- The first step of `checkpoint_internal`. -/
theorem request (inv : ThreadsInvariant s) (here : s.checkpointers thread = .requests) (asked : pc.Asked)
    (place : { s with session := s.session.requested }.Place thread pc) :
    ThreadsInvariant ({ s with session := s.session.requested }.put thread pc) where
  mutex := mutex_put (Or.inr ((inv.mutex thread).mpr (by rw [here]; trivial))) inv.mutex
  places other := by
    have others : ∀ other, { s with session := s.session.requested }.Place other (s.checkpointers other) :=
      fun other => (inv.places other).of_session rfl
    exact (places_put (fun other _ => others other) place other).of_places
  asked _ := ⟨thread, (put_same _ thread pc).symm ▸ asked⟩
  txns := inv.txns
  active := inv.active
  sleeps _ _ := rfl
  shutting := inv.shutting
  unused := inv.unused
  closed closed := by
    have before := inv.closed closed
    have different : none ≠ thread := by
      rintro rfl
      cases here.symm.trans before
    exact (put_other _ pc different).trans before

/-- The rest of `checkpoint_internal`. -/
theorem flush (inv : ThreadsInvariant s) (here : s.checkpointers thread = .flushes) {next : CheckpointPc}
    (place : { s with session := s.session.checkpointed }.Place thread next) :
    ThreadsInvariant ({ s with session := s.session.checkpointed }.put thread next).notifyDone := by
  have own : s.walMutex = some thread := (inv.mutex thread).mpr (by rw [here]; trivial)
  have places := places_put (s := { s with session := s.session.checkpointed })
    (fun other _ => (inv.places other).of_session rfl) place
  refine ⟨mutex_put (Or.inr own) inv.mutex, fun other => ?_, fun pending => ?_, fun id => ?_, inv.active,
    fun i asleep => absurd asleep (ClientPc.notified_ne_sleeps _), inv.shutting, fun closing i => ?_, fun closed => ?_⟩
  · have before := places other
    refine ⟨before.flushes, before.drains, fun few many => ?_, before.due, before.started, before.caller, before.exited⟩
    obtain ⟨i, txnId, running⟩ := before.counted few many
    exact ⟨i, txnId, congrArg ClientPc.notified running⟩
  · cases pending
  · refine (inv.txns id).trans (weight_congr fun i => ?_)
    rw [ClientPc.hasTxn, ← ClientPc.txn_notified]
    rfl
  · exact congrArg ClientPc.notified (inv.unused closing i)
  · have before := inv.closed closed
    have different : none ≠ thread := by
      rintro rfl
      cases here.symm.trans before
    exact (put_other _ _ different).trans before

/-- The periodic thread forgets the transactions that it has counted. -/
theorem reset (inv : ThreadsInvariant s) (here : s.checkpointers thread = .resets) :
    ThreadsInvariant { s.put thread .readsCount with transactionsSinceLastCheckpoint := 0 } := by
  have place := inv.places thread
  have periodic : thread = none := by
    by_contra other
    exact (place.caller other).1 (by rw [here]; trivial)
  subst periodic
  have own : s.walMutex = some none := (inv.mutex none).mpr (by rw [here]; trivial)
  have next : s.Place none .readsCount := by
    constructor <;> simp
  have kept := inv.put (Or.inr own) next (by simp [here]) (by simp [here])
  refine ⟨kept.mutex, fun other => ?_, kept.asked, kept.txns, kept.active, kept.sleeps, kept.shutting, kept.unused, kept.closed⟩
  have before := kept.places other
  refine ⟨before.flushes, before.drains, fun _ many => absurd many (by simp), fun first due => ?_, before.started, before.caller,
    before.exited⟩
  subst first
  change ((s.put none .readsCount).checkpointers none).Due at due
  rw [put_same] at due
  cases due

theorem checkpoint (inv : ThreadsInvariant s) (run : s.checkpointStep thread = some s') : ThreadsInvariant s' := by
  have place := inv.places thread
  have callers := place.caller
  have own : (s.checkpointers thread).Holds → s.walMutex = some thread := (inv.mutex thread).mpr
  unfold checkpointStep at run
  split at run <;> rename_i here <;> rw [here] at place own callers
  · split at run
    · rename_i free
      cases Option.some.inj run
      refine inv.put (Or.inl free) ?_ (by simp [here]) (by simp [here])
      split <;> constructor <;> simp_all
    · cases run
  · cases Option.some.inj run
    refine inv.put (Or.inr (own trivial)) ?_ (by simp [here]) (by simp [here])
    split <;> constructor <;> simp_all
  · cases Option.some.inj run
    refine inv.put (Or.inr (own trivial)) ?_ (by simp [here]) (by simp [here])
    have few := place.counted trivial
    split <;> constructor <;> simp_all
  · cases Option.some.inj run
    refine inv.put (Or.inr (own trivial)) ?_ (by simp [here]) (by simp [here])
    have few := place.counted trivial
    constructor <;> simp_all
  · cases Option.some.inj run
    have requested : { s with session := s.session.requested }.Place thread .requests := place.of_session rfl
    exact inv.request here (by split <;> trivial) (requested.drained inv.active trivial)
  · split at run
    · rename_i free
      cases Option.some.inj run
      exact inv.put (Or.inl free) (place.drained inv.active trivial) (fun _ => by split <;> trivial) (by simp [here])
    · cases run
  · cases Option.some.inj run
    refine inv.flush here ?_
    have opens := place.flushes rfl
    split <;> constructor <;> simp_all [Session.checkpointed]
  · cases Option.some.inj run
    refine inv.put (Or.inr (own trivial)) ?_ (by simp [here]) (by simp [here])
    have shutting := inv.shutting
    split <;> constructor <;> simp_all
  · cases Option.some.inj run
    exact inv.reset here
  all_goals cases run

section
variable [DecidableEq ι] {i : ι} {place : ClientPc} {txnId : Nat}

omit [DecidableEq κ]

theorem weight_client (s : Threads ι κ) (i : ι) (place : ClientPc) (id : Nat) :
    weight (ClientPc.hasTxn id) (s.client i place).clients + ClientPc.hasTxn id (s.clients i) =
      weight (ClientPc.hasTxn id) s.clients + ClientPc.hasTxn id place :=
  weight_update i place

theorem sleeps_client (inv : ThreadsInvariant s) (asleep : place = .sleeps → s.session.db.wal.checkpointPending = true) {j : ι}
    (is : (s.client i place).clients j = .sleeps) : s.session.db.wal.checkpointPending = true := by
  by_cases same : j = i
  · subst same
    rw [client_same] at is
    exact asleep is
  · rw [client_other s place same] at is
    exact inv.sleeps j is

/-- A client outside a transaction goes on. -/
theorem client (inv : ThreadsInvariant s) (alive : s.destructor = .alive) (before : (s.clients i).txn = none) (after : place.txn = none)
    (asleep : place = .sleeps → s.session.db.wal.checkpointPending = true) : ThreadsInvariant (s.client i place) where
  mutex := inv.mutex
  places thread := by
    have here := inv.places thread
    have still : ∀ txnId, s.clients i ≠ .running txnId := by
      intro txnId is
      rw [is] at before
      cases before
    exact ⟨here.flushes, here.drains, here.counted_client still, here.due, here.started, here.caller, here.exited⟩
  asked := inv.asked
  txns id := by
    have moved := weight_client s i place id
    simp only [ClientPc.hasTxn, before, after] at moved
    exact (inv.txns id).trans moved.symm
  active := inv.active
  sleeps _ is := inv.sleeps_client asleep is
  shutting := inv.shutting
  unused closing := absurd alive closing
  closed := inv.closed

/-- A client has begun a transaction. -/
theorem begin (inv : ThreadsInvariant s) (free : s.walMutex = none) (is : s.clients i = .begins) {db : Database}
    (began : s.session.db.begin = some (txnId, db)) :
    ThreadsInvariant { s.client i (.begun txnId) with session := { s.session with db, openTxns := txnId :: s.session.openTxns } } := by
  have alive : s.destructor = .alive := inv.alive (i := i) (by simp [is])
  have run : s.session.step .begin = some { s.session with db, openTxns := txnId :: s.session.openTxns } := by
    simp only [Session.step, began]
  have pending := Session.step_pending (by simp) (by simp) run
  obtain ⟨add, appends, effect⟩ := Session.step_appends run
  refine ⟨inv.mutex, fun thread => ?_, fun now => inv.asked (pending ▸ now), fun id => ?_, ?_, fun j asleep => ?_, inv.shutting,
    fun closing => absurd alive closing, inv.closed⟩
  · exact (inv.places thread).work (inv.away free thread) (fun _ => List.cons_ne_nil _ _)
      ((inv.places thread).counted_client (by simp [is]))
  · have moved := weight_client s i (.begun txnId) id
    simp only [ClientPc.hasTxn, is, ClientPc.txn, reduceCtorEq, if_false, Nat.add_zero, Option.some.injEq] at moved
    refine (List.count_cons).trans ?_
    rw [inv.txns id]
    simp only [beq_iff_eq]
    exact moved.symm
  · cases effect with
    | begin opens count ids =>
      rw [count, inv.active]
      simp
    | other kind => simp at kind
  · rw [pending]
    exact inv.sleeps_client (by simp) asleep

/-- A client has counted its transaction. -/
theorem count (inv : ThreadsInvariant s) (is : s.clients i = .begun txnId) :
    ThreadsInvariant { s.client i (.running txnId) with transactionsSinceLastCheckpoint := s.transactionsSinceLastCheckpoint + 1 } where
  mutex := inv.mutex
  places thread := by
    have here := inv.places thread
    exact ⟨here.flushes, here.drains, fun _ _ => ⟨i, txnId, client_same s i _⟩,
      fun first due alive => Nat.le_succ_of_le (here.due first due alive), here.started, here.caller, here.exited⟩
  asked := inv.asked
  txns id := by
    have moved := weight_client s i (.running txnId) id
    simp only [ClientPc.hasTxn, is, ClientPc.txn] at moved
    exact (inv.txns id).trans (Nat.add_right_cancel moved).symm
  active := inv.active
  sleeps _ asleep := inv.sleeps_client (by simp) asleep
  shutting := inv.shutting
  unused closing := absurd (inv.alive (i := i) (by simp [is])) closing
  closed := inv.closed

/-- A transaction has ended, and its client has notified the threads that checkpoint. -/
theorem finish (inv : ThreadsInvariant s) (free : s.walMutex = none) (is : s.clients i = .running txnId) {session : Session}
    (opens : session.openTxns = s.session.openTxns.erase txnId)
    (active : session.db.wal.activeTransactions = s.session.db.wal.activeTransactions - 1)
    (pending : session.db.wal.checkpointPending = s.session.db.wal.checkpointPending) :
    ThreadsInvariant { s.client i .idle with session }.notifyCheckpoint := by
  have alive : s.destructor = .alive := inv.alive (i := i) (by simp [is])
  have txns : ∀ id, s.session.openTxns.count id = weight (ClientPc.hasTxn id) (s.client i .idle).clients + if txnId = id then 1 else 0 := by
    intro id
    have moved := weight_client s i .idle id
    simp only [ClientPc.hasTxn, is, ClientPc.txn, reduceCtorEq, if_false, Nat.add_zero, Option.some.injEq] at moved
    exact (inv.txns id).trans moved.symm
  have member : txnId ∈ s.session.openTxns := by
    rw [← List.count_pos_iff, txns, if_pos rfl]
    exact Nat.succ_pos _
  refine ⟨fun thread => ?_, fun thread => ?_, fun now => ?_, fun id => ?_, ?_, fun j asleep => ?_, inv.shutting,
    fun closing => absurd alive closing, fun closed => CheckpointPc.notified_exited (inv.closed closed)⟩
  · exact (inv.mutex thread).trans (CheckpointPc.notified_holds _).symm
  · have awake := CheckpointPc.notified_awake (s.checkpointers thread)
    have outside : ¬ (s.checkpointers thread).notified.Holds := by
      rw [CheckpointPc.notified_holds]
      exact inv.away free thread
    refine ((inv.places thread).notified.work outside (fun is => absurd is awake.2) fun few _ => ?_).of_places
    cases at_ : (s.checkpointers thread).notified <;> simp_all
  · obtain ⟨thread, before⟩ := inv.asked (pending ▸ now)
    exact ⟨thread, CheckpointPc.notified_asked before⟩
  · change List.count id session.openTxns = _
    rw [opens, List.count_erase, txns]
    simp only [beq_iff_eq]
    exact Nat.add_sub_cancel _ _
  · change session.db.wal.activeTransactions = _
    rw [active, inv.active]
    change _ = ((session.openTxns.length : Nat) : Int)
    have positive := List.length_pos_of_mem member
    rw [opens, List.length_erase_of_mem member]
    omega
  · exact pending.trans (inv.sleeps_client (by simp) asleep)

variable [DecidableEq κ]

theorem step (inv : ThreadsInvariant s) {op : ThreadOp ι κ} (proper : s.Proper op) (run : s.step op = some s') : ThreadsInvariant s' := by
  cases op with
  | call i =>
    simp only [Threads.step] at run
    split at run
    · rename_i is
      cases Option.some.inj run
      exact inv.client is.1 (by rw [is.2]; rfl) rfl (by simp)
    · cases run
  | begin i =>
    simp only [Threads.step] at run
    split at run
    · rename_i is
      split at run
      · rename_i txnId db began
        cases Option.some.inj run
        exact inv.begin is.1 is.2 began
      · rename_i refused
        cases Option.some.inj run
        refine inv.client (inv.alive (i := i) (by simp [is.2])) (by rw [is.2]; rfl) rfl fun _ => ?_
        by_contra none
        simp [Database.begin, none] at refused
    · cases run
  | count i =>
    simp only [Threads.step] at run
    split at run
    · rename_i txnId is
      cases Option.some.inj run
      exact inv.count is
    · cases run
  | set i loc writeLength data evicted =>
    simp only [Threads.step] at run
    split at run
    · rename_i txnId is
      split at run
      · rename_i free
        obtain ⟨session, done, rfl⟩ := Option.map_eq_some_iff.mp run
        obtain ⟨add, _, effect⟩ := Session.step_appends done
        cases effect with
        | set opens active =>
          exact inv.work opens active (Session.step_pending (by simp) (by simp) done)
        | other kind => simp at kind
      · cases run
    · cases run
  | finish i how =>
    simp only [Threads.step] at run
    split at run
    · rename_i txnId is
      split at run
      · rename_i free
        obtain ⟨session, done, rfl⟩ := Option.map_eq_some_iff.mp run
        obtain ⟨opens, active, pending⟩ := Session.step_finish done
        exact inv.finish free is opens active pending
      · cases run
    · cases run
  | evict pageLsn =>
    simp only [Threads.step] at run
    split at run
    · rename_i is
      obtain ⟨session, done, rfl⟩ := Option.map_eq_some_iff.mp run
      obtain ⟨add, _, effect⟩ := Session.step_appends done
      cases effect with
      | other _ opens active => exact inv.work opens active (Session.step_pending (by simp) (by simp) done)
    · cases run
  | callCheckpoint k =>
    simp only [Threads.step] at run
    split at run
    · rename_i is
      cases Option.some.inj run
      refine inv.outside (by simp [is.2]) (by simp) ?_ (by simp [is.2]) (by simp [is.2])
      constructor <;> simp [is.1]
    · cases run
  | checkpoint thread => exact inv.checkpoint run
  | shutDown =>
    simp only [Threads.step] at run
    split at run
    · cases Option.some.inj run
      exact inv.shutDown proper
    · cases run
  | destructor =>
    simp only [Threads.step] at run
    split at run
    · rename_i is
      cases Option.some.inj run
      exact inv.notify is
    · rename_i is
      split at run
      · rename_i exited
        cases Option.some.inj run
        exact inv.join is exited
      · cases run
    · cases run
  | wakeClient i =>
    simp only [Threads.step] at run
    split at run
    · rename_i is
      cases Option.some.inj run
      exact inv.client (inv.alive (i := i) (by simp [is])) (by rw [is]; rfl) rfl (by simp)
    · cases run
  | wakeCheckpoint thread =>
    simp only [Threads.step] at run
    split at run
    · cases run
    · rename_i asleep
      cases Option.some.inj run
      have here := (inv.places thread).notified
      refine inv.outside ?_ ?_ here CheckpointPc.notified_asked ?_
      all_goals cases at_ : s.checkpointers thread <;> simp_all [CheckpointPc.notified]

end

end ThreadsInvariant

end DiskMap
