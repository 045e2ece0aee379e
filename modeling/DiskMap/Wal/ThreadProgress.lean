import DiskMap.Wal.ThreadRuns
import Mathlib.Data.Prod.Lex
import Mathlib.Order.WellFounded

namespace DiskMap
open Database GuardedRun Schedules

namespace ClientPc

def busy : ClientPc → Nat
  | idle => 0
  | _ => 1

/-- The transaction of the call is not in `transactions_since_last_checkpoint`. -/
def uncounted : ClientPc → Nat
  | begins | sleeps | begun _ => 1
  | _ => 0

/-- The steps that the client can make before something wakes it. -/
def stepsLeft : ClientPc → Nat
  | begins => 2
  | begun _ => 1
  | _ => 0

end ClientPc

namespace CheckpointPc

def calls : CheckpointPc → Nat
  | idle => 0
  | _ => 1

theorem calls_eq_one {pc : CheckpointPc} (busy : pc ≠ idle) : pc.calls = 1 := by
  cases pc <;> first | rfl | exact absurd rfl busy

/-- The thread is about to forget the transactions that it has counted. -/
@[simp] def Forgets : CheckpointPc → Prop
  | readsExit | resets => True
  | _ => False

instance (pc : CheckpointPc) : Decidable pc.Forgets := by
  unfold Forgets
  split <;> infer_instance

/-- The thread has made its last checkpoint, unless it goes on. -/
@[simp] def Stored : CheckpointPc → Prop
  | readsExit | exited => True
  | _ => False

theorem notified_stored {pc : CheckpointPc} (stored : pc.notified.Stored) : pc.Stored := by
  cases pc <;> exact stored

/-- The steps that the thread can make before something wakes it. -/
def stepsLeft : CheckpointPc → Nat
  | readsExit => 9
  | resets => 8
  | locks => 8
  | readsCount => 7
  | readsFlag => 6
  | waits => 5
  | requests => 4
  | woken => 4
  | flushes => 1
  | _ => 0

/-- The steps that are left to the periodic thread when the WAL shuts down. -/
def closing : CheckpointPc → Nat
  | resets => 9
  | locks => 9
  | readsCount => 8
  | readsFlag => 7
  | requests => 6
  | woken => 6
  | flushes => 5
  | readsExit => 4
  | exited => 1
  | _ => 0

end CheckpointPc

namespace Threads
variable {ι κ : Type} {s s' : Threads ι κ} {thread : Option κ} {pc : CheckpointPc}

/-- Steps of a call that has been made, and the calls of `commit` and `abort` that end the open transactions: no thread
makes another call or sets bytes, and nothing wakes a thread but a notification. -/
def Own : ThreadOp ι κ → Prop
  | .begin _ | .count _ | .finish _ _ | .checkpoint _ | .destructor => True
  | _ => False

/-- No call is under way, and there is nothing to checkpoint yet. -/
structure AtRest (s : Threads ι κ) : Prop where
  clients : ∀ i, s.clients i = .idle
  callers : ∀ k, s.checkpointers (some k) = .idle
  periodic : s.checkpointers none = .sleeps
  few : s.transactionsSinceLastCheckpoint < 5
  txns : s.session.openTxns = []
  pending : s.session.db.wal.checkpointPending = false

theorem noOpen [Fintype ι] (inv : ThreadsInvariant s) (none : ∀ i, (s.clients i).txn = none) : s.session.openTxns = [] := by
  refine List.eq_nil_iff_forall_not_mem.mpr fun id member => ?_
  have positive := List.count_pos_iff.mpr member
  rw [inv.txns, weight_pos] at positive
  obtain ⟨i, has⟩ := positive
  simp [ClientPc.hasTxn, none i] at has

section
variable [DecidableEq κ]

theorem checkpointStep_destructor (run : s.checkpointStep thread = some s') : s'.destructor = s.destructor := by
  unfold checkpointStep at run
  split at run
  case h_1 | h_6 =>
    split at run <;> cases run
    rfl
  case h_2 | h_3 | h_4 | h_5 | h_7 | h_8 | h_9 =>
    cases Option.some.inj run
    rfl
  all_goals cases run

/-- A thread that has the mutex can go on. -/
theorem holder_moves (holds : (s.checkpointers thread).Holds) : ∃ s', s.checkpointStep thread = some s' := by
  unfold checkpointStep
  cases at_ : s.checkpointers thread <;> simp_all

theorem free_moves (free : s.walMutex = none) (wants : s.checkpointers thread = .locks ∨ s.checkpointers thread = .woken) :
    ∃ s', s.checkpointStep thread = some s' := by
  unfold checkpointStep
  rcases wants with is | is <;> simp [is, free]

end

def Moves [DecidableEq ι] [DecidableEq κ] (s s' : Threads ι κ) : Prop := ∃ op, Own op ∧ s.step op = some s'

/-- A state that nobody can leave has lost no wakeup. -/
theorem atRest_of_stuck [Fintype ι] [DecidableEq ι] [DecidableEq κ] (inv : ThreadsInvariant s) (alive : s.destructor = .alive) (stuck : ∀ s', ¬ s.Moves s') : s.AtRest := by
  have halts : ∀ op, Own op → s.step op = none := fun op own => Option.eq_none_iff_forall_ne_some.mpr fun s' run => stuck s' ⟨op, own, run⟩
  have still : ∀ thread s', s.checkpointStep thread ≠ some s' := fun thread s' run => stuck s' ⟨.checkpoint thread, trivial, run⟩
  have free : s.walMutex = none := by
    by_contra held
    obtain ⟨thread, owner⟩ := Option.ne_none_iff_exists'.mp held
    obtain ⟨s', run⟩ := holder_moves ((inv.mutex thread).mp owner)
    exact still thread s' run
  have noTxn : ∀ i, (s.clients i).txn = none := by
    intro i
    cases is : s.clients i with
    | begun txnId =>
      have run := halts (.count i) trivial
      simp [Threads.step, is] at run
    | running txnId =>
      have run := halts (.finish i .commit) trivial
      simp [Threads.step, is, free, Finish.walOp, Session.step] at run
    | idle | begins | sleeps => rfl
  have opens := noOpen inv noTxn
  have places : ∀ thread, s.checkpointers thread = .idle ∨ s.checkpointers thread = .sleeps := by
    intro thread
    have place := inv.places thread
    have outside := inv.away free thread
    have waiting : s.checkpointers thread ≠ .locks ∧ s.checkpointers thread ≠ .woken := by
      refine ⟨fun is => ?_, fun is => ?_⟩
      · obtain ⟨s', run⟩ := free_moves free (Or.inl is)
        exact still thread s' run
      · obtain ⟨s', run⟩ := free_moves free (Or.inr is)
        exact still thread s' run
    have drains := place.drains
    have exited := place.exited
    cases at_ : s.checkpointers thread <;> simp_all
  have pending : s.session.db.wal.checkpointPending = false := by
    by_contra asked
    obtain ⟨thread, inside⟩ := inv.asked (by simpa using asked)
    rcases places thread with is | is <;> rw [is] at inside <;> exact inside
  have periodic : s.checkpointers none = .sleeps := (places none).resolve_left ((inv.places none).started rfl)
  have clients : ∀ i, s.clients i = .idle := by
    intro i
    have asleep := inv.sleeps i
    have none := noTxn i
    have begins : s.clients i ≠ .begins := by
      intro is
      have run := halts (.begin i) trivial
      simp only [Threads.step, if_pos (And.intro free is)] at run
      split at run <;> cases run
    cases at_ : s.clients i <;> simp_all [ClientPc.txn]
  refine ⟨clients, fun k => ?_, periodic, ?_, opens, pending⟩
  · refine (places (some k)).resolve_right fun is => ?_
    exact ((inv.places (some k)).caller (by simp)).1 (by rw [is]; trivial)
  · by_contra many
    obtain ⟨i, txnId, running⟩ := (inv.places none).counted (by rw [periodic]; trivial) (by omega)
    rw [clients i] at running
    cases running

section
variable [Fintype ι] [Fintype κ]

def endings (s : Threads ι κ) : Nat := weight ClientPc.busy s.clients

/-- Each checkpoint pays for itself, with the end of a call or with the transactions it forgets. -/
def rounds (s : Threads ι κ) : Nat :=
  weight CheckpointPc.calls s.checkpointers + weight ClientPc.uncounted s.clients +
    if (s.checkpointers none).Forgets then 0 else s.transactionsSinceLastCheckpoint

def steps (s : Threads ι κ) : Nat := weight ClientPc.stepsLeft s.clients + weight CheckpointPc.stepsLeft s.checkpointers

def rank (s : Threads ι κ) : Nat ×ₗ Nat ×ₗ Nat := toLex (s.endings, toLex (s.rounds, s.steps))

theorem rank_lt : s'.rank < s.rank ↔
    s'.endings < s.endings ∨ s'.endings = s.endings ∧ (s'.rounds < s.rounds ∨ s'.rounds = s.rounds ∧ s'.steps < s.steps) := by
  simp only [rank, Prod.Lex.toLex_lt_toLex]

section
variable [DecidableEq κ]

/-- A thread that goes on in the same round. -/
theorem put_lower (busy : s.checkpointers thread ≠ .idle) (next : pc ≠ .idle)
    (forgets : pc.Forgets ↔ (s.checkpointers thread).Forgets) (less : pc.stepsLeft < (s.checkpointers thread).stepsLeft) :
    (s.put thread pc).rank < s.rank := by
  have calls : weight CheckpointPc.calls (s.put thread pc).checkpointers + _ = _ := weight_update thread pc
  have steps : weight CheckpointPc.stepsLeft (s.put thread pc).checkpointers + _ = _ := weight_update thread pc
  rw [CheckpointPc.calls_eq_one busy, CheckpointPc.calls_eq_one next] at calls
  have same : ((s.put thread pc).checkpointers none).Forgets ↔ (s.checkpointers none).Forgets := by
    by_cases first : thread = none
    · subst first
      rw [put_same]
      exact forgets
    · rw [put_other s pc (Ne.symm first)]
  refine rank_lt.mpr (Or.inr ⟨rfl, Or.inr ⟨?_, ?_⟩⟩)
  · have sum : weight CheckpointPc.calls (s.put thread pc).checkpointers = weight CheckpointPc.calls s.checkpointers := by omega
    simp only [rounds, same, sum]
    rfl
  · change weight ClientPc.stepsLeft s.clients + _ < weight ClientPc.stepsLeft s.clients + _
    omega

theorem flush_lower (inv : ThreadsInvariant s) (alive : s.destructor = .alive) (here : s.checkpointers thread = .flushes) :
    ({ s with session := s.session.checkpointed }.put thread (if thread = none then .readsExit else .idle)).notifyDone.rank < s.rank := by
  have endings : weight ClientPc.busy (fun i => (s.clients i).notified) = weight ClientPc.busy s.clients :=
    weight_congr fun i => by cases s.clients i <;> rfl
  have uncounted : weight ClientPc.uncounted (fun i => (s.clients i).notified) = weight ClientPc.uncounted s.clients :=
    weight_congr fun i => by cases s.clients i <;> rfl
  have calls : weight CheckpointPc.calls (s.put thread (if thread = none then .readsExit else .idle)).checkpointers + _ = _ :=
    weight_update thread _
  refine rank_lt.mpr (Or.inr ⟨endings, Or.inl ?_⟩)
  change weight CheckpointPc.calls (s.put thread (if thread = none then .readsExit else .idle)).checkpointers +
    weight ClientPc.uncounted (fun i => (s.clients i).notified) + (if ((s.put thread (if thread = none then .readsExit else .idle)).checkpointers none).Forgets then 0
      else s.transactionsSinceLastCheckpoint) < _
  rw [uncounted, rounds]
  rw [here] at calls
  by_cases first : thread = none
  · subst first
    -- the periodic thread only makes a checkpoint after five transactions
    have many := (inv.places none).due rfl (by rw [here]; trivial) (by
      by_contra closing
      exact inv.shutting.mp (by simpa using closing) alive)
    rw [if_pos rfl] at calls ⊢
    rw [put_same, here, if_pos (by trivial), if_neg (by simp)]
    simp only [CheckpointPc.calls] at calls
    omega
  · rw [if_neg first] at calls ⊢
    rw [put_other s .idle (Ne.symm first)]
    simp only [CheckpointPc.calls] at calls
    omega

theorem reset_lower (here : s.checkpointers none = .resets) :
    { s.put none .readsCount with transactionsSinceLastCheckpoint := 0 }.rank < s.rank := by
  have calls : weight CheckpointPc.calls (s.put none .readsCount).checkpointers + _ = _ := weight_update none _
  have steps : weight CheckpointPc.stepsLeft (s.put none .readsCount).checkpointers + _ = _ := weight_update none _
  rw [here] at calls steps
  simp only [CheckpointPc.calls, CheckpointPc.stepsLeft] at calls steps
  refine rank_lt.mpr (Or.inr ⟨rfl, Or.inr ⟨?_, ?_⟩⟩)
  · change weight CheckpointPc.calls (s.put none .readsCount).checkpointers + weight ClientPc.uncounted s.clients +
      (if ((s.put none .readsCount).checkpointers none).Forgets then 0 else 0) = _
    rw [ite_self, rounds, here, if_pos (show CheckpointPc.resets.Forgets from trivial)]
    omega
  · change weight ClientPc.stepsLeft s.clients + weight CheckpointPc.stepsLeft (s.put none .readsCount).checkpointers <
      weight ClientPc.stepsLeft s.clients + _
    omega

theorem checkpoint_lower (inv : ThreadsInvariant s) (alive : s.destructor = .alive) (run : s.checkpointStep thread = some s') :
    s'.rank < s.rank := by
  have place := inv.places thread
  have goesOn : s.shuttingDown = false := by
    by_contra closing
    exact inv.shutting.mp (by simpa using closing) alive
  have periodic : (s.checkpointers thread).Periodic → thread = none := by
    intro own
    by_contra caller
    exact (place.caller caller).1 own
  unfold checkpointStep at run
  split at run <;> rename_i here <;> rw [here] at place periodic
  · split at run
    · cases Option.some.inj run
      refine put_lower (by simp [here]) ?_ ?_ ?_ <;> split <;> simp_all [CheckpointPc.stepsLeft]
    · cases run
  · cases Option.some.inj run
    refine put_lower (by simp [here]) ?_ ?_ ?_ <;> split <;> simp_all [CheckpointPc.stepsLeft]
  · cases Option.some.inj run
    refine put_lower (by simp [here]) ?_ ?_ ?_ <;> split <;> simp_all [CheckpointPc.stepsLeft]
  · cases Option.some.inj run
    exact put_lower (by simp [here]) (by simp) (by simp [here])  (by simp [here, CheckpointPc.stepsLeft])
  · cases Option.some.inj run
    refine put_lower (s := { s with session := s.session.requested }) (by simp [here]) ?_ ?_ ?_ <;> split <;>
      simp_all [CheckpointPc.stepsLeft]
  · split at run
    · cases Option.some.inj run
      refine put_lower (by simp [here]) ?_ ?_ ?_ <;> split <;> simp_all [CheckpointPc.stepsLeft]
    · cases run
  · cases Option.some.inj run
    exact flush_lower inv alive here
  · cases Option.some.inj run
    refine put_lower (by simp [here]) ?_ ?_ ?_ <;> simp [goesOn, here, CheckpointPc.stepsLeft]
  · cases Option.some.inj run
    cases periodic trivial
    exact reset_lower here
  all_goals cases run

end

section
variable [DecidableEq ι]

/-- A client that goes on in its call. -/
theorem client_lower {i : ι} {place : ClientPc} {session : Session} {n : Nat} (busy : place.busy = (s.clients i).busy)
    (counted : place.uncounted + n ≤ (s.clients i).uncounted + s.transactionsSinceLastCheckpoint)
    (more : s.transactionsSinceLastCheckpoint ≤ n) (less : place.stepsLeft < (s.clients i).stepsLeft) :
    { s.client i place with session, transactionsSinceLastCheckpoint := n }.rank < s.rank := by
  have endings : weight ClientPc.busy (s.client i place).clients + _ = _ := weight_update i place
  have uncounted : weight ClientPc.uncounted (s.client i place).clients + _ = _ := weight_update i place
  have steps : weight ClientPc.stepsLeft (s.client i place).clients + _ = _ := weight_update i place
  have rounds : { s.client i place with session, transactionsSinceLastCheckpoint := n }.rounds ≤ s.rounds := by
    change weight CheckpointPc.calls s.checkpointers + weight ClientPc.uncounted (s.client i place).clients +
      (if (s.checkpointers none).Forgets then 0 else n) ≤ _
    unfold Threads.rounds
    split <;> omega
  refine rank_lt.mpr (Or.inr ⟨?_, rounds.lt_or_eq.imp_right fun same => ⟨same, ?_⟩⟩)
  · change weight ClientPc.busy (s.client i place).clients = weight ClientPc.busy s.clients
    omega
  · change weight ClientPc.stepsLeft (s.client i place).clients + weight CheckpointPc.stepsLeft s.checkpointers <
      weight ClientPc.stepsLeft s.clients + weight CheckpointPc.stepsLeft s.checkpointers
    omega

theorem finish_lower {i : ι} {txnId : Nat} {session : Session} (is : s.clients i = .running txnId) :
    { s.client i .idle with session }.notifyCheckpoint.rank < s.rank := by
  have endings : weight ClientPc.busy (s.client i .idle).clients + _ = _ := weight_update i _
  rw [is] at endings
  refine rank_lt.mpr (Or.inl ?_)
  change weight ClientPc.busy (s.client i .idle).clients < weight ClientPc.busy s.clients
  simp only [ClientPc.busy] at endings
  omega

end

variable [DecidableEq ι] [DecidableEq κ]

/-- Every step of a call that has been made leads closer to the end of all calls. -/
theorem lower (inv : ThreadsInvariant s) (alive : s.destructor = .alive) (move : s.Moves s') :
    (ThreadsInvariant s' ∧ s'.destructor = .alive) ∧ s'.rank < s.rank := by
  obtain ⟨op, own, run⟩ := move
  have proper : s.Proper op := by
    cases op <;> trivial
  have inv' := inv.step proper run
  cases op with
  | begin i =>
    simp only [Threads.step] at run
    split at run
    · rename_i is
      split at run
      · cases Option.some.inj run
        exact ⟨⟨inv', alive⟩, client_lower (by rw [is.2]; rfl) (by rw [is.2]; rfl) le_rfl (by simp [is.2, ClientPc.stepsLeft])⟩
      · cases Option.some.inj run
        exact ⟨⟨inv', alive⟩, client_lower (by rw [is.2]; rfl) (by rw [is.2]; rfl) le_rfl (by simp [is.2, ClientPc.stepsLeft])⟩
    · cases run
  | count i =>
    simp only [Threads.step] at run
    split at run
    · rename_i txnId is
      cases Option.some.inj run
      exact ⟨⟨inv', alive⟩, client_lower (by rw [is]; rfl) (by simp only [is, ClientPc.uncounted]; omega) (Nat.le_succ _)
        (by simp [is, ClientPc.stepsLeft])⟩
    · cases run
  | finish i how =>
    simp only [Threads.step] at run
    split at run
    · rename_i txnId is
      split at run
      · obtain ⟨session, done, rfl⟩ := Option.map_eq_some_iff.mp run
        exact ⟨⟨inv', alive⟩, finish_lower is⟩
      · cases run
    · cases run
  | checkpoint thread => exact ⟨⟨inv', (checkpointStep_destructor run).trans alive⟩, checkpoint_lower inv alive run⟩
  | destructor =>
    simp only [Threads.step, alive] at run
    cases run
  | call i | set i loc writeLength data evicted | evict pageLsn | callCheckpoint k | shutDown | wakeClient i | wakeCheckpoint thread =>
    cases own

instance (s : Threads ι κ) : (op : ThreadOp ι κ) → Decidable (s.Proper op)
  | .shutDown => inferInstanceAs (Decidable ((∀ i, s.clients i = .idle) ∧ ∀ k, s.checkpointers (some k) = .idle))
  | .call _ | .begin _ | .count _ | .set .. | .finish .. | .evict _ | .callCheckpoint _ | .checkpoint _ | .destructor | .wakeClient _
  | .wakeCheckpoint _ => isTrue trivial

def properRun (ops : List (ThreadOp Bool Unit)) : Threads Bool Unit :=
  (run Threads.step Threads.Proper (Threads.start .empty) ops).getD (Threads.start .empty)

/-- Whatever the schedule, the calls that have been made return, and no checkpoint that is due is
left out. -/
theorem calls_return {session : Session} (noTxns : session.openTxns = []) (idle : session.db.wal.activeTransactions = 0)
    (quiet : session.db.wal.checkpointPending = false) (reach : Reaches Threads.step Threads.Proper (Threads.start session) s)
    (alive : s.destructor = .alive) : Settles Moves AtRest s := by
  have inv := reaches_invariant noTxns idle quiet reach
  exact Settles.of_rank rank (fun s => ThreadsInvariant s ∧ s.destructor = .alive) (fun s holds => atRest_of_stuck holds.1 holds.2)
    (fun s s' holds => lower holds.1 holds.2) ⟨inv, alive⟩

end

/-- A transaction runs, a checkpoint waits for it, and another transaction waits for the checkpoint. -/
def waiting : List (ThreadOp Bool Unit) :=
  [.call false, .begin false, .callCheckpoint (), .checkpoint (some ()), .checkpoint (some ()), .call true, .begin true]

theorem calls_return_waiting : (properRun waiting).clients true = .sleeps ∧ (properRun waiting).checkpointers (some ()) = .drains ∧
    Settles Moves AtRest (properRun waiting) :=
  ⟨by decide, by decide, calls_return rfl rfl rfl (Reaches.of_isSome (by decide)) (by decide)⟩

/-- The program destroys the WAL when it has stopped using it, and no page is written back while a thread that checkpoints has the
mutex: the log that is then flushed again may have been truncated before. -/
def Orderly (s : Threads ι κ) : ThreadOp ι κ → Prop
  | .shutDown => s.Unused
  | .evict _ => s.walMutex = none
  | _ => True

theorem Orderly.proper {op : ThreadOp ι κ} (orderly : s.Orderly op) : s.Proper op := by
  cases op <;> first | exact orderly | trivial

/-- What the destructor has stored when it returns. -/
def Stored (s : Threads ι κ) : Prop :=
  s.destructor = .closed ∧ s.session.durable = s.session.db.pages ∧ s.session.db.wal.log = []

/-- Everything is in the data file behind the last checkpoint of the periodic thread. -/
structure Kept [Fintype ι] (s : Threads ι κ) : Prop extends ThreadsInvariant s where
  stored : (s.checkpointers none).Stored → s.session.durable = s.session.db.pages ∧ s.session.db.wal.log = []

section
variable [DecidableEq κ]

theorem checkpointStep_other {other : Option κ} (run : s.checkpointStep thread = some s') (different : other ≠ thread) :
    s'.checkpointers other = s.checkpointers other := by
  unfold checkpointStep at run
  split at run
  case h_1 | h_6 =>
    split at run <;> cases run
    exact put_other s _ different
  case h_2 | h_3 | h_4 | h_8 | h_9 =>
    cases Option.some.inj run
    exact put_other s _ different
  case h_5 | h_7 =>
    cases Option.some.inj run
    exact put_other _ _ different
  all_goals cases run

/-- The periodic thread gets to the end of its loop by a checkpoint. -/
theorem checkpointStep_stored (run : s.checkpointStep none = some s') (ends : (s'.checkpointers none).Stored) :
    s'.session = s.session.checkpointed ∨ (s.checkpointers none).Stored ∧ s'.session = s.session := by
  unfold checkpointStep at run
  split at run <;> rename_i here
  case h_7 =>
    cases Option.some.inj run
    exact Or.inl rfl
  case h_8 =>
    cases Option.some.inj run
    exact Or.inr ⟨by rw [here]; trivial, rfl⟩
  case h_1 | h_6 =>
    split at run <;> cases run
    simp only [drain, put_same] at ends
    split at ends <;> exact ends.elim
  case h_5 =>
    cases Option.some.inj run
    simp only [drain, put_same] at ends
    split at ends <;> exact ends.elim
  case h_2 | h_3 =>
    cases Option.some.inj run
    rw [put_same] at ends
    split at ends <;> exact ends.elim
  case h_4 =>
    cases Option.some.inj run
    rw [put_same] at ends
    exact ends.elim
  case h_9 =>
    cases Option.some.inj run
    change ((s.put none .readsCount).checkpointers none).Stored at ends
    rw [put_same] at ends
    exact ends.elim
  all_goals cases run

end

namespace Kept
variable [Fintype ι]

/-- A client or a reader finds the periodic thread elsewhere. -/
theorem away (kept : Kept s) (free : s.walMutex = none) (alive : s.destructor = .alive) : ¬ (s.checkpointers none).Stored := by
  intro ends
  cases at_ : s.checkpointers none with
  | readsExit =>
    refine kept.toThreadsInvariant.away free none ?_
    rw [at_]
    trivial
  | exited => exact (kept.places none).exited at_ alive
  | _ =>
    rw [at_] at ends
    exact ends.elim

variable [DecidableEq κ]

theorem checkpoint (kept : Kept s) (run : s.checkpointStep thread = some s') (ends : (s'.checkpointers none).Stored) :
    s'.session.durable = s'.session.db.pages ∧ s'.session.db.wal.log = [] := by
  cases thread with
  | none =>
    rcases checkpointStep_stored run ends with flushed | ⟨before, same⟩
    · rw [flushed]
      exact ⟨rfl, rfl⟩
    · rw [same]
      exact kept.stored before
  | some k =>
    rw [checkpointStep_other run (by simp)] at ends
    rcases checkpointStep_session run with same | asks | ⟨_, flushed⟩
    · rw [same]
      exact kept.stored ends
    · rw [asks]
      exact kept.stored ends
    · rw [flushed]
      exact ⟨rfl, rfl⟩

variable [DecidableEq ι]

theorem step (kept : Kept s) {op : ThreadOp ι κ} (orderly : s.Orderly op) (run : s.step op = some s') : Kept s' := by
  refine ⟨kept.toThreadsInvariant.step orderly.proper run, fun ends => ?_⟩
  cases op with
  | checkpoint thread => exact kept.checkpoint run ends
  | begin i =>
    simp only [Threads.step] at run
    split at run
    · rename_i is
      have busy := kept.alive (i := i) (by simp [is.2])
      split at run <;> cases Option.some.inj run <;> exact absurd ends (kept.away is.1 busy)
    · cases run
  | set i loc writeLength data evicted =>
    simp only [Threads.step] at run
    split at run
    · rename_i txnId is
      split at run
      · rename_i free
        obtain ⟨session, _, rfl⟩ := Option.map_eq_some_iff.mp run
        exact absurd ends (kept.away free (kept.alive (i := i) (by simp [is])))
      · cases run
    · cases run
  | finish i how =>
    simp only [Threads.step] at run
    split at run
    · rename_i txnId is
      split at run
      · rename_i free
        obtain ⟨session, _, rfl⟩ := Option.map_eq_some_iff.mp run
        exact absurd (CheckpointPc.notified_stored ends) (kept.away free (kept.alive (i := i) (by simp [is])))
      · cases run
    · cases run
  | evict pageLsn =>
    simp only [Threads.step] at run
    split at run
    · rename_i alive
      obtain ⟨session, _, rfl⟩ := Option.map_eq_some_iff.mp run
      exact absurd ends (kept.away orderly alive)
    · cases run
  | call i | count i | shutDown | wakeClient i =>
    simp only [Threads.step] at run
    repeat' split at run
    all_goals cases run
    all_goals exact kept.stored ends
  | callCheckpoint k =>
    simp only [Threads.step] at run
    split at run <;> cases run
    have other : none ≠ some k := by simp
    exact kept.stored ((congrArg CheckpointPc.Stored (put_other s .locks other)).mp ends)
  | destructor =>
    simp only [Threads.step] at run
    split at run
    · cases run
      exact kept.stored (CheckpointPc.notified_stored ends)
    · split at run <;> cases run
      exact kept.stored ends
    · cases run
  | wakeCheckpoint thread =>
    simp only [Threads.step] at run
    split at run <;> cases run
    refine kept.stored ?_
    by_cases first : thread = none
    · subst first
      exact CheckpointPc.notified_stored ((congrArg CheckpointPc.Stored (put_same s none _)).mp ends)
    · exact (congrArg CheckpointPc.Stored (put_other s _ (Ne.symm first))).mp ends

theorem reaches {session : Session} (noTxns : session.openTxns = []) (idle : session.db.wal.activeTransactions = 0)
    (quiet : session.db.wal.checkpointPending = false) (reach : Reaches Threads.step Threads.Orderly (Threads.start session) s) : Kept s :=
  reach.invariant ⟨start_invariant noTxns idle quiet, fun ends => by cases ends⟩ fun _ _ _ kept orderly run => kept.step orderly run

end Kept

/-- The destructor has notified the periodic thread, which does not sleep. -/
structure Closing [Fintype ι] (s : Threads ι κ) : Prop extends Kept s where
  notified : s.destructor = .joins ∨ s.destructor = .closed
  awake : s.checkpointers none ≠ .waits ∧ s.checkpointers none ≠ .sleeps

def closingRank (s : Threads ι κ) : Nat := if s.destructor = .closed then 0 else (s.checkpointers none).closing

namespace Closing
variable [Fintype ι]

theorem notAlive (closing : Closing s) : s.destructor ≠ .alive := by
  rcases closing.notified with is | is <;> simp [is]

theorem clients (closing : Closing s) (i : ι) : s.clients i = .idle :=
  closing.unused closing.notAlive i

theorem callers (closing : Closing s) (k : κ) : s.checkpointers (some k) = .idle :=
  ((closing.places (some k)).caller (by simp)).2 closing.notAlive

theorem opens (closing : Closing s) : s.session.openTxns = [] :=
  noOpen closing.toThreadsInvariant fun i => by rw [closing.clients i]; rfl

/-- Only the periodic thread has the mutex. -/
theorem free (closing : Closing s) (outside : ¬ (s.checkpointers none).Holds) : s.walMutex = none := by
  by_contra held
  obtain ⟨thread, owner⟩ := Option.ne_none_iff_exists'.mp held
  have holds := (closing.mutex thread).mp owner
  cases thread with
  | none => exact outside holds
  | some k =>
    rw [closing.callers k] at holds
    exact holds

theorem ended [DecidableEq ι] [DecidableEq κ] (closing : Closing s) (stuck : ∀ s', ¬ s.Moves s') : s.Stored := by
  have halts : ∀ op, Own op → s.step op = none := fun op own => Option.eq_none_iff_forall_ne_some.mpr fun s' run => stuck s' ⟨op, own, run⟩
  have exited : s.checkpointers none = .exited := by
    have run := halts (.checkpoint none) trivial
    have started := (closing.places none).started rfl
    have drains := (closing.places none).drains
    have opens := closing.opens
    have awake := closing.awake
    have free := closing.free
    simp only [Threads.step, checkpointStep] at run
    cases at_ : s.checkpointers none <;> simp_all
  have closed : s.destructor = .closed := by
    have run := halts .destructor trivial
    rcases closing.notified with is | is
    · simp [Threads.step, is, exited] at run
    · exact is
  exact ⟨closed, closing.stored (by rw [exited]; trivial)⟩

variable [DecidableEq κ]

/-- The periodic thread makes one more checkpoint and exits. -/
theorem checkpoint (closing : Closing s) (run : s.checkpointStep none = some s') :
    (s'.checkpointers none ≠ .waits ∧ s'.checkpointers none ≠ .sleeps) ∧
      (s'.checkpointers none).closing < (s.checkpointers none).closing := by
  have goesOn : s.shuttingDown = true := closing.shutting.mpr closing.notAlive
  have idle : ¬ 0 < s.session.db.wal.activeTransactions := by
    rw [closing.active, closing.opens]
    simp
  have awake := closing.awake
  have idle' : ¬ 0 < s.session.requested.db.wal.activeTransactions := idle
  unfold checkpointStep at run
  split at run <;> rename_i here
  case h_1 =>
    split at run
    · cases Option.some.inj run
      simp [put_same, here, CheckpointPc.closing]
    · cases run
  case h_2 =>
    cases Option.some.inj run
    rw [put_same, here]
    split <;> simp [CheckpointPc.closing]
  case h_3 =>
    cases Option.some.inj run
    simp [put_same, here, goesOn, CheckpointPc.closing]
  case h_4 => exact absurd here awake.1
  case h_5 =>
    cases Option.some.inj run
    simp [drain, put_same, here, idle', CheckpointPc.closing]
  case h_6 =>
    split at run
    · cases Option.some.inj run
      simp [drain, put_same, here, idle, CheckpointPc.closing]
    · cases run
  case h_7 =>
    cases Option.some.inj run
    simp [notifyDone, put_same, here, CheckpointPc.closing]
  case h_8 =>
    cases Option.some.inj run
    simp [put_same, here, goesOn, CheckpointPc.closing]
  case h_9 =>
    cases Option.some.inj run
    change (((s.put none .readsCount).checkpointers none) ≠ _ ∧ ((s.put none .readsCount).checkpointers none) ≠ _) ∧
      ((s.put none .readsCount).checkpointers none).closing < _
    simp [put_same, here, CheckpointPc.closing]
  all_goals cases run

theorem lower [DecidableEq ι] (closing : Closing s) (move : s.Moves s') : Closing s' ∧ s'.closingRank < s.closingRank := by
  obtain ⟨op, own, run⟩ := move
  have orderly : s.Orderly op := by
    cases op <;> trivial
  have kept := closing.toKept.step orderly run
  cases op with
  | begin i =>
    simp [Threads.step, closing.clients i] at run
  | count i =>
    simp [Threads.step, closing.clients i] at run
  | finish i how =>
    simp [Threads.step, closing.clients i] at run
  | checkpoint thread =>
    cases thread with
    | some k =>
      simp [Threads.step, checkpointStep, closing.callers k] at run
    | none =>
      obtain ⟨awake, less⟩ := closing.checkpoint run
      have same := checkpointStep_destructor run
      have joins : s.destructor ≠ .closed := by
        intro closed
        simp [Threads.step, checkpointStep, closing.closed closed] at run
      refine ⟨⟨kept, same ▸ closing.notified, awake⟩, ?_⟩
      rw [closingRank, closingRank, same, if_neg joins, if_neg joins]
      exact less
  | destructor =>
    simp only [Threads.step] at run
    rcases closing.notified with is | is
    · simp only [is] at run
      split at run
      · rename_i exited
        cases Option.some.inj run
        refine ⟨⟨kept, Or.inr rfl, closing.awake⟩, ?_⟩
        simp [closingRank, is, exited, CheckpointPc.closing]
      · cases run
    · simp only [is] at run
      cases run
  | call i | set i loc writeLength data evicted | evict pageLsn | callCheckpoint k | shutDown | wakeClient i | wakeCheckpoint thread =>
    cases own

end Closing

variable [DecidableEq ι] [DecidableEq κ]

/-- The destructor has notified the periodic thread before that has begun to wait. -/
structure Lost (s : Threads ι κ) : Prop where
  unused : s.Unused
  joins : s.destructor = .joins
  waits : s.checkpointers none = .waits ∨ s.checkpointers none = .sleeps

/-- Nobody wakes the periodic thread once the destructor joins it. -/
theorem Lost.asleep (lost : Lost s) (asleep : s.checkpointers none = .sleeps) (s' : Threads ι κ) : ¬ s.Moves s' := by
  rintro ⟨op, own, run⟩
  cases op with
  | begin i | count i | finish i how => simp [Threads.step, lost.unused.1 i] at run
  | checkpoint thread =>
    cases thread with
    | none => simp [Threads.step, checkpointStep, asleep] at run
    | some k => simp [Threads.step, checkpointStep, lost.unused.2 k] at run
  | destructor => simp [Threads.step, lost.joins, asleep] at run
  | call i | set i loc writeLength data evicted | evict pageLsn | callCheckpoint k | shutDown | wakeClient i | wakeCheckpoint thread =>
    cases own

/-- All that is left is to begin waiting. -/
theorem Lost.move (lost : Lost s) (move : s.Moves s') : Lost s' := by
  rcases lost.waits with waits | asleep
  · obtain ⟨op, own, run⟩ := move
    cases op with
    | begin i | count i | finish i how => simp [Threads.step, lost.unused.1 i] at run
    | checkpoint thread =>
      cases thread with
      | none =>
        simp only [Threads.step, checkpointStep, waits] at run
        cases Option.some.inj run
        exact ⟨⟨lost.unused.1, fun k => (put_other s _ (by simp)).trans (lost.unused.2 k)⟩, lost.joins, Or.inr (put_same s none _)⟩
      | some k => simp [Threads.step, checkpointStep, lost.unused.2 k] at run
    | destructor => simp [Threads.step, lost.joins, waits] at run
    | call i | set i loc writeLength data evicted | evict pageLsn | callCheckpoint k | shutDown | wakeClient i | wakeCheckpoint thread =>
      cases own
  · exact absurd move (lost.asleep asleep s')

theorem Lost.run (lost : Lost s) (run : Relation.ReflTransGen Moves s s') : Lost s' := by
  induction run with
  | refl => exact lost
  | tail _ moved ih => exact ih.move moved

theorem Lost.settles (lost : Lost s) : ¬ Settles Moves Stored s := by
  intro settles
  have asleep : ∃ s', Relation.ReflTransGen Moves s s' ∧ s'.checkpointers none = .sleeps := by
    rcases lost.waits with waits | asleep
    · refine ⟨s.put none .sleeps, .single ⟨.checkpoint none, trivial, ?_⟩, put_same s none _⟩
      simp only [Threads.step, checkpointStep, waits]
    · exact ⟨s, .refl, asleep⟩
  obtain ⟨s', run, asleep⟩ := asleep
  have ended := settles.ended run ((lost.run run).asleep asleep)
  cases (lost.run run).joins.symm.trans ended.1

/-- The destructor of the WAL returns unless it notifies the periodic thread when that has read its
flag and does not wait yet: then it joins the thread for ever. When it returns everything is in the data file. -/
theorem destructor_returns_iff [Fintype ι] {session : Session} (noTxns : session.openTxns = [])
    (idle : session.db.wal.activeTransactions = 0) (quiet : session.db.wal.checkpointPending = false)
    (reach : Reaches Threads.step Threads.Orderly (Threads.start session) s) (is : s.destructor = .notifies)
    (run : s.step .destructor = some s') : (Settles Moves Stored s' ↔ s.checkpointers none ≠ .waits) ∧
      (s.checkpointers none = .waits → ∀ s'', Relation.ReflTransGen Moves s' s'' → s''.destructor = .joins) := by
  have kept := Kept.reaches noTxns idle quiet reach
  have kept' := kept.step (show s.Orderly .destructor from trivial) run
  simp only [Threads.step, is] at run
  cases Option.some.inj run
  have unused : s.Unused := ⟨kept.unused (by simp [is]), fun k => ((kept.places (some k)).caller (by simp)).2 (by simp [is])⟩
  have lost : s.checkpointers none = .waits → Lost { s.notifyCheckpoint with destructor := .joins } := fun waits =>
    ⟨⟨unused.1, fun k => congrArg CheckpointPc.notified (unused.2 k)⟩, rfl, Or.inl (congrArg CheckpointPc.notified waits)⟩
  refine ⟨⟨fun settles waits => (lost waits).settles settles, fun caught => ?_⟩, fun waits _ later => ((lost waits).run later).joins⟩
  refine Settles.of_rank closingRank Closing (fun s closing => closing.ended) (fun s s' closing => closing.lower)
    ⟨kept', Or.inl rfl, ?_, (CheckpointPc.notified_awake _).1⟩
  change (s.checkpointers none).notified ≠ .waits
  cases at_ : s.checkpointers none <;> simp_all [CheckpointPc.notified]

instance [Fintype ι] [Fintype κ] (s : Threads ι κ) : (op : ThreadOp ι κ) → Decidable (s.Orderly op)
  | .shutDown => inferInstanceAs (Decidable ((∀ i, s.clients i = .idle) ∧ ∀ k, s.checkpointers (some k) = .idle))
  | .evict _ => inferInstanceAs (Decidable (s.walMutex = none))
  | .call _ | .begin _ | .count _ | .set .. | .finish .. | .callCheckpoint _ | .checkpoint _ | .destructor | .wakeClient _
  | .wakeCheckpoint _ => isTrue trivial

/-- The periodic thread has read that the WAL is in use, and is overtaken by the destructor. -/
def overtaken : Threads Bool Unit :=
  (run Threads.step Threads.Orderly (Threads.start .empty)
    [.evict 0, .checkpoint none, .checkpoint none, .checkpoint none, .shutDown]).getD (Threads.start .empty)

theorem destructor_returns_iff_overtaken : ∃ s', overtaken.step .destructor = some s' ∧ overtaken.checkpointers none = .waits ∧
    (Settles Moves Stored s' ↔ overtaken.checkpointers none ≠ .waits) ∧
      (overtaken.checkpointers none = .waits → ∀ s'', Relation.ReflTransGen Moves s' s'' → s''.destructor = .joins) :=
  ⟨_, rfl, by decide, destructor_returns_iff rfl rfl rfl (Reaches.of_isSome (by decide)) (by decide) rfl⟩

end Threads

end DiskMap
