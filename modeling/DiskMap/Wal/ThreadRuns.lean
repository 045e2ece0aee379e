import DiskMap.Wal.Threads

namespace DiskMap
open ByteMemory Database GuardedRun Schedules

namespace Threads
variable {ι κ : Type} {s s' : Threads ι κ}

/-- A WAL that has been constructed. -/
theorem start_invariant [Fintype ι] {session : Session} (noTxns : session.openTxns = []) (idle : session.db.wal.activeTransactions = 0)
    (quiet : session.db.wal.checkpointPending = false) : ThreadsInvariant (Threads.start session : Threads ι κ) where
  mutex thread := by cases thread <;> simp [Threads.start]
  places thread := by cases thread <;> constructor <;> simp_all [Threads.start]
  asked pending := absurd (quiet.symm.trans pending) (by simp)
  txns id := by
    refine Eq.trans ?_ (weight_eq_zero.mpr fun i => rfl).symm
    change session.openTxns.count id = 0
    rw [noTxns]
    rfl
  active := by
    change session.db.wal.activeTransactions = session.openTxns.length
    rw [idle, noTxns]
    rfl
  sleeps _ asleep := by cases asleep
  shutting := by simp [Threads.start]
  unused closing := absurd rfl closing
  closed closed := by cases closed

theorem noTxn [Fintype ι] (inv : ThreadsInvariant s) (opens : s.session.openTxns = []) (i : ι) :
    (s.clients i).txn = none := by
  cases is : (s.clients i).txn with
  | none => rfl
  | some id =>
    have none := inv.txns id
    rw [opens, List.count_nil] at none
    have here := weight_eq_zero.mp none.symm i
    simp [ClientPc.hasTxn, is] at here

/-- The transaction of a running client is open. -/
theorem running_open [Fintype ι] (inv : ThreadsInvariant s) {i : ι} {txnId : Nat} (running : s.clients i = .running txnId) :
    txnId ∈ s.session.openTxns := by
  rw [← List.count_pos_iff, inv.txns, weight_pos]
  exact ⟨i, by simp [ClientPc.hasTxn, running, ClientPc.txn]⟩

theorem Isolated.proper {op : ThreadOp ι κ} (isolated : s.Isolated op) : s.Proper op := by
  cases op <;> trivial

/-- Transactions that write while no other one is open, and commit. -/
def Lone (s : Threads ι κ) : ThreadOp ι κ → Prop
  | .set _ loc writeLength data _ => s.session.openTxns.length ≤ 1 ∧ InsidePage loc writeLength data
  | .finish _ (.abort _) | .shutDown => False
  | _ => True

instance (s : Threads ι κ) : (op : ThreadOp ι κ) → Decidable (s.Lone op)
  | .set _ loc writeLength data _ => inferInstanceAs (Decidable (s.session.openTxns.length ≤ 1 ∧ InsidePage loc writeLength data))
  | .finish _ (.abort _) | .shutDown => isFalse id
  | .call _ | .begin _ | .count _ | .finish _ .commit | .evict _ | .callCheckpoint _ | .checkpoint _ | .destructor | .wakeClient _
  | .wakeCheckpoint _ => isTrue trivial

theorem Lone.isolated [Fintype ι] (inv : ThreadsInvariant s) {op : ThreadOp ι κ} (lone : s.Lone op) : s.Isolated op := by
  cases op with
  | set i loc writeLength data evicted =>
    intro txnId running
    have opened := running_open inv running
    obtain ⟨only, shape⟩ := List.length_eq_one_iff.mp (lone.1.antisymm (List.length_pos_of_mem opened))
    refine ⟨opened, lone.2, fun a _ _ id other different => ?_⟩
    rw [shape, List.mem_singleton] at opened other
    exact absurd (other.trans opened.symm) different
  | finish i how =>
    cases how with
    | commit => exact fun txnId running => running_open inv running
    | abort evicted => exact lone.elim
  | shutDown => exact lone.elim
  | call i | begin i | count i | evict pageLsn | callCheckpoint k | checkpoint thread | destructor | wakeClient i | wakeCheckpoint thread =>
    trivial

variable [DecidableEq κ]

/-- A thread that checkpoints asks for it, flushes, or does nothing to the session. -/
theorem checkpointStep_session {thread : Option κ} (run : s.checkpointStep thread = some s') : s'.session = s.session ∨
    s'.session = s.session.requested ∨ s.checkpointers thread = .flushes ∧ s'.session = s.session.checkpointed := by
  unfold checkpointStep at run
  split at run
  case h_1 | h_6 =>
    split at run
    · cases Option.some.inj run
      exact Or.inl rfl
    · cases run
  case h_5 =>
    cases Option.some.inj run
    exact Or.inr (Or.inl rfl)
  case h_7 here =>
    cases Option.some.inj run
    exact Or.inr (Or.inr ⟨here, rfl⟩)
  case h_2 | h_3 | h_4 | h_8 | h_9 =>
    cases Option.some.inj run
    exact Or.inl rfl
  all_goals cases run

variable [DecidableEq ι]

theorem reaches_invariant [Fintype ι] {session : Session} (noTxns : session.openTxns = []) (idle : session.db.wal.activeTransactions = 0)
    (quiet : session.db.wal.checkpointPending = false) (reach : Reaches Threads.step Threads.Proper (Threads.start session) s) :
    ThreadsInvariant s :=
  reach.invariant (start_invariant noTxns idle quiet) fun _ _ _ inv proper run => inv.step proper run

/-- A step of a thread is under way, or none is. The states before and after a flush of a
checkpoint stand for themselves. -/
def During (s s' : Threads ι κ) : Prop :=
  s' = s ∨ ∃ op, s.Isolated op ∧ (∀ thread, op = .checkpoint thread → s.checkpointers thread ≠ .flushes) ∧ s.step op = some s'

/-- A step of a thread is at most one of the session, but for the flush. -/
theorem step_session {op : ThreadOp ι κ} (isolated : s.Isolated op) (run : s.step op = some s') :
    s'.session = s.session ∨ (∃ walOp, IsolatedCall s.session walOp ∧ walOp ≠ .checkpoint ∧ s.session.step walOp = some s'.session) ∨
      ∃ thread, op = .checkpoint thread ∧ s.checkpointers thread = .flushes ∧ s'.session = s.session.checkpointed := by
  cases op with
  | begin i =>
    simp only [Threads.step] at run
    split at run
    · split at run
      · rename_i txnId db began
        cases Option.some.inj run
        exact Or.inr (Or.inl ⟨.begin, trivial, by simp, by simp only [Session.step, began]⟩)
      · cases Option.some.inj run
        exact Or.inl rfl
    · cases run
  | set i loc writeLength data evicted =>
    simp only [Threads.step] at run
    split at run
    · rename_i txnId is
      split at run
      · obtain ⟨session, done, rfl⟩ := Option.map_eq_some_iff.mp run
        exact Or.inr (Or.inl ⟨_, isolated txnId is, by simp, done⟩)
      · cases run
    · cases run
  | finish i how =>
    simp only [Threads.step] at run
    split at run
    · rename_i txnId is
      split at run
      · obtain ⟨session, done, rfl⟩ := Option.map_eq_some_iff.mp run
        exact Or.inr (Or.inl ⟨_, isolated txnId is, by cases how <;> simp [Finish.walOp], done⟩)
      · cases run
    · cases run
  | evict pageLsn =>
    simp only [Threads.step] at run
    split at run
    · obtain ⟨session, done, rfl⟩ := Option.map_eq_some_iff.mp run
      exact Or.inr (Or.inl ⟨.evict pageLsn, trivial, by simp, done⟩)
    · cases run
  | checkpoint thread =>
    rcases checkpointStep_session run with same | asks | ⟨here, flushed⟩
    · exact Or.inl same
    · exact Or.inr (Or.inl ⟨.requestCheckpoint, trivial, by simp, congrArg some asks.symm⟩)
    · exact Or.inr (Or.inr ⟨thread, rfl, here, flushed⟩)
  | call i | count i | callCheckpoint k | shutDown | destructor | wakeClient i | wakeCheckpoint thread =>
    refine Or.inl ?_
    simp only [Threads.step] at run
    repeat' split at run
    all_goals cases run
    all_goals rfl

/-- Without open transactions the flush of a checkpoint is two calls of the session. -/
theorem checkpointed_reaches {session s : Session} (reach : Reaches Session.step IsolatedCall session s)
    (idle : s.db.wal.activeTransactions ≤ 0) : Reaches Session.step IsolatedCall session s.checkpointed := by
  have asked : Reaches Session.step IsolatedCall session s.requested := reach.call .requestCheckpoint rfl trivial
  refine asked.call .checkpoint ?_ trivial
  have now : s.requested.db.wal.checkpointPending = true ∧ s.requested.db.wal.activeTransactions ≤ 0 := ⟨rfl, idle⟩
  simp only [Session.step, if_pos now]
  rfl

section
variable [Fintype ι] {session : Session}

theorem reaches_session (noTxns : session.openTxns = []) (idle : session.db.wal.activeTransactions = 0)
    (quiet : session.db.wal.checkpointPending = false) (reach : Reaches Threads.step Threads.Isolated (Threads.start session) s) :
    ThreadsInvariant s ∧ Reaches Session.step IsolatedCall session s.session := by
  refine reach.invariant (P := fun s => ThreadsInvariant s ∧ Reaches Session.step IsolatedCall session s.session)
    ⟨start_invariant noTxns idle quiet, .init⟩ fun s op s' so_far isolated run => ?_
  obtain ⟨inv, reached⟩ := so_far
  refine ⟨inv.step isolated.proper run, ?_⟩
  rcases step_session isolated run with same | ⟨walOp, call, _, done⟩ | ⟨thread, _, here, flushed⟩
  · rw [same]
    exact reached
  · exact reached.next call done
  · rw [flushed]
    refine checkpointed_reaches reached ?_
    rw [inv.active, (inv.places thread).flushes here]
    exact le_rfl

end

/-- Two clients and a caller of `checkpoint`, who waits for both transactions. -/
def drained : List (ThreadOp Bool Unit) :=
  [.call false, .begin false, .call true, .begin true, .count true, .count false, .callCheckpoint (), .checkpoint (some ()),
    .checkpoint (some ()), .finish true .commit, .set false 0 1 [1] none, .finish false .commit, .checkpoint (some ())]

section
variable [Fintype ι] {session : Session}

end

end Threads

end DiskMap
