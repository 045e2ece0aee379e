import DiskMap.Library.GuardedRun
import DiskMap.Library.SharedMutex
import Mathlib.Logic.Function.Basic

namespace DiskMap
open GuardedRun SharedMutex

/-- Where a `DiskMap::RWTransaction` or `DiskMap::ROTransaction` object is in its life. -/
inductive Phase
  | unborn
  /-- The constructor has the exclusive lock. -/
  | locked
  /-- The WAL transaction has begun. -/
  | running
  /-- `commit` or `abort` has finished the WAL transaction and is about to unlock. -/
  | ended
  | released
  /-- The destructor has destroyed `guard`, the member of the derived class, and not yet `tx`. -/
  | dropping
  /-- A `ROTransaction` with its shared lock. -/
  | reading
  | gone
  deriving DecidableEq, Repr

inductive LockOp
  | lock (tx : Nat)
  | begin (tx : Nat)
  | pageOp (tx : Nat)
  | walCommit (tx : Nat)
  | walAbort (tx : Nat)
  | unlock (tx : Nat)
  /-- `commit` or `abort` of a transaction that is finished: the unlocking throws. -/
  | finishAgain (tx : Nat)
  | destroyGuard (tx : Nat)
  | destroyTx (tx : Nat)
  | lockShared (tx : Nat)
  | read (tx : Nat)
  | destroyReader (tx : Nat)
  deriving DecidableEq, Repr

structure Transactions where
  globalLock : Lock Nat
  phase : Nat → Phase

namespace Transactions

def start : Transactions := ⟨free, fun _ => .unborn⟩

def advance (s : Transactions) (tx : Nat) (next : Phase) : Transactions :=
  { s with phase := Function.update s.phase tx next }

def step (s : Transactions) : LockOp → Option Transactions
  | .lock tx =>
    if s.phase tx = .unborn then
      (SharedMutex.lock s.globalLock tx).map fun m => { s.advance tx .locked with globalLock := m }
    else none
  | .begin tx => if s.phase tx = .locked then some (s.advance tx .running) else none
  | .pageOp tx => if s.phase tx = .running then some s else none
  | .walCommit tx => if s.phase tx = .running then some (s.advance tx .ended) else none
  | .walAbort tx => if s.phase tx = .running then some (s.advance tx .ended) else none
  | .unlock tx =>
    if s.phase tx = .ended then
      some { s.advance tx .released with globalLock := SharedMutex.unlock s.globalLock }
    else none
  | .finishAgain tx => if s.phase tx = .released then some s else none
  | .destroyGuard tx =>
    if s.phase tx = .running then
      some { s.advance tx .dropping with globalLock := SharedMutex.unlock s.globalLock }
    else if s.phase tx = .released then some (s.advance tx .gone)
    else none
  | .destroyTx tx => if s.phase tx = .dropping then some (s.advance tx .gone) else none
  | .lockShared tx =>
    if s.phase tx = .unborn then
      (SharedMutex.lockShared s.globalLock tx).map fun m => { s.advance tx .reading with globalLock := m }
    else none
  | .read tx => if s.phase tx = .reading then some s else none
  | .destroyReader tx =>
    if s.phase tx = .reading then
      some { s.advance tx .gone with globalLock := SharedMutex.unlockShared s.globalLock tx }
    else none

/-- The moves that a transaction object makes, with the step that makes each. -/
inductive Move : LockOp → Nat → Phase → Phase → Prop
  | lock (n : Nat) : Move (.lock n) n .unborn .locked
  | begin (n : Nat) : Move (.begin n) n .locked .running
  | walCommit (n : Nat) : Move (.walCommit n) n .running .ended
  | walAbort (n : Nat) : Move (.walAbort n) n .running .ended
  | unlock (n : Nat) : Move (.unlock n) n .ended .released
  | dropGuard (n : Nat) : Move (.destroyGuard n) n .running .dropping
  | dropFinished (n : Nat) : Move (.destroyGuard n) n .released .gone
  | dropTx (n : Nat) : Move (.destroyTx n) n .dropping .gone
  | lockShared (n : Nat) : Move (.lockShared n) n .unborn .reading
  | dropReader (n : Nat) : Move (.destroyReader n) n .reading .gone

/-- The WAL transaction is between its BEGIN and its COMMIT or ABORT_END. -/
def Open (s : Transactions) (tx : Nat) : Prop :=
  s.phase tx = .running ∨ s.phase tx = .dropping

def Exclusive (s : Transactions) : Prop :=
  ∀ tx tx', s.Open tx → s.Open tx' → tx = tx'

/-- The step leaves at most one WAL transaction open, and is no read while one is. -/
def SafeStep (s : Transactions) (op : LockOp) (s' : Transactions) : Prop :=
  Exclusive s' ∧ ∀ tx, op = .read tx → ∀ tx', ¬ s.Open tx'

/-- No transaction begins and no reader reads while a destructor that has released the lock has
not yet aborted its transaction. -/
def OutsideWindow (s : Transactions) : LockOp → Prop
  | .begin _ => ∀ tx', s.phase tx' ≠ .dropping
  | .read _ => ∀ tx', s.phase tx' ≠ .dropping
  | _ => True

/-- Every transaction object is committed or aborted before it is destroyed. -/
def EndedExplicitly (s : Transactions) : LockOp → Prop
  | .destroyGuard tx => s.phase tx ≠ .running
  | _ => True

/-- The phases agree with who holds the lock. -/
structure LockInvariant (s : Transactions) : Prop where
  wellFormed : WellFormed s.globalLock
  writer : ∀ tx, s.globalLock.writer = some tx ↔ s.phase tx = .locked ∨ s.phase tx = .running ∨ s.phase tx = .ended
  readers : ∀ tx, tx ∈ s.globalLock.readers ↔ s.phase tx = .reading

variable {s s' : Transactions} {tx : Nat} {next : Phase}

theorem advance_same : (s.advance tx next).phase tx = next := Function.update_self _ _ _

theorem advance_other {other : Nat} (different : other ≠ tx) : (s.advance tx next).phase other = s.phase other :=
  Function.update_of_ne different _ _

/-- A transaction moves on and the lock changes accordingly. -/
theorem LockInvariant.advance (inv : LockInvariant s) {m : Lock Nat} (wellFormed : WellFormed m)
    (writer : m.writer = some tx ↔ next = .locked ∨ next = .running ∨ next = .ended)
    (readers : tx ∈ m.readers ↔ next = .reading)
    (others : ∀ other, other ≠ tx → (m.writer = some other ↔ s.globalLock.writer = some other) ∧
      (other ∈ m.readers ↔ other ∈ s.globalLock.readers)) :
    LockInvariant { s.advance tx next with globalLock := m } := by
  refine ⟨wellFormed, fun other => ?_, fun other => ?_⟩
  · by_cases same : other = tx
    · subst same
      simpa only [advance_same] using writer
    · simp only [advance_other same, (others other same).1]
      exact inv.writer other
  · by_cases same : other = tx
    · subst same
      simpa only [advance_same] using readers
    · simp only [advance_other same, (others other same).2]
      exact inv.readers other

/-- A transaction moves on and the lock stays as it is. -/
theorem LockInvariant.keep (inv : LockInvariant s)
    (writer : (s.phase tx = .locked ∨ s.phase tx = .running ∨ s.phase tx = .ended) ↔
      (next = .locked ∨ next = .running ∨ next = .ended))
    (readers : s.phase tx = .reading ↔ next = .reading) : LockInvariant (s.advance tx next) :=
  inv.advance inv.wellFormed ((inv.writer tx).trans writer) ((inv.readers tx).trans readers) fun _ _ => ⟨.rfl, .rfl⟩

theorem LockInvariant.unlock (inv : LockInvariant s) (owner : s.globalLock.writer = some tx)
    (out : ¬ (next = .locked ∨ next = .running ∨ next = .ended)) (noReader : next ≠ .reading) :
    LockInvariant { s.advance tx next with globalLock := SharedMutex.unlock s.globalLock } := by
  have readers : s.globalLock.readers = [] := inv.wellFormed.exclusive.resolve_left (by simp [owner])
  refine inv.advance inv.wellFormed.unlock ?_ ?_ fun other different => ⟨?_, .rfl⟩
  · simp [SharedMutex.unlock, out]
  · simp [SharedMutex.unlock, readers, noReader]
  · simp [SharedMutex.unlock, owner, different.symm]

theorem LockInvariant.step (inv : LockInvariant s) {op : LockOp} (run : s.step op = some s') : LockInvariant s' := by
  cases op with
  | lock tx =>
    simp only [Transactions.step] at run
    split at run
    · obtain ⟨m, taken, rfl⟩ := Option.map_eq_some_iff.mp run
      have wellFormed := WellFormed.lock taken
      obtain ⟨writer, readers, rfl⟩ := lock_eq_some.mp taken
      refine inv.advance wellFormed (by simp) (by simp) fun other different => ⟨?_, ?_⟩
      · simp [writer, different.symm]
      · simp [readers]
    · cases run
  | begin tx =>
    simp only [Transactions.step] at run
    split at run
    · rename_i phase
      cases Option.some.inj run
      exact inv.keep (by simp [phase]) (by simp [phase])
    · cases run
  | pageOp tx =>
    simp only [Transactions.step] at run
    split at run
    · cases Option.some.inj run
      exact inv
    · cases run
  | walCommit tx =>
    simp only [Transactions.step] at run
    split at run
    · rename_i phase
      cases Option.some.inj run
      exact inv.keep (by simp [phase]) (by simp [phase])
    · cases run
  | walAbort tx =>
    simp only [Transactions.step] at run
    split at run
    · rename_i phase
      cases Option.some.inj run
      exact inv.keep (by simp [phase]) (by simp [phase])
    · cases run
  | unlock tx =>
    simp only [Transactions.step] at run
    split at run
    · rename_i phase
      cases Option.some.inj run
      exact inv.unlock ((inv.writer tx).mpr (by simp [phase])) (by simp) (by simp)
    · cases run
  | finishAgain tx =>
    simp only [Transactions.step] at run
    split at run
    · cases Option.some.inj run
      exact inv
    · cases run
  | destroyGuard tx =>
    simp only [Transactions.step] at run
    split at run
    · rename_i phase
      cases Option.some.inj run
      exact inv.unlock ((inv.writer tx).mpr (by simp [phase])) (by simp) (by simp)
    · split at run
      · rename_i phase
        cases Option.some.inj run
        exact inv.keep (by simp [phase]) (by simp [phase])
      · cases run
  | destroyTx tx =>
    simp only [Transactions.step] at run
    split at run
    · rename_i phase
      cases Option.some.inj run
      exact inv.keep (by simp [phase]) (by simp [phase])
    · cases run
  | lockShared tx =>
    simp only [Transactions.step] at run
    split at run
    · rename_i phase
      obtain ⟨m, taken, rfl⟩ := Option.map_eq_some_iff.mp run
      have new : tx ∉ s.globalLock.readers := fun member => by
        rw [(inv.readers tx).mp member] at phase
        cases phase
      have wellFormed := inv.wellFormed.lockShared new taken
      obtain ⟨writer, rfl⟩ := lockShared_eq_some.mp taken
      refine inv.advance wellFormed (by simp) (by simp) fun other different => ⟨?_, ?_⟩
      · simp [writer]
      · simp [different]
    · cases run
  | read tx =>
    simp only [Transactions.step] at run
    split at run
    · cases Option.some.inj run
      exact inv
    · cases run
  | destroyReader tx =>
    simp only [Transactions.step] at run
    split at run
    · rename_i phase
      cases Option.some.inj run
      refine inv.advance (inv.wellFormed.unlockShared tx) ?_ ?_ fun other different => ⟨.rfl, ?_⟩
      · have other := inv.writer tx
        simp only [phase] at other
        simpa [unlockShared] using other
      · simp [unlockShared, inv.wellFormed.nodup.mem_erase_iff]
      · exact List.mem_erase_of_ne different
    · cases run

theorem LockInvariant.start : LockInvariant start :=
  ⟨free_wellFormed, by simp [Transactions.start, free], by simp [Transactions.start, free]⟩

theorem step_move {op : LockOp} (run : s.step op = some s') :
    (s'.phase = s.phase ∧ ∀ tx, op ≠ .begin tx) ∨ ∃ tx next, s'.phase = Function.update s.phase tx next ∧
      Move op tx (s.phase tx) next := by
  cases op with
  | lock tx =>
    simp only [Transactions.step] at run
    split at run
    · rename_i phase
      obtain ⟨m, _, rfl⟩ := Option.map_eq_some_iff.mp run
      exact Or.inr ⟨tx, _, rfl, phase ▸ .lock tx⟩
    · cases run
  | lockShared tx =>
    simp only [Transactions.step] at run
    split at run
    · rename_i phase
      obtain ⟨m, _, rfl⟩ := Option.map_eq_some_iff.mp run
      exact Or.inr ⟨tx, _, rfl, phase ▸ .lockShared tx⟩
    · cases run
  | destroyGuard tx =>
    simp only [Transactions.step] at run
    split at run
    · rename_i phase
      cases Option.some.inj run
      exact Or.inr ⟨tx, _, rfl, phase ▸ .dropGuard tx⟩
    · split at run
      · rename_i phase
        cases Option.some.inj run
        exact Or.inr ⟨tx, _, rfl, phase ▸ .dropFinished tx⟩
      · cases run
  | _ tx =>
    simp only [Transactions.step] at run
    split at run
    · rename_i phase
      cases Option.some.inj run
      first
        | exact Or.inl ⟨rfl, by simp⟩
        | exact Or.inr ⟨tx, _, rfl, phase ▸ (by constructor)⟩
    · cases run

/-- No step opens a WAL transaction but the BEGIN of the step. -/
theorem open_step {op : LockOp} (run : s.step op = some s') {tx' : Nat} (opened : s'.Open tx') :
    s.Open tx' ∨ op = .begin tx' := by
  rcases step_move run with ⟨same, _⟩ | ⟨tx, next, phases, move⟩
  · exact Or.inl (by simpa only [Open, same] using opened)
  simp only [Open, phases] at opened
  by_cases mine : tx' = tx
  · subst mine
    rw [Function.update_self] at opened
    generalize phase : s.phase tx' = old at move
    cases move with
    | begin => exact Or.inr rfl
    | dropGuard => exact Or.inl (Or.inl phase)
    | _ => simp at opened
  · rw [Function.update_of_ne mine] at opened
    exact Or.inl opened

/-- Only the destruction of an unfinished transaction leads into a window. -/
theorem dropping_step {op : LockOp} (run : s.step op = some s') {tx' : Nat} (window : s'.phase tx' = .dropping) :
    s.phase tx' = .dropping ∨ op = .destroyGuard tx' ∧ s.phase tx' = .running := by
  rcases step_move run with ⟨same, _⟩ | ⟨tx, next, phases, move⟩
  · exact Or.inl (by rw [← same, window])
  rw [phases] at window
  by_cases mine : tx' = tx
  · subst mine
    rw [Function.update_self] at window
    subst window
    generalize phase : s.phase tx' = old at move
    cases move
    exact Or.inr ⟨rfl, rfl⟩
  · rw [Function.update_of_ne mine] at window
    exact Or.inl window

/-- The holder of the lock is the only transaction that has begun and not yet let go of the lock. -/
theorem LockInvariant.running_owner (inv : LockInvariant s) (owner : s.globalLock.writer = some tx) {tx' : Nat}
    (opened : s.Open tx') (window : s.phase tx' ≠ .dropping) : tx' = tx := by
  have owner' := (inv.writer tx').mpr (Or.inr (Or.inl (opened.resolve_right window)))
  rw [owner] at owner'
  exact (Option.some.inj owner').symm

/-- While no two transactions are open, a step is safe exactly outside the windows. -/
theorem safeStep_iff (inv : LockInvariant s) (exclusive : Exclusive s) {op : LockOp} (run : s.step op = some s') :
    SafeStep s op s' ↔ s.OutsideWindow op := by
  have quiet : (∀ tx, op ≠ .begin tx) → Exclusive s' := fun noBegin tx tx' opened opened' =>
    exclusive tx tx' ((open_step run opened).resolve_right (noBegin tx)) ((open_step run opened').resolve_right (noBegin tx'))
  cases op with
  | begin tx =>
    have next := run
    simp only [Transactions.step] at next
    split at next
    · rename_i phase
      cases Option.some.inj next
      have owner : s.globalLock.writer = some tx := (inv.writer tx).mpr (Or.inl phase)
      refine ⟨fun safe tx' window => ?_, fun outside => ⟨?_, by simp⟩⟩
      · have different : tx' ≠ tx := by
          rintro rfl
          rw [phase] at window
          cases window
        refine different (safe.1 tx' tx (Or.inr ?_) (Or.inl advance_same))
        rw [advance_other different, window]
      · have mine : ∀ tx', (s.advance tx .running).Open tx' → tx' = tx := by
          intro tx' opened
          rcases open_step run opened with before | same
          · exact inv.running_owner owner before (outside tx')
          · exact (LockOp.begin.inj same).symm
        exact fun tx' tx'' opened opened' => (mine tx' opened).trans (mine tx'' opened').symm
    · cases next
  | read tx =>
    have next := run
    simp only [Transactions.step] at next
    split at next
    · rename_i phase
      cases Option.some.inj next
      refine ⟨fun safe tx' window => safe.2 tx rfl tx' (Or.inr window), fun outside => ⟨exclusive, ?_⟩⟩
      intro _ _ tx' opened
      have owner := (inv.writer tx').mpr (Or.inr (Or.inl (opened.resolve_right (outside tx'))))
      have reader := (inv.readers tx).mpr phase
      rw [inv.wellFormed.exclusive.resolve_left (by simp [owner])] at reader
      cases reader
    · cases next
  | _ => exact ⟨fun _ => trivial, fun _ => ⟨quiet (by simp), by simp⟩⟩

/-- The lifetimes of WAL transactions stay apart while no transaction begins or is read past an
unfinished destructor, and the first step that does so makes them overlap. -/
theorem exclusive_iff (reach : Reaches step OutsideWindow start s) :
    Exclusive s ∧ ∀ op s', s.step op = some s' → (SafeStep s op s' ↔ s.OutsideWindow op) := by
  have inv : LockInvariant s ∧ Exclusive s := by
    refine reach.invariant (P := fun s => LockInvariant s ∧ Exclusive s) ⟨.start, fun tx tx' opened => ?_⟩ fun s op s' inv admitted run => ?_
    · rcases opened with running | dropping
      · cases running
      · cases dropping
    · exact ⟨inv.1.step run, ((safeStep_iff inv.1 inv.2 run).mpr admitted).1⟩
  exact ⟨inv.2, fun op s' run => safeStep_iff inv.1 inv.2 run⟩

/-- There is no such window where every transaction is committed or aborted before it is destroyed. -/
theorem outsideWindow_of_endedExplicitly (reach : Reaches step EndedExplicitly start s) :
    Reaches step OutsideWindow start s ∧ ∀ op, s.OutsideWindow op := by
  have none_ : ∀ s : Transactions, (∀ tx, s.phase tx ≠ .dropping) → ∀ op, s.OutsideWindow op := by
    intro s noWindow op
    cases op with
    | begin tx => exact noWindow
    | read tx => exact noWindow
    | _ => trivial
  have both : Reaches step OutsideWindow start s ∧ ∀ tx, s.phase tx ≠ .dropping := by
    refine reach.invariant (P := fun s => Reaches step OutsideWindow start s ∧ ∀ tx, s.phase tx ≠ .dropping)
      ⟨.init, fun _ => by simp [start]⟩ fun s op s' inv admitted run => ?_
    refine ⟨inv.1.next (none_ s inv.2 op) run, fun tx' window => ?_⟩
    rcases dropping_step run window with before | ⟨rfl, running⟩
    · exact inv.2 tx' before
    · exact admitted running
  exact ⟨both.1, none_ s both.2⟩

instance (s : Transactions) : (op : LockOp) → Decidable (s.EndedExplicitly op)
  | .destroyGuard tx => inferInstanceAs (Decidable (s.phase tx ≠ .running))
  | .lock _ | .begin _ | .pageOp _ | .walCommit _ | .walAbort _ | .unlock _ | .finishAgain _ | .destroyTx _
  | .lockShared _ | .read _ | .destroyReader _ => isTrue trivial

/-- A writer that commits, and a reader after it. -/
def writerThenReader : Transactions :=
  (run step EndedExplicitly start [.lock 0, .begin 0, .pageOp 0, .walCommit 0, .unlock 0, .lockShared 1, .read 1]).getD
    start

theorem exclusive_iff_writerThenReader : Exclusive writerThenReader ∧
    ∀ op s', writerThenReader.step op = some s' → (SafeStep writerThenReader op s' ↔ writerThenReader.OutsideWindow op) :=
  exclusive_iff (outsideWindow_of_endedExplicitly (.of_isSome (by decide))).1

/-- The destructor unlocks before it aborts: another transaction begins in between. -/
theorem implicit_destructor_overlaps :
    ¬ ∀ s, Reaches step (fun _ _ => True) start s → Exclusive s ∧
      ∀ op s', s.step op = some s' → SafeStep s op s' := by
  intro claim
  have reach : Reaches step (fun _ _ => True) start ((run step (fun _ _ => True) start
      [.lock 0, .begin 0, .pageOp 0, .destroyGuard 0, .lock 1, .begin 1]).getD start) := .of_isSome (by decide)
  have same := (claim _ reach).1 0 1 (Or.inr rfl) (Or.inl rfl)
  cases same

end Transactions

end DiskMap
