import DiskMap.GlobalLock
import DiskMap.MapSessions

namespace DiskMap
open ByteMemory Database GuardedRun Transactions

/-- Steps of `DiskMap::RWTransaction` and `DiskMap::ROTransaction` objects, and of the WAL beside them. No object is committed or
aborted again after it has finished: the WAL would log that without the lock. -/
inductive TransactionOp
  | lock (tx : Nat)
  | begin (tx : Nat)
  | write (tx page offset length : Nat) (bytes : List UInt8) (evicted : Option Nat)
  | returns (tx : Nat) (beyond : Mem) (call : Call)
  | commit (tx : Nat)
  | abort (tx : Nat) (evicted : Nat → Option Nat)
  | unlock (tx : Nat)
  | destroyGuard (tx : Nat)
  /-- The destructor of a WAL transaction aborts it. -/
  | destroyTx (tx : Nat) (evicted : Nat → Option Nat)
  | lockShared (tx : Nat)
  | read (tx : Nat)
  | destroyReader (tx : Nat)
  | evict (pageLsn : Nat)
  | requestCheckpoint
  | checkpoint

namespace TransactionOp

/-- What the step does to the object. -/
def lockOp : TransactionOp → Option LockOp
  | lock tx => some (.lock tx)
  | begin tx => some (.begin tx)
  | write tx _ _ _ _ _ => some (.pageOp tx)
  | returns tx _ _ => some (.pageOp tx)
  | commit tx => some (.walCommit tx)
  | abort tx _ => some (.walAbort tx)
  | unlock tx => some (.unlock tx)
  | destroyGuard tx => some (.destroyGuard tx)
  | destroyTx tx _ => some (.destroyTx tx)
  | lockShared tx => some (.lockShared tx)
  | read tx => some (.read tx)
  | destroyReader tx => some (.destroyReader tx)
  | _ => none

/-- What it does to the map. -/
def mapOp : TransactionOp → Option MapOp
  | begin _ => some .begin
  | write _ page offset length bytes evicted => some (.write page offset length bytes evicted)
  | returns _ beyond call => some (.returns beyond call)
  | commit _ => some .commit
  | abort _ evicted => some (.abort evicted)
  | destroyTx _ evicted => some (.abort evicted)
  | evict pageLsn => some (.evict pageLsn)
  | requestCheckpoint => some .requestCheckpoint
  | checkpoint => some .checkpoint
  | _ => none

/-- The object whose constructor takes the lock. -/
def locks : TransactionOp → Option Nat
  | lock tx => some tx
  | lockShared tx => some tx
  | _ => none

end TransactionOp

/-- The objects of a `DiskMap` and its map. `found` is the map as each object has found it when it took the lock. -/
structure MapTransactions where
  objects : Transactions
  map : MapSession
  found : Nat → MapSession

namespace MapTransactions

def start (map : MapSession) : MapTransactions where
  objects := Transactions.start
  map
  found _ := map

def onObjects (s : MapTransactions) (op : TransactionOp) : Option Transactions :=
  match op.lockOp with
  | some lockOp => s.objects.step lockOp
  | none => some s.objects

def onMap (s : MapTransactions) (op : TransactionOp) : Option MapSession :=
  match op.mapOp with
  | some mapOp => s.map.step mapOp
  | none => some s.map

def step (s : MapTransactions) (op : TransactionOp) : Option MapTransactions :=
  match s.onObjects op, s.onMap op with
  | some objects, some map =>
    some { objects, map, found := op.locks.elim s.found fun tx => Function.update s.found tx s.map }
  | _, _ => none

/-- The calls are ones that the map admits, and return between the writes of their programs. Nothing begins or reads while
the destructor of an unfinished transaction has given up its lock and not yet aborted. -/
def Admits (c : Contents) (s : MapTransactions) (op : TransactionOp) : Prop :=
  (∀ lockOp, op.lockOp = some lockOp → s.objects.OutsideWindow lockOp) ∧
    ∀ mapOp, op.mapOp = some mapOp → mapOp ≠ .begin → s.map.Allowed c mapOp

end MapTransactions

namespace MapSession
variable {s s' : MapSession} {op : MapOp}

/-- Only a commit changes what is stored. -/
theorem step_stored (run : s.step op = some s') (other : op ≠ .commit) : s'.stored = s.stored ∧ s'.committed = s.committed := by
  by_cases call : ∃ beyond call, op = .returns beyond call
  · obtain ⟨beyond, call, rfl⟩ := call
    unfold step at run
    dsimp only at run
    split at run
    · cases Option.some.inj run
      exact ⟨rfl, rfl⟩
    · cases run
  · obtain ⟨walOp, session, _, _, rfl⟩ := step_wal (fun beyond call_ same => call ⟨beyond, call_, same⟩) run
    cases op with
    | commit => exact absurd rfl other
    | _ => exact ⟨rfl, rfl⟩

/-- Whether a transaction is open after a step. -/
def OpenedBy (s s' : MapSession) : MapOp → Prop
  | .begin => s'.session.openTxns ≠ []
  | .commit | .abort _ => s'.session.openTxns = []
  | _ => s'.session.openTxns = s.session.openTxns

theorem step_opened (order : SerialOrder s.session) (run : s.step op = some s') : s.OpenedBy s' op := by
  by_cases call : ∃ beyond call, op = .returns beyond call
  · obtain ⟨beyond, call, rfl⟩ := call
    unfold step at run
    dsimp only at run
    split at run
    · cases Option.some.inj run
      exact (rfl : s.session.openTxns = s.session.openTxns)
    · cases run
  obtain ⟨walOp, session, is, done, rfl⟩ := step_wal (fun beyond call_ same => call ⟨beyond, call_, same⟩) run
  obtain ⟨add, _, effect⟩ := Session.step_appends done
  cases op with
  | returns beyond call_ => exact absurd ⟨beyond, call_, rfl⟩ call
  | begin =>
    cases Option.some.inj is
    cases effect with
    | begin opens =>
      change session.openTxns ≠ []
      rw [opens]
      exact List.cons_ne_nil _ _
    | other kind => simp at kind
  | write page offset length bytes evicted =>
    obtain ⟨txnId, _, rfl⟩ := mem_of_head is
    cases effect with
    | set opens => exact opens
    | other kind => simp at kind
  | commit =>
    obtain ⟨txnId, opened, rfl⟩ := mem_of_head is
    cases effect with
    | commit opens => exact opens.trans (erase_only order.single opened)
    | other kind => simp at kind
  | abort evicted =>
    obtain ⟨txnId, opened, rfl⟩ := mem_of_head is
    cases effect with
    | abort opens => exact opens.trans (erase_only order.single opened)
    | other kind => simp at kind
  | evict pageLsn =>
    cases Option.some.inj is
    cases effect with
    | other _ opens => exact opens
  | requestCheckpoint =>
    cases Option.some.inj is
    cases effect with
    | other _ opens => exact opens
  | checkpoint =>
    cases Option.some.inj is
    cases effect with
    | other _ opens => exact opens

end MapSession

namespace Transactions
variable {s s' : Transactions} {lockOp : LockOp} {tx tx' : Nat}

/-- The object has the lock and is not finished. -/
def Inside (s : Transactions) (tx : Nat) : Prop :=
  s.phase tx = .locked ∨ s.phase tx = .running ∨ s.phase tx = .reading

theorem inside_step (run : s.step lockOp = some s') (inside : s'.Inside tx') :
    s.Inside tx' ∨ lockOp = .lock tx' ∨ lockOp = .lockShared tx' := by
  rcases step_move run with ⟨same, _⟩ | ⟨tx, next, phases, move⟩
  · rw [Inside, same] at inside
    exact Or.inl inside
  · rw [Inside, phases] at inside
    by_cases mine : tx' = tx
    · subst mine
      rw [Function.update_self] at inside
      generalize phase : s.phase tx' = old at move
      cases move with
      | lock => exact Or.inr (Or.inl rfl)
      | lockShared => exact Or.inr (Or.inr rfl)
      | begin => exact Or.inl (Or.inl phase)
      | _ => simp at inside
    · rw [Function.update_of_ne mine] at inside
      exact Or.inl inside

/-- Steps other than `begin` and the end of a WAL transaction leave it open, or not. -/
theorem open_kept (run : s.step lockOp = some s') (begins : ∀ tx, lockOp ≠ .begin tx) (commits : ∀ tx, lockOp ≠ .walCommit tx)
    (aborts : ∀ tx, lockOp ≠ .walAbort tx) (drops : ∀ tx, lockOp ≠ .destroyTx tx) : s'.Open tx' ↔ s.Open tx' := by
  rcases step_move run with ⟨same, _⟩ | ⟨tx, next, phases, move⟩
  · rw [Open, Open, same]
  · rw [Open, Open, phases]
    by_cases mine : tx' = tx
    · subst mine
      rw [Function.update_self]
      generalize s.phase tx' = old at move
      cases move with
      | begin => exact absurd rfl (begins _)
      | walCommit => exact absurd rfl (commits _)
      | walAbort => exact absurd rfl (aborts _)
      | dropTx => exact absurd rfl (drops _)
      | _ => simp
    · rw [Function.update_of_ne mine]

/-- An object whose WAL transaction has ended is not open, nor is any other. -/
theorem advance_closed {next : Phase} (exclusive : Exclusive s) (opened : s.Open tx) (closes : next = .ended ∨ next = .gone) :
    ¬ (s.advance tx next).Open tx' := by
  by_cases mine : tx' = tx
  · subst mine
    rw [Open, advance_same]
    rcases closes with rfl | rfl <;> simp
  · rw [Open, advance_other mine]
    exact fun opened' => mine (exclusive tx' tx opened' opened)

theorem open_closed (run : s.step lockOp = some s') (exclusive : Exclusive s)
    (closes : lockOp = .walCommit tx ∨ lockOp = .walAbort tx ∨ lockOp = .destroyTx tx) : ¬ s'.Open tx' := by
  rcases closes with rfl | rfl | rfl
  · simp only [step] at run
    split at run
    · rename_i phase
      cases Option.some.inj run
      exact advance_closed exclusive (Or.inl phase) (Or.inl rfl)
    · cases run
  · simp only [step] at run
    split at run
    · rename_i phase
      cases Option.some.inj run
      exact advance_closed exclusive (Or.inl phase) (Or.inl rfl)
    · cases run
  · simp only [step] at run
    split at run
    · rename_i phase
      cases Option.some.inj run
      exact advance_closed exclusive (Or.inr phase) (Or.inr rfl)
    · cases run

/-- While a transaction is running, no other object is inside. -/
theorem LockInvariant.alone (inv : LockInvariant s) (running : s.phase tx = .running) (inside : s.Inside tx') : tx' = tx := by
  have owner := (inv.writer tx).mpr (Or.inr (Or.inl running))
  rcases inside with locked | running' | reading
  · exact Option.some.inj (((inv.writer tx').mpr (Or.inl locked)).symm.trans owner)
  · exact Option.some.inj (((inv.writer tx').mpr (Or.inr (Or.inl running'))).symm.trans owner)
  · have reader := (inv.readers tx').mpr reading
    rw [inv.wellFormed.exclusive.resolve_left (by simp [owner])] at reader
    cases reader

/-- A reader finds no transaction open, unless a destructor has left one behind. -/
theorem LockInvariant.reading_closed (inv : LockInvariant s) (reading : s.phase tx = .reading)
    (outside : ∀ tx', s.phase tx' ≠ .dropping) : ¬ s.Open tx' := by
  intro opened
  have running := opened.resolve_right (outside tx')
  have same := inv.alone running (Or.inr (Or.inr reading) : s.Inside tx)
  rw [same, running] at reading
  cases reading

/-- Who has locked the mutex exclusively is alone, unless a destructor has left a transaction behind. -/
theorem LockInvariant.locked_closed (inv : LockInvariant s) (locked : s.phase tx = .locked)
    (outside : ∀ tx', s.phase tx' ≠ .dropping) : ¬ s.Open tx' := by
  intro opened
  have running := opened.resolve_right (outside tx')
  have same := inv.alone running (Or.inl locked : s.Inside tx)
  rw [same, running] at locked
  cases locked

end Transactions

namespace MapTransactions
variable {c : Contents} {first : Session} {t : Tx} {s s' : MapTransactions} {op : TransactionOp}

theorem step_of {objects : Transactions} {map : MapSession} (moved : s.onObjects op = some objects) (mapped : s.onMap op = some map) :
    s.step op = some { objects, map, found := op.locks.elim s.found fun tx => Function.update s.found tx s.map } := by
  simp only [step, moved, mapped]

theorem step_eq (run : s.step op = some s') : s.onObjects op = some s'.objects ∧ s.onMap op = some s'.map ∧
    s'.found = op.locks.elim s.found fun tx => Function.update s.found tx s.map := by
  unfold step at run
  split at run
  · rename_i objects map onObjects onMap
    cases Option.some.inj run
    exact ⟨onObjects, onMap, rfl⟩
  · cases run

theorem onObjects_eq {objects : Transactions} (run : s.onObjects op = some objects) :
    (op.lockOp = none ∧ objects = s.objects) ∨ ∃ lockOp, op.lockOp = some lockOp ∧ s.objects.step lockOp = some objects := by
  unfold onObjects at run
  split at run
  · rename_i lockOp is
    exact Or.inr ⟨lockOp, is, run⟩
  · rename_i is
    exact Or.inl ⟨is, (Option.some.inj run).symm⟩

theorem onMap_eq {map : MapSession} (run : s.onMap op = some map) :
    (op.mapOp = none ∧ map = s.map) ∨ ∃ mapOp, op.mapOp = some mapOp ∧ s.map.step mapOp = some map := by
  unfold onMap at run
  split at run
  · rename_i mapOp is
    exact Or.inr ⟨mapOp, is, run⟩
  · rename_i is
    exact Or.inl ⟨is, (Option.some.inj run).symm⟩

/-- Only the object that has the lock works on the map, and while it does the stored map is the one that it has found. -/
structure Serializes (c : Contents) (first : Session) (t : Tx) (s : MapTransactions) : Prop where
  lock : LockInvariant s.objects
  exclusive : Exclusive s.objects
  reach : Reaches MapSession.step (MapSession.Allowed c) (MapSession.start first t) s.map
  opened : s.map.session.openTxns = [] ↔ ∀ tx, ¬ s.objects.Open tx
  found : ∀ tx, s.objects.Inside tx → (s.found tx).stored = s.map.stored ∧ (s.found tx).committed = s.map.committed

namespace Serializes

theorem init (idle : first.openTxns = []) : Serializes c first t (MapTransactions.start (MapSession.start first t)) where
  lock := .start
  exclusive tx tx' opened := by
    rcases opened with running | dropping
    · cases running
    · cases dropping
  reach := .init
  opened := by
    refine ⟨fun _ tx opened => ?_, fun _ => idle⟩
    rcases opened with running | dropping
    · cases running
    · cases dropping
  found _ _ := ⟨rfl, rfl⟩

/-- The objects keep apart, and what a step does to the map is one of its operations. -/
theorem objects (inv : Serializes c first t s) (admits : s.Admits c op) (run : s.step op = some s') :
    LockInvariant s'.objects ∧ Exclusive s'.objects := by
  rcases onObjects_eq (step_eq run).1 with ⟨_, same⟩ | ⟨lockOp, is, moved⟩
  · rw [same]
    exact ⟨inv.lock, inv.exclusive⟩
  · exact ⟨inv.lock.step moved, ((safeStep_iff inv.lock inv.exclusive moved).mpr (admits.1 lockOp is)).1⟩

theorem map (inv : Serializes c first t s) (admits : s.Admits c op) (run : s.step op = some s') :
    Reaches MapSession.step (MapSession.Allowed c) (MapSession.start first t) s'.map := by
  obtain ⟨onObjects, onMap, _⟩ := step_eq run
  rcases onMap_eq onMap with ⟨_, same⟩ | ⟨mapOp, is, moved⟩
  · rw [same]
    exact inv.reach
  · refine inv.reach.next ?_ moved
    by_cases begins : mapOp = .begin
    · subst begins
      cases op with
      | begin tx =>
        have run : s.objects.step (.begin tx) = some s'.objects := onObjects
        simp only [Transactions.step] at run
        split at run
        · rename_i locked
          exact inv.opened.mpr fun tx' => inv.lock.locked_closed locked (admits.1 (.begin tx) rfl)
        · cases run
      | _ => simp [TransactionOp.mapOp] at is
    · exact admits.2 mapOp is begins

/-- A step that begins and ends no transaction. -/
theorem opened_kept (inv : Serializes c first t s) (opens : s'.map.session.openTxns = s.map.session.openTxns)
    (kept : ∀ tx, s'.objects.Open tx ↔ s.objects.Open tx) :
    s'.map.session.openTxns = [] ↔ ∀ tx, ¬ s'.objects.Open tx := by
  rw [opens, inv.opened]
  exact forall_congr' fun tx => not_congr (kept tx).symm

theorem opened_step (inv : Serializes c first t s) (order : SerialOrder s.map.session) (run : s.step op = some s') :
    s'.map.session.openTxns = [] ↔ ∀ tx, ¬ s'.objects.Open tx := by
  obtain ⟨onObjects, onMap, _⟩ := step_eq run
  unfold MapTransactions.onObjects at onObjects
  unfold MapTransactions.onMap at onMap
  cases op with
  | begin tx =>
    have opens : s.map.OpenedBy s'.map .begin := MapSession.step_opened order onMap
    refine iff_of_false opens fun closed => closed tx ?_
    have run : s.objects.step (.begin tx) = some s'.objects := onObjects
    simp only [Transactions.step] at run
    split at run
    · rw [← Option.some.inj run]
      exact Or.inl advance_same
    · cases run
  | commit tx =>
    exact iff_of_true (MapSession.step_opened order onMap) fun _ => open_closed onObjects inv.exclusive (Or.inl rfl)
  | abort tx evicted =>
    exact iff_of_true (MapSession.step_opened order onMap) fun _ => open_closed onObjects inv.exclusive (Or.inr (Or.inl rfl))
  | destroyTx tx evicted =>
    exact iff_of_true (MapSession.step_opened order onMap) fun _ => open_closed onObjects inv.exclusive (Or.inr (Or.inr rfl))
  | write | returns =>
    exact inv.opened_kept (MapSession.step_opened order onMap)
      fun _ => open_kept onObjects (by simp) (by simp) (by simp) (by simp)
  | evict | requestCheckpoint | checkpoint =>
    have same : s.objects = s'.objects := Option.some.inj onObjects
    exact inv.opened_kept (MapSession.step_opened order onMap) fun _ => by rw [same]
  | lock | unlock | destroyGuard | lockShared | read | destroyReader =>
    have same : s.map = s'.map := Option.some.inj onMap
    exact inv.opened_kept (by rw [same]) fun _ => open_kept onObjects (by simp) (by simp) (by simp) (by simp)

theorem locks_of_lockOp {tx : Nat} (is : op.lockOp = some (.lock tx) ∨ op.lockOp = some (.lockShared tx)) : op.locks = some tx := by
  cases op <;> simp_all [TransactionOp.lockOp, TransactionOp.locks]

theorem found_step (inv : Serializes c first t s) (run : s.step op = some s') {tx : Nat} (inside : s'.objects.Inside tx) :
    (s'.found tx).stored = s'.map.stored ∧ (s'.found tx).committed = s'.map.committed := by
  obtain ⟨onObjects, onMap, found⟩ := step_eq run
  by_cases commits : ∃ tx', op = .commit tx'
  · -- the object that commits is alone, and outside afterwards
    obtain ⟨tx', rfl⟩ := commits
    have run : s.objects.step (.walCommit tx') = some s'.objects := onObjects
    have before : s.objects.Inside tx := (inside_step run inside).resolve_right (by simp)
    simp only [Transactions.step] at run
    split at run
    · rename_i running
      cases inv.lock.alone running before
      rw [← Option.some.inj run, Inside, advance_same] at inside
      simp at inside
    · cases run
  have stored : s'.map.stored = s.map.stored ∧ s'.map.committed = s.map.committed := by
    rcases onMap_eq onMap with ⟨_, same⟩ | ⟨mapOp, is, moved⟩
    · rw [same]
      exact ⟨rfl, rfl⟩
    · refine MapSession.step_stored moved ?_
      rintro rfl
      cases op with
      | commit tx' => exact commits ⟨tx', rfl⟩
      | _ => simp [TransactionOp.mapOp] at is
  rw [stored.1, stored.2, found]
  by_cases locks : op.locks = some tx
  · rw [locks, Option.elim_some, Function.update_self]
    exact ⟨rfl, rfl⟩
  have old : op.locks.elim s.found (fun tx' => Function.update s.found tx' s.map) tx = s.found tx := by
    cases by_ : op.locks with
    | none => rfl
    | some tx' =>
      rw [Option.elim_some, Function.update_of_ne]
      rintro rfl
      exact locks by_
  rw [old]
  refine inv.found tx ?_
  rcases onObjects_eq onObjects with ⟨_, same⟩ | ⟨lockOp, is, moved⟩
  · rwa [same] at inside
  · rcases inside_step moved inside with before | rfl | rfl
    · exact before
    · exact absurd (locks_of_lockOp (Or.inl is)) locks
    · exact absurd (locks_of_lockOp (Or.inr is)) locks

theorem step (inv : Serializes c first t s) (order : SerialOrder s.map.session) (admits : s.Admits c op) (run : s.step op = some s') :
    Serializes c first t s' where
  lock := (inv.objects admits run).1
  exclusive := (inv.objects admits run).2
  reach := inv.map admits run
  opened := inv.opened_step order run
  found _ inside := inv.found_step run inside

end Serializes

theorem step_length (run : s.step op = some s') : s.map.session.db.wal.records.length ≤ s'.map.session.db.wal.records.length := by
  rcases onMap_eq (step_eq run).2.1 with ⟨_, same⟩ | ⟨_, _, moved⟩
  · rw [same]
  · exact MapSession.step_length moved

theorem serializes (ready : Ready first) (is : IsMap t c) (pages : t.mem = first.db.pages)
    (reach : Reaches step (Admits c) (MapTransactions.start (MapSession.start first t)) s) (left : LsnsLeft first s.map.session) :
    Serializes c first t s := by
  induction reach with
  | init => exact .init ready.noTxns
  | next _ admits run ih =>
    have before := left.before (step_length run)
    have inv := ih before
    obtain ⟨mems, sim⟩ := MapSession.simulates ready is pages inv.reach before
    exact inv.step (sim.invariants ready before).2.1 admits run

theorem IsMap.shows (is : IsMap t c) : Shows c t := by
  obtain ⟨tree, lists, wf, contents⟩ := is
  rw [← contents]
  exact wf.shows

/-- Transactions of any number of objects are serialized in the order in which they take the lock: a reader sees the map of
the transactions that had committed then, all the time until it lets go, and a writer sees that map and its own calls. -/
theorem transactions_serialize (ready : Ready first) (is : IsMap t c) (pages : t.mem = first.db.pages)
    (reach : Reaches step (Admits c) (MapTransactions.start (MapSession.start first t)) s) (left : LsnsLeft first s.map.session) :
    (∀ tx, s.objects.phase tx = .reading → (∀ tx', s.objects.phase tx' ≠ .dropping) →
        s.map.session.db.pages = (s.found tx).stored.mem ∧ Shows (c.after (s.found tx).committed.flatten) (s.found tx).stored) ∧
      ∀ tx, s.objects.phase tx = .running → s.map.committed = (s.found tx).committed ∧
        (s.map.working.mem = s.map.current.mem → s.map.session.db.pages = s.map.current.mem ∧
          Shows (c.after ((s.found tx).committed.flatten ++ s.map.calls)) s.map.current) := by
  have inv := serializes ready is pages reach left
  refine ⟨fun tx reading outside => ?_, fun tx running => ?_⟩
  · obtain ⟨stored, committed⟩ := inv.found tx (Or.inr (Or.inr reading))
    have idle := inv.opened.mpr fun tx' => inv.lock.reading_closed reading outside
    obtain ⟨same, map⟩ := MapSession.idle_map ready is pages inv.reach left idle
    rw [stored, committed]
    exact ⟨same.symm, IsMap.shows map⟩
  · obtain ⟨_, committed⟩ := inv.found tx (Or.inr (Or.inl running))
    refine ⟨committed.symm, fun returned => ?_⟩
    obtain ⟨mems, sim⟩ := MapSession.simulates ready is pages inv.reach left
    have opened : s.map.session.openTxns ≠ [] := fun none => inv.opened.mp none tx (Or.inl running)
    rw [committed, ← returned, sim.working opened]
    exact ⟨rfl, IsMap.shows sim.current⟩

/-- The calls of an object that is running are steps of the map. -/
theorem calls_reach (tx : Nat) (running : s.objects.phase tx = .running) {map : MapSession}
    (reach : Reaches MapSession.step (MapSession.Calls c) s.map map) : Reaches step (Admits c) s { s with map } := by
  have pageOp : s.objects.step (.pageOp tx) = some s.objects := by
    simp only [Transactions.step, running, if_pos]
  induction reach with
  | init => exact .init
  | @next before op after _ calls run ih =>
    obtain ⟨allowed, ⟨page, offset, length, bytes, evicted, rfl⟩ | ⟨beyond, call, rfl⟩⟩ := calls
    · refine ih.call (.write tx page offset length bytes evicted) (step_of pageOp run) ⟨?_, ?_⟩
      · rintro _ ⟨⟩
        trivial
      · rintro _ ⟨⟩ _
        exact allowed
    · refine ih.call (.returns tx beyond call) (step_of pageOp run) ⟨?_, ?_⟩
      · rintro _ ⟨⟩
        trivial
      · rintro _ ⟨⟩ _
        exact allowed

/-- An object that has appended to a new map commits, and a reader comes after it. -/
theorem transactions_serialize_reader : ∃ s : MapTransactions, s.objects.phase 1 = .reading ∧
    (s.found 1).committed = [[.append [97] [1, 2]]] ∧
    (∀ tx, s.objects.phase tx = .reading → (∀ tx', s.objects.phase tx' ≠ .dropping) →
        s.map.session.db.pages = (s.found tx).stored.mem ∧ Shows (Contents.none.after (s.found tx).committed.flatten) (s.found tx).stored) ∧
      ∀ tx, s.objects.phase tx = .running → s.map.committed = (s.found tx).committed ∧
        (s.map.working.mem = s.map.current.mem → s.map.session.db.pages = s.map.current.mem ∧
          Shows (Contents.none.after ((s.found tx).committed.flatten ++ s.map.calls)) s.map.current) := by
  obtain ⟨t, session, t', is, called, opened, small⟩ := MapSession.append_called
  have first : Reaches step (Admits Contents.none) (MapTransactions.start (MapSession.start (Session.fresh t.mem) t)) _ := .init
  have locked := first.call (.lock 0) rfl (by constructor <;> rintro _ ⟨⟩; trivial)
  have begun := locked.call (.begin 0) rfl (by
    constructor
    · rintro _ ⟨⟩ tx'
      change Function.update (fun _ => Phase.unborn) 0 Phase.locked tx' ≠ _
      rw [Function.update_apply]
      split <;> decide
    · rintro _ ⟨⟩ different
      exact absurd rfl different)
  have called := begun.trans (calls_reach 0 rfl called)
  have commits : MapSession.step { MapSession.begun t with session, current := t', working := t', calls := [.append [97] [1, 2]] } .commit = _ :=
    MapSession.commit_step opened
  have committed := called.call (.commit 0) (step_of rfl commits) (by
    constructor <;> rintro _ ⟨⟩
    · trivial
    · exact fun _ => rfl)
  have unlocked := committed.call (.unlock 0) rfl (by constructor <;> rintro _ ⟨⟩; trivial)
  have reading := unlocked.call (.lockShared 1) rfl (by constructor <;> rintro _ ⟨⟩; trivial)
  refine ⟨_, rfl, rfl, transactions_serialize (Session.fresh_ready t.mem) is rfl reading ?_⟩
  have length : (session.db.commit 0).wal.records.length = session.db.wal.records.length + 1 := List.length_append
  unfold LsnsLeft
  change 0 + ((session.db.commit 0).wal.records.length - 0) < 2 ^ 32
  rw [length]
  omega

end MapTransactions

end DiskMap
