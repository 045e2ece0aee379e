import DiskMap.Wal.Abort

namespace DiskMap
open ByteMemory Database GuardedRun

/-- A session as the WAL constructor leaves it: no transaction is open, the data file has the
current pages, and what is in the record list (after a recovery) is finished and absorbed. -/
structure Ready (s : Session) : Prop where
  noTxns : s.openTxns = []
  idle : s.db.wal.activeTransactions = 0
  durable : s.durable = s.db.pages
  durableRecords : s.durableRecords = s.db.wal.records.length
  nextLsn : s.db.wal.nextLsn < 2 ^ 32
  nextTxnId : s.db.wal.nextTxnId ≤ s.db.wal.nextLsn
  ordered : ∀ r ∈ s.db.wal.records, r.txnId ≤ r.lsn ∧ r.lsn < s.db.wal.nextLsn
  valid : ∀ r ∈ s.db.wal.records, r.Valid
  logHolds : s.db.wal.LogHolds s.logStart
  absorbed : ∀ a v, lastNew s.db.wal.records a = some v → s.db.pages a = v
  finished : ∀ front r back, s.db.wal.records = front ++ r :: back → isSet r → r.txnId ∈ finishedTxns back
  settled : Settled s.db.wal.records

/-- The records that the session itself has created. -/
def newRecords (start s : Session) : List InMemoryWALRecord :=
  s.db.wal.records.drop start.db.wal.records.length

/-- Calls on transactions that are open. -/
def OpenCall (s : Session) : WalOp → Prop
  | .set txnId _ _ _ _ => txnId ∈ s.openTxns
  | .commit txnId => txnId ∈ s.openTxns
  | .abort txnId _ => txnId ∈ s.openTxns
  | _ => True

/-- No LSN has been used twice. -/
def LsnsLeft (start s : Session) : Prop :=
  start.db.wal.nextLsn + (s.db.wal.records.length - start.db.wal.records.length) < 2 ^ 32

instance (start s : Session) : Decidable (LsnsLeft start s) := inferInstanceAs (Decidable (_ < _))

/-- Counters and ids in a session whose calls are made on open transactions. -/
structure Bookkeeping (start s : Session) : Prop where
  shape : s.db.wal.records = start.db.wal.records ++ newRecords start s
  active : s.db.wal.activeTransactions = s.openTxns.length
  nextLsn : s.db.wal.nextLsn = start.db.wal.nextLsn + (newRecords start s).length
  nextTxnId : s.db.wal.nextTxnId ≤ s.db.wal.nextLsn
  ordered : ∀ r ∈ s.db.wal.records, r.txnId ≤ r.lsn ∧ r.lsn < s.db.wal.nextLsn
  fresh : ∀ r ∈ newRecords start s, start.db.wal.nextLsn ≤ r.lsn
  openIds : ∀ id ∈ s.openTxns, start.db.wal.nextLsn ≤ id ∧ id < s.db.wal.nextLsn
  nodup : s.openTxns.Nodup
  noClr : ∀ r ∈ s.db.wal.records, r.txnId ∈ s.openTxns → ∀ c, r.body ≠ .clr c

/-- What a call appends to the record list. -/
structure Session.Appends (s : Session) (add : List InMemoryWALRecord) (s' : Session) : Prop where
  records : s'.db.wal.records = s.db.wal.records ++ add
  pages : s'.db.pages = redo add s.db.pages
  nextLsn : s.db.wal.nextLsn < 2 ^ 32 → s'.db.wal.nextLsn = (s.db.wal.nextLsn + add.length) % 2 ^ 32
  lsns : s.db.wal.nextLsn < 2 ^ 32 →
    add.map InMemoryWALRecord.lsn = (List.range add.length).map fun i => (s.db.wal.nextLsn + i) % 2 ^ 32

namespace Session

/-- The ABORT_BEGIN, the CLRs and the ABORT_END of a rollback. -/
def abortRecords (s : Session) (txnId last : Nat) : List InMemoryWALRecord :=
  [mark s.db.wal.nextLsn txnId .abortBegin] ++
    compensations ((s.db.wal.nextLsn + 1) % 2 ^ 32) (s.db.abortUndo txnId) ++ [mark last txnId .abortEnd]

theorem mem_abortRecords {s : Session} {txnId last : Nat} {r : InMemoryWALRecord}
    (member : r ∈ s.abortRecords txnId last) : (∃ lsn body, r = mark lsn txnId body ∧ (body = .abortBegin ∨ body = .abortEnd)) ∨
      ∃ r' ∈ s.db.abortUndo txnId, ∃ header lsn, r'.body = .set header ∧ lsn < 2 ^ 32 ∧ r = compensation lsn r' header := by
  simp only [abortRecords, List.mem_append, List.mem_singleton] at member
  rcases member with (rfl | inside) | rfl
  · exact Or.inl ⟨_, _, rfl, Or.inl rfl⟩
  · exact Or.inr (mem_compensations (Nat.mod_lt _ (by decide)) (fun _ => abortUndo_isSet) inside)
  · exact Or.inl ⟨_, _, rfl, Or.inr rfl⟩

theorem abortRecords_txnId (s : Session) (txnId last : Nat) : ∀ r ∈ s.abortRecords txnId last, r.txnId = txnId := by
  intro r member
  rcases mem_abortRecords member with ⟨_, _, rfl, _⟩ | ⟨r', undone, _, _, _, _, rfl⟩
  · rfl
  · exact (setBy_iff.mp (mem_toUndo undone).2).2

/-- Everything that one call does, by the kind of the call. -/
inductive Effect (s : Session) : WalOp → List InMemoryWALRecord → Session → Prop
  | begin {s'} : s'.openTxns = s.db.wal.nextLsn :: s.openTxns →
      s'.db.wal.activeTransactions = s.db.wal.activeTransactions + 1 →
      s'.db.wal.nextTxnId = (s.db.wal.nextTxnId + 1) % 2 ^ 32 →
      Effect s .begin [mark s.db.wal.nextLsn s.db.wal.nextTxnId .begin] s'
  | set {s' txnId loc writeLength data evicted} : s'.openTxns = s.openTxns →
      s'.db.wal.activeTransactions = s.db.wal.activeTransactions → s'.db.wal.nextTxnId = s.db.wal.nextTxnId →
      Effect s (.set txnId loc writeLength data evicted) [s.db.setRecord txnId loc writeLength data] s'
  | commit {s' txnId} : s'.openTxns = s.openTxns.erase txnId →
      s'.db.wal.activeTransactions = s.db.wal.activeTransactions - 1 → s'.db.wal.nextTxnId = s.db.wal.nextTxnId →
      Effect s (.commit txnId) [mark s.db.wal.nextLsn txnId .commit] s'
  | abort {s' txnId evicted last} : s'.openTxns = s.openTxns.erase txnId →
      s'.db.wal.activeTransactions = s.db.wal.activeTransactions - 1 → s'.db.wal.nextTxnId = s.db.wal.nextTxnId →
      Effect s (.abort txnId evicted) (s.abortRecords txnId last) s'
  | other {s' op} : (op = .requestCheckpoint ∨ op = .checkpoint ∨ ∃ pageLsn, op = .evict pageLsn) →
      s'.openTxns = s.openTxns → s'.db.wal.activeTransactions = s.db.wal.activeTransactions →
      s'.db.wal.nextTxnId = s.db.wal.nextTxnId → Effect s op [] s'

variable {s s' : Session}

theorem Appends.none (records : s'.db.wal.records = s.db.wal.records) (pages : s'.db.pages = s.db.pages)
    (nextLsn : s'.db.wal.nextLsn = s.db.wal.nextLsn) : s.Appends [] s' where
  records := by rw [records, List.append_nil]
  pages := pages
  nextLsn small := by
    rw [nextLsn]
    exact (Nat.mod_eq_of_lt small).symm
  lsns _ := rfl

theorem Appends.one {r : InMemoryWALRecord} (records : s'.db.wal.records = s.db.wal.records ++ [r])
    (pages : s'.db.pages = r.applyTo s.db.pages) (lsn : r.lsn = s.db.wal.nextLsn)
    (nextLsn : s'.db.wal.nextLsn = (s.db.wal.nextLsn + 1) % 2 ^ 32) : s.Appends [r] s' where
  records := records
  pages := pages
  nextLsn _ := nextLsn
  lsns small := by
    simp only [List.map_cons, List.map_nil, List.length_singleton, List.range_one, lsn, Nat.add_zero]
    rw [Nat.mod_eq_of_lt small]

theorem step_appends {op : WalOp} (run : s.step op = some s') : ∃ add, s.Appends add s' ∧ Effect s op add s' := by
  cases op with
  | begin =>
    simp only [step, Database.begin] at run
    split at run
    · rename_i began
      split at began
      · cases began
      · cases Option.some.inj began
        cases Option.some.inj run
        exact ⟨_, .one rfl rfl rfl rfl, .begin rfl rfl rfl⟩
    · cases run
  | set txnId loc writeLength data evicted =>
    cases Option.some.inj run
    have grows := s.db.set_extends txnId loc writeLength data evicted
    exact ⟨_, ⟨grows.wal.records, grows.pages, grows.wal.nextLsn, grows.wal.lsns⟩,
      .set rfl grows.wal.activeTransactions grows.wal.nextTxnId⟩
  | commit txnId =>
    cases Option.some.inj run
    exact ⟨_, .one rfl rfl rfl rfl, .commit rfl rfl rfl⟩
  | abort txnId evicted =>
    obtain ⟨d', last, returned, grows⟩ := s.db.abort_extends txnId evicted
    simp only [step, returned] at run
    cases Option.some.inj run
    exact ⟨_, ⟨grows.wal.records, grows.pages, grows.wal.nextLsn, grows.wal.lsns⟩,
      .abort rfl (congrArg (· - 1) grows.wal.activeTransactions) grows.wal.nextTxnId⟩
  | evict pageLsn =>
    cases Option.some.inj run
    have same := s.db.wal.flushUpTo_sameButFile pageLsn
    exact ⟨_, .none same.records rfl same.nextLsn, .other (Or.inr (Or.inr ⟨_, rfl⟩)) rfl same.activeTransactions same.nextTxnId⟩
  | requestCheckpoint =>
    cases Option.some.inj run
    exact ⟨_, .none rfl rfl rfl, .other (Or.inl rfl) rfl rfl rfl⟩
  | checkpoint =>
    simp only [step] at run
    split at run
    · cases Option.some.inj run
      exact ⟨_, .none rfl rfl rfl, .other (Or.inr (Or.inl rfl)) rfl rfl rfl⟩
    · cases run

/-- Only a checkpoint changes what is durable, and truncates the log file. -/
theorem step_durable {op : WalOp} (other : op ≠ .checkpoint) (run : s.step op = some s') :
    s'.durable = s.durable ∧ s'.durableRecords = s.durableRecords ∧ s'.logStart = s.logStart ∧
      ∀ start, s.db.wal.LogHolds start → s'.db.wal.LogHolds start := by
  cases op with
  | begin =>
    simp only [step, Database.begin] at run
    split at run
    · rename_i began
      split at began
      · cases began
      · cases Option.some.inj began
        cases Option.some.inj run
        refine ⟨rfl, rfl, rfl, fun start holds => ?_⟩
        have counted : WAL.LogHolds start { s.db.wal with
            activeTransactions := s.db.wal.activeTransactions + 1
            nextTxnId := (s.db.wal.nextTxnId + 1) % 2 ^ 32 } :=
          ⟨holds.position, holds.lower, holds.upper, holds.content⟩
        exact counted.takeLsn.push _
    · cases run
  | set txnId loc writeLength data evicted =>
    cases Option.some.inj run
    exact ⟨rfl, rfl, rfl, (s.db.set_extends txnId loc writeLength data evicted).wal.logHolds⟩
  | commit txnId =>
    cases Option.some.inj run
    refine ⟨rfl, rfl, rfl, fun start holds => ?_⟩
    have flushed := (holds.takeLsn.push (mark s.db.wal.nextLsn txnId .commit)).flush
    exact ⟨flushed.position, flushed.lower, flushed.upper, flushed.content⟩
  | abort txnId evicted =>
    obtain ⟨d', last, returned, grows⟩ := s.db.abort_extends txnId evicted
    simp only [step, returned] at run
    cases Option.some.inj run
    refine ⟨rfl, rfl, rfl, fun start holds => ?_⟩
    have kept := grows.wal.logHolds start holds
    exact ⟨kept.position, kept.lower, kept.upper, kept.content⟩
  | evict pageLsn =>
    cases Option.some.inj run
    exact ⟨rfl, rfl, rfl, (s.db.wal.flushUpTo_sameButFile pageLsn).logHolds⟩
  | requestCheckpoint =>
    cases Option.some.inj run
    exact ⟨rfl, rfl, rfl, fun start holds => ⟨holds.position, holds.lower, holds.upper, holds.content⟩⟩
  | checkpoint => exact absurd rfl other

/-- A call only appends to the record list. -/
theorem step_records {op : WalOp} (run : s.step op = some s') :
    ∃ add, s'.db.wal.records = s.db.wal.records ++ add := by
  obtain ⟨add, appends, _⟩ := step_appends run
  exact ⟨add, appends.records⟩

theorem step_records_length {op : WalOp} (run : s.step op = some s') :
    s.db.wal.records.length ≤ s'.db.wal.records.length := by
  obtain ⟨add, records⟩ := step_records run
  rw [records, List.length_append]
  exact Nat.le_add_right _ _

end Session

/-- Fewer records have been created before a step than after it. -/
theorem LsnsLeft.before {start s s' : Session} (left : LsnsLeft start s')
    (shorter : s.db.wal.records.length ≤ s'.db.wal.records.length) : LsnsLeft start s := by
  unfold LsnsLeft at left ⊢
  omega

theorem Ready.bookkeeping {s : Session} (ready : Ready s) : Bookkeeping s s where
  shape := by simp [newRecords]
  active := by simp [ready.idle, ready.noTxns]
  nextLsn := by simp [newRecords]
  nextTxnId := ready.nextTxnId
  ordered := ready.ordered
  fresh := by simp [newRecords]
  openIds := by simp [ready.noTxns]
  nodup := by simp [ready.noTxns]
  noClr := by simp [ready.noTxns]

namespace Bookkeeping
variable {start s s' : Session}

theorem lower (books : Bookkeeping start s) : start.db.wal.records.length ≤ s.db.wal.records.length := by
  rw [books.shape, List.length_append]
  exact Nat.le_add_right _ _

theorem newRecords_length (start s : Session) :
    (newRecords start s).length = s.db.wal.records.length - start.db.wal.records.length := by
  simp [newRecords]

theorem nextLsn_lt (books : Bookkeeping start s) (left : LsnsLeft start s) : s.db.wal.nextLsn < 2 ^ 32 := by
  have current := books.nextLsn
  rw [newRecords_length] at current
  unfold LsnsLeft at left
  omega

theorem newRecords_append (books : Bookkeeping start s) {add : List InMemoryWALRecord}
    (records : s'.db.wal.records = s.db.wal.records ++ add) : newRecords start s' = newRecords start s ++ add := by
  rw [newRecords, records, List.drop_append_of_le_length books.lower]
  rfl

/-- The LSNs that a step takes are the next ones. -/
theorem appended_lsn (books : Bookkeeping start s) {add : List InMemoryWALRecord} (appends : s.Appends add s')
    (left : LsnsLeft start s') : s'.db.wal.nextLsn = s.db.wal.nextLsn + add.length ∧
      ∀ r ∈ add, s.db.wal.nextLsn ≤ r.lsn ∧ r.lsn < s'.db.wal.nextLsn := by
  have current := books.nextLsn
  have total : start.db.wal.nextLsn + (s'.db.wal.records.length - start.db.wal.records.length) < 2 ^ 32 := left
  have long := books.lower
  rw [newRecords_length] at current
  rw [appends.records, List.length_append] at total
  have next : s'.db.wal.nextLsn = s.db.wal.nextLsn + add.length := by
    rw [appends.nextLsn (by omega), Nat.mod_eq_of_lt (by omega)]
  refine ⟨next, fun r member => ?_⟩
  have lsn : r.lsn ∈ add.map InMemoryWALRecord.lsn := List.mem_map_of_mem member
  rw [appends.lsns (by omega), List.mem_map] at lsn
  obtain ⟨i, range, value⟩ := lsn
  have index := List.mem_range.mp range
  rw [Nat.mod_eq_of_lt (by omega)] at value
  omega

theorem grow (books : Bookkeeping start s) {add : List InMemoryWALRecord} (appends : s.Appends add s')
    (left : LsnsLeft start s') (active : s'.db.wal.activeTransactions = s'.openTxns.length)
    (nextTxnId : s'.db.wal.nextTxnId ≤ s.db.wal.nextLsn + add.length) (txnIds : ∀ r ∈ add, r.txnId ≤ s.db.wal.nextLsn)
    (openIds : ∀ id ∈ s'.openTxns, id ∈ s.openTxns ∨ id = s.db.wal.nextLsn ∧ add ≠ []) (nodup : s'.openTxns.Nodup)
    (clrs : ∀ r ∈ add, ∀ c, r.body = .clr c → r.txnId ∉ s'.openTxns) : Bookkeeping start s' := by
  obtain ⟨next, lsns⟩ := books.appended_lsn appends left
  have new := books.newRecords_append appends.records
  refine ⟨?_, active, ?_, by omega, ?_, ?_, ?_, nodup, ?_⟩
  · rw [new, appends.records, ← List.append_assoc, ← books.shape]
  · rw [new, List.length_append, next, books.nextLsn, Nat.add_assoc]
  · rw [appends.records]
    intro r member
    rcases List.mem_append.mp member with old | added
    · have bound := books.ordered r old
      omega
    · have bound := lsns r added
      have id := txnIds r added
      omega
  · rw [new]
    intro r member
    rcases List.mem_append.mp member with old | added
    · exact books.fresh r old
    · have bound := lsns r added
      have current := books.nextLsn
      omega
  · intro id member
    rcases openIds id member with old | ⟨rfl, added⟩
    · have bound := books.openIds id old
      omega
    · have current := books.nextLsn
      have positive := List.length_pos_of_ne_nil added
      omega
  · rw [appends.records]
    intro r member opened c body
    rcases List.mem_append.mp member with old | added
    · rcases openIds _ opened with before | ⟨same, _⟩
      · exact books.noClr r old before c body
      · have bound := books.ordered r old
        omega
    · exact clrs r added c body opened

theorem step (books : Bookkeeping start s) {op : WalOp} (call : OpenCall s op) (run : s.step op = some s')
    (left : LsnsLeft start s') : Bookkeeping start s' := by
  obtain ⟨add, appends, effect⟩ := Session.step_appends run
  have active := books.active
  have counter := books.nextTxnId
  cases effect with
  | begin opens count ids =>
    refine books.grow appends left ?_ ?_ ?_ ?_ ?_ ?_
    · rw [opens, count, active]
      simp
    · rw [ids, List.length_singleton]
      omega
    · intro r member
      rw [List.mem_singleton.mp member]
      exact counter
    · rw [opens]
      intro id member
      exact (List.mem_cons.mp member).symm.imp_right fun same => ⟨same, by simp⟩
    · rw [opens]
      refine List.nodup_cons.mpr ⟨fun member => ?_, books.nodup⟩
      have bound := (books.openIds _ member).2
      omega
    · intro r member c body
      rw [List.mem_singleton.mp member] at body
      cases body
  | set opens count ids =>
    refine books.grow appends left (by rw [opens, count, active]) (by omega) ?_ (fun id member => ?_)
      (by rw [opens]; exact books.nodup) ?_
    · intro r member
      rw [List.mem_singleton.mp member]
      exact (books.openIds _ call).2.le
    · rw [opens] at member
      exact Or.inl member
    · intro r member c body
      rw [List.mem_singleton.mp member] at body
      cases body
  | commit opens count ids =>
    have erased := List.length_erase_of_mem call
    have nonempty := List.length_pos_of_mem call
    refine books.grow appends left (by rw [opens, count]; omega) (by omega) ?_ (fun id member => ?_)
      (by rw [opens]; exact books.nodup.erase _) ?_
    · intro r member
      rw [List.mem_singleton.mp member]
      exact (books.openIds _ call).2.le
    · rw [opens] at member
      exact Or.inl (List.mem_of_mem_erase member)
    · intro r member c body
      rw [List.mem_singleton.mp member] at body
      cases body
  | @abort _ txnId evicted last opens count ids =>
    have erased := List.length_erase_of_mem call
    have nonempty := List.length_pos_of_mem call
    have own := s.abortRecords_txnId txnId last
    refine books.grow appends left (by rw [opens, count]; omega) (by omega) ?_ (fun id member => ?_)
      (by rw [opens]; exact books.nodup.erase _) ?_
    · intro r member
      rw [own r member]
      exact (books.openIds _ call).2.le
    · rw [opens] at member
      exact Or.inl (List.mem_of_mem_erase member)
    · intro r member c _ opened
      rw [own r member, opens] at opened
      exact (books.nodup.mem_erase_iff.mp opened).1 rfl
  | other _ opens count ids =>
    refine books.grow appends left (by rw [opens, count, active]) (by omega) (by simp) (fun id member => ?_)
      (by rw [opens]; exact books.nodup) (by simp)
    rw [opens] at member
    exact Or.inl member

end Bookkeeping

/-- The session of a WAL that has created its log file. -/
def Session.fresh (init : Mem) : Session where
  db := { wal := {}, pages := init }
  openTxns := []
  durable := init
  durableRecords := 0
  logStart := 0

theorem Session.fresh_ready (init : Mem) : Ready (Session.fresh init) where
  noTxns := rfl
  idle := rfl
  durable := rfl
  durableRecords := rfl
  nextLsn := Nat.two_pow_pos 32
  nextTxnId := le_rfl
  ordered := by simp [fresh]
  valid := by simp [fresh]
  logHolds := ⟨rfl, le_rfl, le_rfl, rfl⟩
  absorbed := by simp [fresh, lastNew]
  finished := by simp [fresh]
  settled := by
    intro front r back shape
    simp [fresh] at shape

def Session.empty : Session := Session.fresh fun _ => 0

/-- No page is evicted. -/
def quiet (_ : Nat) : Option Nat := none

end DiskMap
