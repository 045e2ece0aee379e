import DiskMap.Wal.Restart

namespace DiskMap
open ByteMemory Database GuardedRun

/-- A session and the pages as each of its commits has left them. -/
structure Versions where
  session : Session
  committed : List Mem

namespace Versions

def start (s : Session) : Versions where
  session := s
  committed := []

def step (v : Versions) (op : WalOp) : Option Versions :=
  match v.session.step op with
  | some session =>
    match op with
    | .commit _ => some { session, committed := v.committed ++ [v.session.db.pages] }
    | _ => some { v with session }
  | none => none

def Serial (v : Versions) (op : WalOp) : Prop := SerialCall v.session op

end Versions

/-- The number of transactions with a COMMIT record. -/
def commits (records : List InMemoryWALRecord) : Nat := (committedTxns records).length

theorem commits_append (front back : List InMemoryWALRecord) : commits (front ++ back) = commits front + commits back := by
  simp [commits, committedTxns]

theorem commits_eq_zero {records : List InMemoryWALRecord} (none : ∀ r ∈ records, r.body ≠ .commit) : commits records = 0 := by
  rw [commits, committedTxns, List.length_map, List.length_eq_zero_iff, List.filter_eq_nil_iff]
  intro r member mark
  exact none r member (by simpa using mark)

theorem commits_take_le {records : List InMemoryWALRecord} {m n : Nat} (le : m ≤ n) :
    commits (records.take m) ≤ commits (records.take n) :=
  (((List.take_sublist_take_left le).filter _).map _).length_le

theorem commits_take_le_whole (records : List InMemoryWALRecord) (n : Nat) : commits (records.take n) ≤ commits records :=
  (((List.take_sublist n records).filter _).map _).length_le

/-- Appending marks other than COMMIT and SETs of transactions that have not committed leaves the committed values. -/
theorem lastCommitted_append {init : Mem} {records add : List InMemoryWALRecord} (none : ∀ r ∈ add, r.body ≠ .commit)
    (uncommitted : ∀ r ∈ add, isSet r → r.txnId ∉ committedTxns records) :
    lastCommitted init (records ++ add) = lastCommitted init records := by
  induction add using List.reverseRecOn with
  | nil => rw [List.append_nil]
  | append_singleton front r ih =>
    have earlier := ih (fun r' member => none r' (List.mem_append_left _ member))
      fun r' member => uncommitted r' (List.mem_append_left _ member)
    have same : committedTxns (records ++ front) = committedTxns records := by
      have quiet : front.filter (fun r => r.body == .commit) = [] := by
        rw [List.filter_eq_nil_iff]
        intro r' member mark
        exact none r' (List.mem_append_left _ member) (by simpa using mark)
      rw [committedTxns, List.filter_append, quiet, List.append_nil]
      rfl
    have last : r ∈ front ++ [r] := List.mem_append_right _ (List.mem_singleton_self r)
    rw [← List.append_assoc, ← earlier]
    funext a
    refine lastCommitted_snoc (none r last) (fun set => ?_) a
    rw [same]
    exact uncommitted r last set

/-- A flush takes all records or none. -/
structure WAL.Flushes (w w' : WAL) : Prop where
  records : w.records.length ≤ w'.records.length
  flushed : w'.unflushedRecordIndex = w.unflushedRecordIndex ∨ w.records.length ≤ w'.unflushedRecordIndex

namespace WAL.Flushes
variable {w w' w'' : WAL}

theorem trans (first : w.Flushes w') (second : w'.Flushes w'') : w.Flushes w'' where
  records := first.records.trans second.records
  flushed := by
    rcases second.flushed with same | all
    · rw [same]
      exact first.flushed
    · exact Or.inr (first.records.trans all)

/-- Records are only appended. -/
theorem append (records : w.records.length ≤ w'.records.length) (same : w'.unflushedRecordIndex = w.unflushedRecordIndex) :
    w.Flushes w' := ⟨records, Or.inl same⟩

theorem flush (w : WAL) : w.Flushes w.flush := ⟨le_rfl, Or.inr le_rfl⟩

theorem flushUpTo (w : WAL) (lsn : Nat) : w.Flushes (w.flushUpTo lsn) := by
  unfold WAL.flushUpTo
  split
  · split
    · exact .flush w
    · exact .append le_rfl rfl
  · exact .append le_rfl rfl

theorem getPage (w : WAL) (evicted : Option Nat) : w.Flushes (w.getPage evicted) := by
  cases evicted with
  | none => exact .append le_rfl rfl
  | some pageLsn => exact .flushUpTo w pageLsn

theorem push (w : WAL) (r : InMemoryWALRecord) : w.Flushes (w.takeLsn.push r) :=
  .append (by simp [WAL.push, WAL.takeLsn]) rfl

/-- No record is taken back from the log file. -/
theorem lower (flushes : w.Flushes w') (bound : w.unflushedRecordIndex ≤ w.records.length) :
    w.unflushedRecordIndex ≤ w'.unflushedRecordIndex := by
  rcases flushes.flushed with same | all
  · exact same.ge
  · exact bound.trans all

theorem writeClrs {undo : List InMemoryWALRecord} {d d' : Database} {evicted : Nat → Option Nat}
    (done : Database.writeClrs d undo evicted = .ok d') : d.wal.Flushes d'.wal := by
  induction undo generalizing d evicted with
  | nil =>
    cases Except.ok.inj done
    exact .append le_rfl rfl
  | cons r rest ih =>
    rw [Database.writeClrs] at done
    cases body : r.body with
    | set header =>
      rw [createCompensationRecord_set d.wal body] at done
      exact ((WAL.Flushes.push d.wal _).trans (.getPage _ _)).trans (ih done)
    | _ => simp [createCompensationRecord, body] at done

end WAL.Flushes

theorem Session.step_flushes {s s' : Session} {op : WalOp} (run : s.step op = some s') :
    s.db.wal.Flushes s'.db.wal := by
  cases op with
  | begin =>
    simp only [step, Database.begin] at run
    split at run
    · rename_i began
      split at began
      · cases began
      · cases Option.some.inj began
        cases Option.some.inj run
        exact .append (by simp [WAL.pushMark, WAL.push, WAL.takeLsn]) rfl
    · cases run
  | set txnId loc writeLength data evicted =>
    cases Option.some.inj run
    have taken : s.db.wal.Flushes s.db.wal.takeLsn := .append le_rfl rfl
    have grown : (s.db.wal.takeLsn.getPage evicted).Flushes (s.db.set txnId loc writeLength data evicted).wal :=
      .append (List.length_append.symm ▸ Nat.le_add_right _ _) rfl
    exact (taken.trans (.getPage _ evicted)).trans grown
  | commit txnId =>
    cases Option.some.inj run
    have flushed : (s.db.wal.pushMark txnId .commit).Flushes (s.db.commit txnId).wal := ⟨le_rfl, Or.inr le_rfl⟩
    exact (WAL.Flushes.push s.db.wal _).trans flushed
  | abort txnId evicted =>
    simp only [step] at run
    split at run
    · rename_i d aborted
      cases Option.some.inj run
      unfold Database.abort at aborted
      dsimp only at aborted
      split at aborted
      · cases aborted
      · rename_i d' undone
        cases Except.ok.inj aborted
        exact ((WAL.Flushes.push s.db.wal _).trans (.writeClrs undone)).trans
          (.append (List.length_append.symm ▸ Nat.le_add_right _ _) rfl)
    · cases run
  | evict pageLsn =>
    cases Option.some.inj run
    exact .flushUpTo _ pageLsn
  | requestCheckpoint =>
    cases Option.some.inj run
    exact .append le_rfl rfl
  | checkpoint =>
    simp only [step] at run
    split at run
    · cases Option.some.inj run
      exact .append le_rfl rfl
    · cases run

namespace Versions
variable {v v' : Versions} {start : Session} {op : WalOp}

theorem step_session (run : v.step op = some v') : v.session.step op = some v'.session ∧
    ((∃ txnId, op = .commit txnId) ∧ v'.committed = v.committed ++ [v.session.db.pages] ∨
      (∀ txnId, op ≠ .commit txnId) ∧ v'.committed = v.committed) := by
  unfold step at run
  split at run
  · rename_i session done
    split at run
    · rename_i txnId
      cases Option.some.inj run
      exact ⟨done, Or.inl ⟨⟨txnId, rfl⟩, rfl⟩⟩
    · rename_i other
      cases Option.some.inj run
      exact ⟨done, Or.inr ⟨other, rfl⟩⟩
  · cases run

theorem reaches_session (reach : Reaches step Serial (Versions.start start) v) : Reaches Session.step SerialCall start v.session := by
  induction reach with
  | init => exact .init
  | next _ admitted run ih => exact ih.next admitted (step_session run).1

/-- The committed values of every part of the history are the pages as some commit has left them, and the log file has
all COMMIT records. -/
structure Tracks (start : Session) (v : Versions) : Prop where
  version : ∀ n, (start.db.pages :: v.committed)[commits ((newRecords start v.session).take n)]? =
    some (lastCommitted start.db.pages ((newRecords start v.session).take n))
  count : commits (newRecords start v.session) = v.committed.length
  flushed : commits ((newRecords start v.session).take (v.session.db.wal.unflushedRecordIndex - start.db.wal.records.length)) =
    v.committed.length

/-- What a call other than `commit` appends. -/
theorem quiet_effect {s s' : Session} {add : List InMemoryWALRecord} (effect : Session.Effect s op add s') (call : SerialCall s op)
    (other : ∀ txnId, op ≠ .commit txnId) : (∀ r ∈ add, r.body ≠ .commit) ∧ ∀ r ∈ add, isSet r → r.txnId ∈ s.openTxns := by
  cases effect with
  | begin =>
    refine ⟨fun r member body => ?_, fun r member set => ?_⟩
    · rw [List.mem_singleton.mp member] at body
      cases body
    · rw [List.mem_singleton.mp member] at set
      cases set
  | set =>
    refine ⟨fun r member body => ?_, fun r member _ => ?_⟩
    · rw [List.mem_singleton.mp member] at body
      cases body
    · rw [List.mem_singleton.mp member]
      exact call.1
  | commit => exact absurd rfl (other _)
  | abort =>
    refine ⟨fun r member body => ?_, fun r member _ => ?_⟩
    · rcases Session.mem_abortRecords member with ⟨_, _, rfl, rfl | rfl⟩ | ⟨_, _, _, _, _, _, rfl⟩ <;> cases body
    · rw [s.abortRecords_txnId _ _ r member]
      exact call
  | other => exact ⟨by simp, by simp⟩

/-- While no transaction is open, the pages have the committed values. -/
theorem idle_pages {s : Session} (inv : SessionInvariant start s) (idle : s.openTxns = []) :
    lastCommitted start.db.pages (newRecords start s) = s.db.pages := by
  rw [inv.pages]
  funext a
  have bytes := inv.isolated.byteInvariant a
  refine (bytes.clean fun id member => ?_).symm
  rw [idle] at member
  cases member

namespace Tracks

theorem init (s : Session) : Tracks s (Versions.start s) where
  version n := by
    have none : newRecords s (Versions.start s).session = [] := List.drop_length
    rw [none, List.take_nil]
    rfl
  count := by simp [Versions.start, newRecords, commits, committedTxns]
  flushed := by simp [Versions.start, newRecords, commits, committedTxns]

/-- Other records than COMMIT are part of no version. -/
theorem quiet (tracks : Tracks start v) (inv : SessionInvariant start v.session) (committed : v'.committed = v.committed)
    {add : List InMemoryWALRecord} (records : v'.session.db.wal.records = v.session.db.wal.records ++ add)
    (flushes : v.session.db.wal.unflushedRecordIndex ≤ v'.session.db.wal.unflushedRecordIndex)
    (none : ∀ r ∈ add, r.body ≠ .commit) (open_ : ∀ r ∈ add, isSet r → r.txnId ∈ v.session.openTxns) : Tracks start v' := by
  have new := inv.newRecords_append records
  have bytes := inv.isolated.byteInvariant 0
  have uncommitted : ∀ r ∈ add, isSet r → r.txnId ∉ committedTxns (newRecords start v.session) := fun r member set done =>
    bytes.unfinished _ (open_ r member set) (committed_finished done)
  have count : commits (newRecords start v'.session) = v'.committed.length := by
    rw [new, commits_append, commits_eq_zero none, Nat.add_zero, committed]
    exact tracks.count
  refine ⟨fun n => ?_, count, ((commits_take_le_whole _ _).trans count.le).antisymm ?_⟩
  · rw [new, committed]
    have earlier := tracks.version n
    by_cases short : n ≤ (newRecords start v.session).length
    · rwa [List.take_append_of_le_length short]
    · rw [List.take_of_length_le (by omega)] at earlier
      have part : ∀ r ∈ add.take (n - (newRecords start v.session).length), r ∈ add := fun r => List.mem_of_mem_take
      rw [List.take_append, List.take_of_length_le (by omega), commits_append,
        commits_eq_zero fun r member => none r (part r member), Nat.add_zero,
        lastCommitted_append (fun r member => none r (part r member)) fun r member => uncommitted r (part r member)]
      exact earlier
  · rw [committed, ← tracks.flushed, new]
    refine le_trans ?_ (commits_take_le (Nat.sub_le_sub_right flushes _))
    rw [List.take_append, commits_append]
    exact Nat.le_add_right _ _

/-- A commit leaves one more version, and everything in the log file. -/
theorem commit (tracks : Tracks start v) (inv : SessionInvariant start v.session) (inv' : SessionInvariant start v'.session)
    (order : SerialOrder v.session) {txnId : Nat} (opened : txnId ∈ v.session.openTxns)
    (committed : v'.committed = v.committed ++ [v.session.db.pages]) (run : v.session.step (.commit txnId) = some v'.session) :
    Tracks start v' := by
  obtain ⟨add, appends, effect⟩ := Session.step_appends run
  cases effect with
  | other kind => simp at kind
  | commit opens =>
    have new := inv.newRecords_append appends.records
    have one : commits [mark v.session.db.wal.nextLsn txnId .commit] = 1 := by simp [commits, committedTxns, mark, InMemoryWALRecord.withChecksum]
    have idle : v'.session.openTxns = [] := by
      obtain ⟨only, shape⟩ := List.length_eq_one_iff.mp (order.single.antisymm (List.length_pos_of_mem opened))
      rw [shape, List.mem_singleton] at opened
      rw [opens, shape, opened, List.erase_cons_head]
    have last := idle_pages inv' idle
    have same : v'.session.db.pages = v.session.db.pages := appends.pages
    have count : commits (newRecords start v'.session) = v'.committed.length := by
      rw [new, commits_append, one, committed, List.length_append, tracks.count]
      rfl
    have flushed : v'.session.db.wal.unflushedRecordIndex = v'.session.db.wal.records.length := by
      rw [← Option.some.inj run]
      rfl
    refine ⟨fun n => ?_, count, ?_⟩
    · by_cases short : n ≤ (newRecords start v.session).length
      · rw [new, List.take_append_of_le_length short, committed, ← List.cons_append]
        have earlier := tracks.version n
        rw [List.getElem?_append_left (List.getElem?_eq_some_iff.mp earlier).1]
        exact earlier
      · rw [List.take_of_length_le (by rw [new, List.length_append, List.length_singleton]; omega), count, last, same, committed,
          ← List.cons_append, List.length_append, List.length_singleton, ← List.length_cons (a := start.db.pages)]
        simp
    · rw [flushed, ← Bookkeeping.newRecords_length, List.take_length]
      exact count

theorem step (tracks : Tracks start v) (inv : SessionInvariant start v.session) (inv' : SessionInvariant start v'.session)
    (order : SerialOrder v.session) (call : v.Serial op) (run : v.step op = some v') : Tracks start v' := by
  obtain ⟨done, ⟨⟨txnId, rfl⟩, committed⟩ | ⟨other, committed⟩⟩ := step_session run
  · exact tracks.commit inv inv' order call committed done
  · obtain ⟨add, appends, effect⟩ := Session.step_appends done
    obtain ⟨none, open_⟩ := quiet_effect effect call other
    exact tracks.quiet inv committed appends.records ((Session.step_flushes done).lower inv.logHolds.upper) none open_

/-- Serial transactions keep the versions. -/
theorem reaches (ready : Ready start) (reach : Reaches Versions.step Serial (Versions.start start) v) (left : LsnsLeft start v.session) :
    Tracks start v := by
  induction reach with
  | init => exact .init start
  | next earlier call run ih =>
    have done := (step_session run).1
    have before := left.before (Session.step_records_length done)
    have first := reaches_session earlier
    obtain ⟨isolated, order⟩ := SerialOrder.reaches ready first before
    have later := (SerialOrder.reaches ready (first.next call done) left).1
    exact (ih before).step (ready.reaches isolated before) (ready.reaches later left) order call run

/-- A transaction begins with the pages that the last commit has left. -/
theorem idle (tracks : Tracks start v) (inv : SessionInvariant start v.session) (none : v.session.openTxns = []) :
    (start.db.pages :: v.committed)[v.committed.length]? = some v.session.db.pages := by
  have whole := tracks.version (newRecords start v.session).length
  rwa [List.take_length, tracks.count, idle_pages inv none] at whole

end Tracks

/-- A call that leads from `v` to `v'` is under way, or none is. -/
def During (v v' : Versions) : Prop :=
  v' = v ∨ ∃ op, v.Serial op ∧ op ≠ .checkpoint ∧ v.step op = some v'

end Versions

/-- The number of the version that a recovery from the crash finds. -/
def Crash.version {s s' : Session} (start : Session) (c : Crash s s') : Nat :=
  commits ((newRecords start s').take (c.covered - start.db.wal.records.length))

namespace Versions
variable {v v' : Versions} {start : Session}

theorem During.reaches (during : v.During v') (reach : Reaches step Serial (Versions.start start) v) :
    Reaches step Serial (Versions.start start) v' := by
  rcases during with rfl | ⟨op, call, _, run⟩
  · exact reach
  · exact reach.next call run

theorem During.before (during : v.During v') (left : LsnsLeft start v'.session) : LsnsLeft start v.session := by
  rcases during with rfl | ⟨op, _, _, run⟩
  · exact left
  · exact left.before (Session.step_records_length (step_session run).1)

/-- Serial transactions keep off each other's bytes. -/
theorem During.isolated (during : v.During v') (ready : Ready start) (reach : Reaches step Serial (Versions.start start) v)
    (left : LsnsLeft start v'.session) :
    Reaches Session.step IsolatedCall start v.session ∧ Session.During IsolatedCall v.session v'.session := by
  obtain ⟨isolated, order⟩ := SerialOrder.reaches ready (reaches_session reach) (during.before left)
  refine ⟨isolated, ?_⟩
  rcases during with rfl | ⟨op, call, other, run⟩
  · exact Or.inl rfl
  · exact Or.inr ⟨op, order.isolatedCall call, other, (step_session run).1⟩

end Versions

/-- A recovery leaves the pages as the last commit that has returned before the crash had left them, or as the commit left
them that was under way: it takes transactions as a whole, and loses none. -/
theorem recover_version {start : Session} (ready : Ready start) {v v' : Versions}
    (reach : Reaches Versions.step Versions.Serial (Versions.start start) v) (during : v.During v')
    (left : LsnsLeft start v'.session) (c : Crash v.session v'.session) (harmless : c.TornHarmless) (iteration : SetIteration)
    (evictedRedo evictedUndo : Nat → Option Nat) :
    ∃ d, recover iteration c.reopened evictedRedo evictedUndo = .ok d ∧
      v.committed.length ≤ c.version start ∧ c.version start ≤ v'.committed.length ∧
      (start.db.pages :: v'.committed)[c.version start]? = some d.pages := by
  obtain ⟨isolated, between⟩ := during.isolated ready reach left
  have before := during.before left
  obtain ⟨d, _, _, run, result, _⟩ := c.recover_reopened ready isolated between left iteration evictedRedo evictedUndo
  have bytes := (c.recovered_iff ready (ready.reaches (between.reaches isolated) left) result).mpr harmless
  have tracks := Versions.Tracks.reaches ready reach before
  have tracks' := Versions.Tracks.reaches ready (during.reaches reach) left
  refine ⟨d, run, ?_, (commits_take_le_whole _ _).trans tracks'.count.le, ?_⟩
  · obtain ⟨add, records⟩ := between.grows
    have new := (ready.reaches isolated before).newRecords_append records
    have reached : v.session.db.wal.unflushedRecordIndex ≤ c.covered := c.flushed.trans (le_max_left _ _)
    rw [← tracks.flushed]
    refine le_trans ?_ (commits_take_le (Nat.sub_le_sub_right reached _))
    rw [new, List.take_append, commits_append]
    exact Nat.le_add_right _ _
  · have pages : d.pages = Crash.committedView start v'.session c.covered := funext bytes
    rw [pages]
    exact tracks'.version _

instance (v : Versions) (op : WalOp) : Decidable (v.Serial op) :=
  inferInstanceAs (Decidable (SerialCall v.session op))

/-- The first transaction has committed, the second one has written to the same byte. -/
def twoWriters : Versions :=
  (run Versions.step Versions.Serial (.start .empty) [.begin, .set 0 0 1 [1] none, .commit 0, .begin, .set 3 0 1 [2] none]).getD (.start .empty)

def secondCommitted : Versions := (twoWriters.step (.commit 3)).getD twoWriters

/-- The flush of the second commit is cut after the SET record. -/
def beforeMark : Crash twoWriters.session secondCommitted.session where
  logged := 5
  image _ := 0
  flushed := by decide
  created := by decide
  imageLower _ := by decide
  imageUpper _ := by decide
  imageLogged _ _ _ _ _ upper := absurd upper (Nat.not_lt_zero _)

/-- The value of the first one is recovered. -/
theorem recover_version_beforeMark : ∃ d, recover .asInserted beforeMark.reopened quiet quiet = .ok d ∧
    twoWriters.committed.length ≤ beforeMark.version .empty ∧
    beforeMark.version .empty ≤ secondCommitted.committed.length ∧
    (Session.empty.db.pages :: secondCommitted.committed)[beforeMark.version .empty]? = some d.pages :=
  recover_version (Session.fresh_ready _) (.of_isSome (by decide)) (Or.inr ⟨.commit 3, by decide, by simp, rfl⟩) (by decide) beforeMark
    (Or.inl (by decide)) .asInserted quiet quiet

end DiskMap
