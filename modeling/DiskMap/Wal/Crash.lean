import DiskMap.Wal.Recovery

namespace DiskMap
open ByteMemory Database GuardedRun

/-- A call that leads from `s` to `s'` is under way, or none is. The states before and after a
checkpoint stand for themselves. -/
def Session.During (guard : Session → WalOp → Prop) (s s' : Session) : Prop :=
  s' = s ∨ ∃ op, guard s op ∧ op ≠ .checkpoint ∧ s.step op = some s'

/-- A crash at such a time. The log file has got the records up to the one with index `logged`,
since a flush may be cut between two records, and the page `p` of the data file is as the first
`image p` records left it. Only pages whose records are logged have reached the data file. -/
structure Crash (s s' : Session) where
  logged : Nat
  image : Nat → Nat
  flushed : s.db.wal.unflushedRecordIndex ≤ logged
  created : logged ≤ s'.db.wal.records.length
  imageLower : ∀ page, s'.durableRecords ≤ image page
  imageUpper : ∀ page, image page ≤ s'.db.wal.records.length
  imageLogged : ∀ (i : Nat) r a, s'.db.wal.records[i]? = some r → s'.durableRecords ≤ i → i < image (a / pageSize) →
    r.newByte a ≠ none → i < logged

namespace Crash
variable {s s' : Session}

def log (c : Crash s s') : List UInt8 :=
  s.db.wal.log ++ encodeAll ((s'.db.wal.records.take c.logged).drop s.db.wal.unflushedRecordIndex)

def pages (c : Crash s s') : Mem := fun a =>
  redo ((s'.db.wal.records.take (c.image (a / pageSize))).drop s'.durableRecords) s'.durable a

/-- The WAL object that the next process opens over the two files. -/
def reopened (c : Crash s s') : Database where
  wal := { log := c.log }
  pages := c.pages

/-- The records that the log file still has. -/
def survivors (c : Crash s s') : List InMemoryWALRecord :=
  (s'.db.wal.records.take c.logged).drop s'.logStart

/-- The number of the records that are in the log or were covered by a checkpoint. -/
def covered (c : Crash s s') : Nat :=
  max c.logged s'.durableRecords

/-- A flush that the crash has cut inside records which the last checkpoint had absorbed leaves
only values behind that the data file has already: where the first SET of an unfinished
transaction covers a byte its old value, and elsewhere the value of the last record. -/
def TornHarmless (c : Crash s s') : Prop :=
  s'.durableRecords ≤ c.logged ∨ ∀ a, (∀ v, firstOld (unfinished c.survivors) a = some v → v = s'.durable a) ∧
    (firstOld (unfinished c.survivors) a = none → ∀ v, lastNew c.survivors a = some v → v = s'.durable a)

end Crash

theorem Session.During.grows {guard : Session → WalOp → Prop} {s s' : Session} (during : Session.During guard s s') :
    ∃ add, s'.db.wal.records = s.db.wal.records ++ add := by
  rcases during with rfl | ⟨op, _, _, run⟩
  · exact ⟨[], (List.append_nil _).symm⟩
  · exact Session.step_records run

theorem Session.During.logStart {guard : Session → WalOp → Prop} {s s' : Session} (during : Session.During guard s s') :
    s'.logStart = s.logStart := by
  rcases during with rfl | ⟨op, _, other, run⟩
  · rfl
  · exact (Session.step_durable other run).2.2.1

theorem Session.During.reaches {guard : Session → WalOp → Prop} {start s s' : Session}
    (during : Session.During guard s s') (reach : Reaches Session.step guard start s) :
    Reaches Session.step guard start s' := by
  rcases during with rfl | ⟨op, admitted, _, run⟩
  · exact reach
  · exact reach.next admitted run

namespace Crash
variable {guard : Session → WalOp → Prop} {start s s' : Session}

theorem log_eq (during : Session.During guard s s') (holds : s.db.wal.LogHolds s.logStart) (c : Crash s s') :
    c.log = encodeAll c.survivors := by
  obtain ⟨add, records⟩ := during.grows
  have cut : s.db.wal.records.take s.db.wal.unflushedRecordIndex =
      (s'.db.wal.records.take c.logged).take s.db.wal.unflushedRecordIndex := by
    rw [List.take_take, Nat.min_eq_left c.flushed, records, List.take_append_of_le_length holds.upper]
  have length : ((s'.db.wal.records.take c.logged).take s.db.wal.unflushedRecordIndex).length =
      s.db.wal.unflushedRecordIndex := by
    have created := c.created
    have flushed := c.flushed
    simp only [List.length_take]
    omega
  rw [log, survivors, holds.content, cut, ← encodeAll_append, during.logStart,
    ← List.drop_append_of_le_length (by rw [length]; exact holds.lower), List.take_append_drop]

/-- A byte that no logged record since the last checkpoint touches is as the checkpoint left it. -/
theorem pages_untouched (c : Crash s s') {a : Nat}
    (untouched : ∀ r ∈ (s'.db.wal.records.take c.logged).drop s'.durableRecords, r.newByte a = none) :
    c.pages a = s'.durable a := by
  have quiet : lastNew ((s'.db.wal.records.take (c.image (a / pageSize))).drop s'.durableRecords) a = none := by
    rw [lastNew_eq_none]
    intro r member
    by_contra touch
    obtain ⟨i, found⟩ := List.mem_iff_getElem?.mp member
    rw [List.getElem?_drop, List.getElem?_take] at found
    split at found
    · rename_i within
      have logged := c.imageLogged _ r a found (Nat.le_add_right _ _) within touch
      refine touch (untouched r (List.mem_iff_getElem?.mpr ⟨i, ?_⟩))
      rw [List.getElem?_drop, List.getElem?_take, if_pos logged]
      exact found
    · cases found
  rw [pages, redo_byte, quiet, Option.getD_none]

/-- What the last transactions have left, of those with a COMMIT among the first `n` records. -/
def committedView (start s : Session) (n : Nat) : Mem :=
  lastCommitted start.db.pages ((newRecords start s).take (n - start.db.wal.records.length))

/-- The data file has the committed value of each byte after a checkpoint. -/
theorem durable_committed (inv : SessionInvariant start s) (a : Nat) :
    s.durable a = committedView start s s.durableRecords a := by
  have bytes := inv.durableIdle.byteInvariant a
  rw [inv.durable]
  exact bytes.clean (by simp)

/-- The records that the last checkpoint has absorbed give no other value than the data file. -/
theorem durable_absorbed (ready : Ready start) (inv : SessionInvariant start s) {a : Nat} {v : UInt8}
    (last : lastNew (s.db.wal.records.take s.durableRecords) a = some v) : s.durable a = v := by
  have split : s.db.wal.records.take s.durableRecords = start.db.wal.records ++
      (newRecords start s).take (s.durableRecords - start.db.wal.records.length) := by
    conv_lhs => rw [inv.shape]
    rw [List.take_append, List.take_of_length_le inv.durableLower]
  rw [split, lastNew_append] at last
  rw [inv.durable, redo_byte]
  cases own : lastNew ((newRecords start s).take (s.durableRecords - start.db.wal.records.length)) a with
  | some w =>
    rw [own] at last
    exact Option.some.inj last
  | none =>
    rw [own, Option.none_or] at last
    exact ready.absorbed a v last

theorem settled (ready : Ready start) (inv : SessionInvariant start s) : Settled s.db.wal.records := by
  have whole : ∀ k, Settled (start.db.wal.records ++ (newRecords start s).take k) := by
    intro k
    obtain ⟨ids, phase, log⟩ := inv.isolated.take k
    have front : ∀ r ∈ (newRecords start s).take k, isSet r → r.txnId ∉ finishedTxns start.db.wal.records := by
      intro r member set finished
      obtain ⟨r', inside, lsn⟩ := log.begun.2 r member set
      have lower := inv.fresh r' (List.mem_of_mem_take inside)
      obtain ⟨old, inside, same⟩ := List.mem_map.mp finished
      have upper := ready.ordered old (List.mem_filter.mp inside).1
      omega
    have own := log.settled
    generalize (newRecords start s).take k = new at own front
    clear log
    induction new using List.reverseRecOn with
    | nil => simpa using ready.settled
    | append_singleton new r ih =>
      have earlier : Settled new := fun front' r' back shape =>
        own front' r' (back ++ [r]) (by rw [shape, List.append_assoc]; rfl)
      rw [← List.append_assoc]
      refine (ih earlier fun r' member => front r' (List.mem_append_left _ member)).snoc fun set finished => ?_
      rw [finishedTxns, List.filter_append, List.map_append, List.mem_append] at finished
      rcases finished with old | new'
      · exact front r (by simp) set old
      · exact own new r [] rfl set new'
  have all := whole (newRecords start s).length
  rwa [List.take_length, ← inv.shape] at all

/-- The history that a crash has left, if its flush got past the last checkpoint. -/
theorem take_logged (inv : SessionInvariant start s') (c : Crash s s') (past : s'.durableRecords ≤ c.logged) :
    s'.db.wal.records.take c.logged =
      start.db.wal.records ++ (newRecords start s').take (c.logged - start.db.wal.records.length) := by
  have lower := inv.durableLower
  conv_lhs => rw [inv.shape]
  rw [List.take_append, List.take_of_length_le (by omega)]

section
variable {ids : List Nat} {phase : Option Nat} {c : Crash s s'}

theorem not_in_start (ready : Ready start) (inv : SessionInvariant start s')
    (log : Isolated start.db.pages ((newRecords start s').take (c.logged - start.db.wal.records.length)) ids phase)
    {id : Nat} (opened : id ∈ ids) {r : InMemoryWALRecord} (member : r ∈ start.db.wal.records) : r.txnId ≠ id := by
  obtain ⟨r', inside, lsn⟩ := log.begun.1 id opened
  have lower := inv.fresh r' (List.mem_of_mem_take inside)
  have upper := ready.ordered r member
  omega

/-- A SET in the log whose transaction is not finished there belongs to the new session. -/
theorem unfinished_survivor (ready : Ready start) (inv : SessionInvariant start s')
    (past : s'.durableRecords ≤ c.logged)
    (log : Isolated start.db.pages ((newRecords start s').take (c.logged - start.db.wal.records.length)) ids phase)
    {r : InMemoryWALRecord} (member : r ∈ c.survivors) (set : isSet r) (open_ : r.txnId ∉ finishedTxns c.survivors) :
    r ∈ (newRecords start s').take (c.logged - start.db.wal.records.length) ∧ r.txnId ∈ ids := by
  have shape := take_logged inv c past
  have survivors : c.survivors = start.db.wal.records.drop s'.logStart ++
      ((newRecords start s').take (c.logged - start.db.wal.records.length)).drop
        (s'.logStart - start.db.wal.records.length) := by
    rw [Crash.survivors, shape, List.drop_append]
  have inside : ∀ part : List InMemoryWALRecord, (∀ r' ∈ part, r' ∈ c.survivors) → r.txnId ∉ finishedTxns part := by
    intro part sub finished
    obtain ⟨r', found, same⟩ := List.mem_map.mp finished
    obtain ⟨member', mark⟩ := List.mem_filter.mp found
    exact open_ (List.mem_map.mpr ⟨r', List.mem_filter.mpr ⟨sub r' member', mark⟩, same⟩)
  rw [survivors] at member
  rcases List.mem_append.mp member with old | new
  · obtain ⟨front, back, split⟩ := List.append_of_mem old
    have finished := ready.finished (start.db.wal.records.take s'.logStart ++ front) r back
      (by rw [List.append_assoc, ← split, List.take_append_drop]) set
    refine absurd finished (inside back fun r' member' => ?_)
    rw [survivors, split]
    exact List.mem_append_left _ (List.mem_append_right _ (List.mem_cons_of_mem _ member'))
  · have own := List.mem_of_mem_drop new
    refine ⟨own, ((log.byteInvariant 0).owned r own set).resolve_right fun finished => ?_⟩
    obtain ⟨front, back, split⟩ := List.append_of_mem new
    have whole : (newRecords start s').take (c.logged - start.db.wal.records.length) =
        ((newRecords start s').take (c.logged - start.db.wal.records.length)).take
          (s'.logStart - start.db.wal.records.length) ++ front ++ r :: back := by
      rw [List.append_assoc, ← split, List.take_append_drop]
    have before := log.settled _ r back whole set
    have after := inside (r :: back) fun r' member' => by
      rw [survivors, split]
      exact List.mem_append_right _ (List.mem_append_right _ member')
    rw [whole, finishedTxns, List.filter_append, List.map_append, List.mem_append] at finished
    exact finished.elim before after

/-- A transaction that is unfinished in what is covered has set nothing before the log starts. -/
theorem open_sets_survive (ready : Ready start) (inv : SessionInvariant start s')
    (past : s'.durableRecords ≤ c.logged)
    (log : Isolated start.db.pages ((newRecords start s').take (c.logged - start.db.wal.records.length)) ids phase)
    {id : Nat} (opened : id ∈ ids) :
    c.survivors.filter (setBy id) =
      ((newRecords start s').take (c.logged - start.db.wal.records.length)).filter (setBy id) := by
  have shape := take_logged inv c past
  have none_old : start.db.wal.records.filter (setBy id) = [] := by
    rw [List.filter_eq_nil_iff]
    intro r member byId
    exact not_in_start ready inv log opened member (setBy_iff.mp byId).2
  have none_before : ((s'.db.wal.records.take c.logged).take s'.logStart).filter (setBy id) = [] := by
    rw [List.filter_eq_nil_iff]
    intro r member byId
    have bound := inv.logStartBound
    have early : r ∈ s'.db.wal.records.take s'.durableRecords := by
      rw [List.take_take, Nat.min_eq_left (bound.trans past)] at member
      exact (List.take_sublist_take_left bound).subset member
    have split : s'.db.wal.records.take s'.durableRecords = start.db.wal.records ++
        (newRecords start s').take (s'.durableRecords - start.db.wal.records.length) := by
      conv_lhs => rw [inv.shape]
      rw [List.take_append, List.take_of_length_le inv.durableLower]
    rw [split] at early
    rcases List.mem_append.mp early with old | new
    · exact not_in_start ready inv log opened old (setBy_iff.mp byId).2
    · have owner := (inv.durableIdle.byteInvariant 0).owned r new (setBy_iff.mp byId).1
      obtain ⟨r', found, same⟩ := List.mem_map.mp (owner.resolve_left (by simp))
      obtain ⟨inside, mark⟩ := List.mem_filter.mp found
      refine (log.byteInvariant 0).unfinished id opened (List.mem_map.mpr ⟨r', List.mem_filter.mpr ⟨?_, mark⟩, ?_⟩)
      · exact (List.take_sublist_take_left (by omega)).subset inside
      · rw [same, (setBy_iff.mp byId).2]
  have whole : (s'.db.wal.records.take c.logged).filter (setBy id) = c.survivors.filter (setBy id) := by
    conv_lhs => rw [← List.take_append_drop s'.logStart (s'.db.wal.records.take c.logged)]
    rw [List.filter_append, none_before, List.nil_append]
    rfl
  rw [← whole, shape, List.filter_append, none_old, List.nil_append]

end

/-- Once the flush has got past the last checkpoint, recovery finds the committed values. -/
theorem replay_committed (ready : Ready start) (inv : SessionInvariant start s') (c : Crash s s')
    (past : s'.durableRecords ≤ c.logged) (a : Nat) :
    (replayValue c.survivors a).getD (c.pages a) = committedView start s' c.logged a := by
  obtain ⟨ids, phase, log⟩ := inv.isolated.take (c.logged - start.db.wal.records.length)
  have bytes := log.byteInvariant a
  have shape := take_logged inv c past
  by_cases dirty : ∃ id ∈ ids,
      SetsByte ((newRecords start s').take (c.logged - start.db.wal.records.length)) id a
  · obtain ⟨id, opened, set⟩ := dirty
    have same : firstOld (unfinished c.survivors) a = firstOld (c.survivors.filter (setBy id)) a := by
      refine firstOld_filter_congr fun r member touch => ?_
      obtain ⟨v, old⟩ := Option.ne_none_iff_exists'.mp touch
      have isSet := r.isSet_of_oldByte old
      by_cases own : r.txnId = id
      · have open_ : r.txnId ∉ finishedTxns c.survivors := by
          intro finished
          obtain ⟨r', found, same⟩ := List.mem_map.mp finished
          obtain ⟨inside, mark⟩ := List.mem_filter.mp found
          have history := List.mem_of_mem_drop inside
          rw [shape] at history
          rcases List.mem_append.mp history with old | new
          · exact not_in_start ready inv log opened old (same.trans own)
          · exact bytes.unfinished id opened
              (List.mem_map.mpr ⟨r', List.mem_filter.mpr ⟨new, mark⟩, same.trans own⟩)
        subst own
        simp [open_, setBy, isSet]
      · have closed : r.txnId ∈ finishedTxns c.survivors := by
          by_contra open_
          obtain ⟨inside, opened'⟩ := unfinished_survivor ready inv past log member isSet open_
          have touches : r.newByte a ≠ none := by
            rwa [Ne, ← InMemoryWALRecord.oldByte_eq_none_iff isSet]
          exact own (bytes.exclusive _ opened' _ opened ⟨r, inside, setBy_iff.mpr ⟨isSet, rfl⟩, touches⟩ set)
        simp [closed, setBy, own]
    obtain ⟨v, old⟩ := Option.ne_none_iff_exists'.mp fun none => txnOld_eq_none_iff.mp none set
    have value := bytes.dirty id opened v old
    rw [replayValue, same, open_sets_survive ready inv past log opened]
    rw [txnOld] at old
    rw [old, Option.some_or, Option.getD_some, value]
    rfl
  · have clean := bytes.clean fun id opened set => dirty ⟨id, opened, set⟩
    have nothing : firstOld (unfinished c.survivors) a = none := by
      rw [firstOld_eq_none]
      intro r member
      by_contra touch
      obtain ⟨v, old⟩ := Option.ne_none_iff_exists'.mp touch
      have isSet := r.isSet_of_oldByte old
      obtain ⟨inside, open_⟩ := List.mem_filter.mp member
      obtain ⟨own, opened⟩ := unfinished_survivor ready inv past log inside isSet (by simpa using open_)
      refine dirty ⟨_, opened, r, own, setBy_iff.mpr ⟨isSet, rfl⟩, ?_⟩
      rwa [Ne, ← InMemoryWALRecord.oldByte_eq_none_iff isSet]
    have total : redo ((newRecords start s').take (c.logged - start.db.wal.records.length)) start.db.pages =
        redo ((s'.db.wal.records.take c.logged).drop s'.durableRecords) s'.durable := by
      have lower := inv.durableLower
      rw [inv.durable, ← redo_append, shape, List.drop_append, List.drop_of_length_le lower, List.nil_append]
      conv_lhs => rw [← List.take_append_drop (s'.durableRecords - start.db.wal.records.length)
        ((newRecords start s').take (c.logged - start.db.wal.records.length))]
      rw [List.take_take, Nat.min_eq_left (by omega)]
    have value : committedView start s' c.logged a =
        redo ((s'.db.wal.records.take c.logged).drop s'.durableRecords) s'.durable a := by
      rw [← total, clean]
      rfl
    have cut : c.survivors = ((s'.db.wal.records.take c.logged).take s'.durableRecords).drop s'.logStart ++
        (s'.db.wal.records.take c.logged).drop s'.durableRecords := by
      have bound := inv.logStartBound
      have upper := inv.durableUpper
      rw [← List.drop_append_of_le_length (by simp only [List.length_take]; omega), List.take_append_drop]
      rfl
    rw [replayValue, nothing, Option.none_or, cut, lastNew_append, value, redo_byte]
    cases recent : lastNew ((s'.db.wal.records.take c.logged).drop s'.durableRecords) a with
    | some v => rfl
    | none =>
      have untouched := c.pages_untouched (lastNew_eq_none.mp recent)
      rw [Option.none_or, Option.getD_none, untouched, List.take_take, Nat.min_eq_left past]
      cases older : lastNew ((s'.db.wal.records.take s'.durableRecords).drop s'.logStart) a with
      | none => rfl
      | some v =>
        have whole : lastNew (s'.db.wal.records.take s'.durableRecords) a = some v := by
          rw [← List.take_append_drop s'.logStart (s'.db.wal.records.take s'.durableRecords), lastNew_append, older,
            Option.some_or]
        exact (durable_absorbed ready inv whole).symm

end Crash

end DiskMap
