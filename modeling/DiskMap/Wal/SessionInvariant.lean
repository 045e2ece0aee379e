import DiskMap.Wal.Bookkeeping

namespace DiskMap
open ByteMemory Database GuardedRun

/-- What holds in every state of a session whose clients keep off each other's bytes: the pages
are the redone records, and a checkpoint has caught the database between transactions. -/
structure SessionInvariant (start s : Session) : Prop extends Bookkeeping start s where
  pages : s.db.pages = redo (newRecords start s) start.db.pages
  isolated : Isolated start.db.pages (newRecords start s) s.openTxns none
  valid : ∀ r ∈ newRecords start s, r.Valid
  logHolds : s.db.wal.LogHolds s.logStart
  durableLower : start.db.wal.records.length ≤ s.durableRecords
  durableUpper : s.durableRecords ≤ s.db.wal.records.length
  logStartBound : s.logStart ≤ s.durableRecords
  durable : s.durable = redo ((newRecords start s).take (s.durableRecords - start.db.wal.records.length)) start.db.pages
  durableIdle : Isolated start.db.pages
    ((newRecords start s).take (s.durableRecords - start.db.wal.records.length)) [] none

theorem IsolatedCall.openCall {s : Session} {op : WalOp} (call : IsolatedCall s op) : OpenCall s op := by
  cases op with
  | set txnId loc writeLength data evicted => exact call.1
  | abort txnId evicted => exact call.1
  | commit txnId => exact call
  | begin => trivial
  | evict pageLsn => trivial
  | requestCheckpoint => trivial
  | checkpoint => trivial

theorem Ready.invariant {s : Session} (ready : Ready s) : SessionInvariant s s where
  toBookkeeping := ready.bookkeeping
  pages := by simp [newRecords, redo]
  isolated := by simpa [newRecords, ready.noTxns] using Isolated.nil
  valid := by simp [newRecords]
  logHolds := ready.logHolds
  durableLower := ready.durableRecords.ge
  durableUpper := ready.durableRecords.le
  logStartBound := by
    rw [ready.durableRecords]
    exact ready.logHolds.lower.trans ready.logHolds.upper
  durable := by simp [newRecords, redo, ready.durable]
  durableIdle := by simpa [newRecords] using Isolated.nil

namespace SessionInvariant
variable {start s s' : Session}

/-- Appending records that continue the isolated history keeps the invariant. -/
theorem grow (inv : SessionInvariant start s) (books : Bookkeeping start s') {add : List InMemoryWALRecord}
    (appends : s.Appends add s') {op : WalOp} (other : op ≠ .checkpoint) (run : s.step op = some s')
    (isolated : Isolated start.db.pages (newRecords start s ++ add) s'.openTxns none)
    (valid : ∀ r ∈ add, r.Valid) : SessionInvariant start s' := by
  obtain ⟨durable, durableRecords, logStart, logHolds⟩ := Session.step_durable other run
  have new := inv.newRecords_append appends.records
  have upper := inv.durableUpper
  have old : (newRecords start s').take (s'.durableRecords - start.db.wal.records.length) =
      (newRecords start s).take (s.durableRecords - start.db.wal.records.length) := by
    rw [new, durableRecords,
      List.take_append_of_le_length (by rw [Bookkeeping.newRecords_length]; exact Nat.sub_le_sub_right upper _)]
  refine ⟨books, ?_, ?_, ?_, ?_, ?_, ?_, ?_, ?_, ?_⟩
  · rw [new, redo_append, ← inv.pages, appends.pages]
  · rwa [new]
  · rw [new]
    intro r member
    rcases List.mem_append.mp member with earlier | added
    · exact inv.valid r earlier
    · exact valid r added
  · rw [logStart]
    exact logHolds _ inv.logHolds
  · rw [durableRecords]
    exact inv.durableLower
  · rw [durableRecords, appends.records, List.length_append]
    exact upper.trans (Nat.le_add_right _ _)
  · rw [logStart, durableRecords]
    exact inv.logStartBound
  · rw [old, durable, inv.durable]
  · rw [old]
    exact inv.durableIdle

/-- A checkpoint that has waited for the active transactions. -/
theorem checkpoint (inv : SessionInvariant start s) (books : Bookkeeping start s')
    (run : s.step .checkpoint = some s') : SessionInvariant start s' := by
  simp only [Session.step] at run
  split at run
  swap
  · cases run
  rename_i done
  cases Option.some.inj run
  have noTxns : s.openTxns = [] := by
    have active := inv.active
    have waited := done.2
    exact List.eq_nil_of_length_eq_zero (by omega)
  have all : (newRecords start s).take (s.db.wal.records.length - start.db.wal.records.length) =
      newRecords start s := List.take_of_length_le (Bookkeeping.newRecords_length start s).le
  refine ⟨books, inv.pages, inv.isolated, inv.valid, ⟨rfl, le_rfl, inv.logHolds.upper, ?_⟩, inv.lower, le_rfl,
    inv.logHolds.upper, ?_, ?_⟩
  · simp [checkpointInternal, encodeAll]
  · exact inv.pages.trans (congrArg (fun l => redo l start.db.pages) all.symm)
  · have idle := inv.isolated
    rw [noTxns, ← all] at idle
    exact idle

theorem setsByte_records (inv : SessionInvariant start s) {id a : Nat} (set : SetsByte (newRecords start s) id a) :
    SetsByte s.db.wal.records id a := by
  obtain ⟨r, member, found⟩ := set
  rw [inv.shape]
  exact ⟨r, List.mem_append_right _ member, found⟩

theorem mark_valid {lsn txnId : Nat} {body : RecordBody} (small : lsn < 2 ^ 32) (txn : txnId < 2 ^ 32)
    (fits : body.Fits) (plain : recordDataSize body = 0) : (mark lsn txnId body).Valid :=
  ⟨rfl, small, txn, fits, plain.symm⟩

theorem begin_isolated (inv : SessionInvariant start s) {counter : Nat} :
    Isolated start.db.pages (newRecords start s ++ [mark s.db.wal.nextLsn counter .begin])
      (s.db.wal.nextLsn :: s.openTxns) none := by
  refine .begin inv.isolated rfl (fun member => ?_) fun r member _ => ?_
  · exact absurd (inv.openIds _ member).2 (Nat.lt_irrefl _)
  · have bound := inv.ordered r (by rw [inv.shape]; exact List.mem_append_right _ member)
    change r.txnId ≠ s.db.wal.nextLsn
    omega

theorem set_isolated (inv : SessionInvariant start s) {txnId loc writeLength : Nat} {data : List UInt8}
    {evicted : Option Nat} (call : IsolatedCall s (.set txnId loc writeLength data evicted)) :
    Isolated start.db.pages (newRecords start s ++ [s.db.setRecord txnId loc writeLength data]) s.openTxns none := by
  obtain ⟨opened, inside, apart⟩ := call
  refine .set inv.isolated setRecord_isSet opened ?_ ?_
  · intro a v old
    rw [setRecord_old inside old, inv.pages]
  · intro a touch id' member different set
    obtain ⟨lower, upper⟩ := (setRecord_touches inside).mp touch
    exact apart a lower upper id' member different (inv.setsByte_records set)

/-- The rollback undoes exactly the SET records of the transaction, last one first. -/
theorem abortUndo_eq (ready : Ready start) (inv : SessionInvariant start s) {txnId : Nat} (opened : txnId ∈ s.openTxns)
    (covers : RollbackCovers s.db.wal.records txnId) :
    s.db.abortUndo txnId = ((newRecords start s).filter (setBy txnId)).reverse := by
  have skipped : (s.db.wal.records.take (undoStart s.db.wal.records txnId)).filter (setBy txnId) = [] := by
    rw [List.filter_eq_nil_iff]
    exact covers
  have foreign : start.db.wal.records.filter (setBy txnId) = [] := by
    rw [List.filter_eq_nil_iff]
    intro r' member byId
    have old := ready.ordered r' member
    have lower := (inv.openIds txnId opened).1
    have own := (setBy_iff.mp byId).2
    omega
  have whole : s.db.wal.records.filter (setBy txnId) = (newRecords start s).filter (setBy txnId) := by
    rw [inv.shape, List.filter_append, foreign, List.nil_append]
  have dropped : (s.db.wal.records.drop (undoStart s.db.wal.records txnId)).filter (setBy txnId) =
      s.db.wal.records.filter (setBy txnId) := by
    conv_rhs => rw [← List.take_append_drop (undoStart s.db.wal.records txnId) s.db.wal.records]
    rw [List.filter_append, skipped, List.nil_append]
  rw [abortUndo_eq_drop fun r member own => inv.noClr r member (own ▸ opened), dropped, whole]

/-- The CLRs of an abort, one after another. -/
theorem isolated_clrs {init : Mem} {txnId : Nat} (clrs : List InMemoryWALRecord) {records : List InMemoryWALRecord}
    {ids : List Nat} (log : Isolated init records ids (some txnId))
    (each : ∀ clr ∈ clrs, clr.txnId = txnId ∧ (∃ c, clr.body = .clr c) ∧
      ∀ a, clr.newByte a ≠ none → SetsByte records txnId a) :
    Isolated init (records ++ clrs) ids (some txnId) := by
  induction clrs generalizing records with
  | nil => simpa using log
  | cons clr rest ih =>
    obtain ⟨own, ⟨c, body⟩, inside⟩ := each clr List.mem_cons_self
    subst own
    have next := Isolated.clr log body inside
    have later := ih next fun clr' member => by
      obtain ⟨own', body', inside'⟩ := each clr' (List.mem_cons_of_mem _ member)
      exact ⟨own', body', fun a touch => setsByte_snoc.mpr (Or.inl (inside' a touch))⟩
    simpa using later

theorem abort_isolated (ready : Ready start) (inv : SessionInvariant start s) {txnId last : Nat}
    {evicted : Nat → Option Nat} (call : IsolatedCall s (.abort txnId evicted)) :
    Isolated start.db.pages (newRecords start s ++ s.abortRecords txnId last) (s.openTxns.erase txnId) none := by
  obtain ⟨opened, covers⟩ := call
  unfold Session.abortRecords
  rw [abortUndo_eq ready inv opened covers]
  generalize undoEq : (newRecords start s).filter (setBy txnId) = undo
  have sets : ∀ r ∈ undo, r ∈ newRecords start s ∧ setBy txnId r := by
    intro r member
    rw [← undoEq] at member
    exact List.mem_filter.mp member
  have isSets : ∀ r ∈ undo.reverse, isSet r := fun r member =>
    (setBy_iff.mp (sets r (List.mem_reverse.mp member)).2).1
  generalize clrsEq : compensations ((s.db.wal.nextLsn + 1) % 2 ^ 32) undo.reverse = clrs
  have origin : ∀ clr ∈ clrs, ∃ r ∈ undo, ∃ s lsn, r.body = .set s ∧ lsn < 2 ^ 32 ∧ clr = compensation lsn r s := by
    intro clr member
    rw [← clrsEq] at member
    obtain ⟨r, inside, found⟩ := mem_compensations (Nat.mod_lt _ (by decide)) isSets member
    exact ⟨r, List.mem_reverse.mp inside, found⟩
  let first := mark s.db.wal.nextLsn txnId .abortBegin
  let final := mark last txnId .abortEnd
  have opening : Isolated start.db.pages (newRecords start s ++ [first]) s.openTxns (some txnId) :=
    .abortBegin inv.isolated rfl opened
  have undone := isolated_clrs clrs opening fun clr member => by
    obtain ⟨r, inside, header, lsn, body, _, shape⟩ := origin clr member
    subst shape
    refine ⟨(setBy_iff.mp (sets r inside).2).2, ⟨_, rfl⟩, fun a touch => ?_⟩
    rw [compensation_newByte lsn body] at touch
    have newTouch : r.newByte a ≠ none := by
      rwa [Ne, ← InMemoryWALRecord.oldByte_eq_none_iff (setBy_iff.mp (sets r inside).2).1]
    exact ⟨r, List.mem_append_left _ (sets r inside).1, (sets r inside).2, newTouch⟩
  have closed : Isolated start.db.pages (newRecords start s ++ [first] ++ clrs ++ [final]) (s.openTxns.erase txnId)
      none := Isolated.abortEnd undone rfl fun a v old => ?_
  · simpa using closed
  · have otherClrs : clrs.filter (setBy txnId) = [] := by
      rw [List.filter_eq_nil_iff]
      intro clr member byId
      obtain ⟨_, _, _, _, _, _, shape⟩ := origin clr member
      subst shape
      cases (setBy_iff.mp byId).1
    have firstOldValue : firstOld undo a = some v := by
      have untouched : [first].filter (setBy txnId) = [] := rfl
      change txnOld (newRecords start s ++ [first] ++ clrs) txnId a = some v at old
      rw [txnOld, List.filter_append, List.filter_append, otherClrs, untouched, undoEq] at old
      simpa using old
    rw [redo_byte, lastNew_append, ← clrsEq, lastNew_compensations_reverse _ _
      (fun r member => isSets r (List.mem_reverse.mpr member)), firstOldValue]
    rfl

/-- One step of a session whose clients keep off each other's bytes. -/
theorem step (ready : Ready start) (inv : SessionInvariant start s) {op : WalOp} (call : IsolatedCall s op)
    (run : s.step op = some s') (left : LsnsLeft start s') : SessionInvariant start s' := by
  have books := inv.toBookkeeping.step call.openCall run left
  have small : s.db.wal.nextLsn < 2 ^ 32 := inv.nextLsn_lt (left.before (Session.step_records_length run))
  by_cases other : op = .checkpoint
  · subst other
    exact inv.checkpoint books run
  obtain ⟨add, appends, effect⟩ := Session.step_appends run
  refine inv.grow books appends other run ?_ ?_
  · cases effect with
    | begin opens =>
      rw [opens]
      exact inv.begin_isolated
    | set opens =>
      rw [opens]
      exact inv.set_isolated call
    | commit opens =>
      rw [opens]
      exact .commit inv.isolated rfl call
    | abort opens =>
      rw [opens]
      exact inv.abort_isolated ready call
    | other _ opens =>
      rw [opens, List.append_nil]
      exact inv.isolated
  · have lsns := inv.appended_lsn appends left
    have next := books.nextLsn_lt left
    have txnId : ∀ id ∈ s.openTxns, id < 2 ^ 32 := fun id member => (inv.openIds id member).2.trans small
    intro r member
    have lsn : r.lsn < 2 ^ 32 := (lsns.2 r member).2.trans next
    cases effect with
    | begin =>
      rw [List.mem_singleton.mp member]
      exact mark_valid small (inv.nextTxnId.trans_lt small) trivial rfl
    | set =>
      rw [List.mem_singleton.mp member]
      exact setRecord_valid call.2.1 small (txnId _ call.1)
    | commit =>
      rw [List.mem_singleton.mp member]
      exact mark_valid small (txnId _ call) trivial rfl
    | abort =>
      rcases Session.mem_abortRecords member with ⟨own, body, rfl, kind⟩ | ⟨r', undone, header, own, body, bound, rfl⟩
      · rcases kind with rfl | rfl <;> exact mark_valid lsn (txnId _ call.1) trivial rfl
      · rw [abortUndo_eq ready inv call.1 call.2] at undone
        exact compensation_valid bound (inv.valid r' (List.mem_of_mem_filter (List.mem_reverse.mp undone))) body
    | other => cases member

end SessionInvariant

/-- The invariant holds in every state of a session. -/
theorem Ready.reaches {start s : Session} (ready : Ready start)
    (reach : Reaches Session.step IsolatedCall start s) (left : LsnsLeft start s) : SessionInvariant start s :=
  reach.invariant_within left (fun _ => ready.invariant)
    (fun _ _ _ _ run later => later.before (Session.step_records_length run))
    fun _ _ _ inv later call run => inv.step ready call run later

end DiskMap
