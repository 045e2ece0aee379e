import DiskMap.Wal.Recovery

namespace DiskMap
open ByteMemory Database

namespace Database

theorem pushMarks_pages (txnIds : List Nat) (d : Database) :
    (txnIds.foldl (fun d txnId => d.pushMark txnId .abortEnd) d).pages = d.pages := by
  induction txnIds generalizing d with
  | nil => rfl
  | cons txnId rest ih => exact ih (d.pushMark txnId .abortEnd)

theorem recoverUndo_isSet {records : List InMemoryWALRecord} {r : InMemoryWALRecord} (member : r ∈ recoverUndo records) :
    isSet r :=
  (List.mem_filter.mp member).2

/-- The WAL object in `recover` after the load loop. -/
def loaded (log : List UInt8) (pages : Mem) : Database where
  wal := { records := (loadRecords log 0).1, logPos := (loadRecords log 0).2, log }
  pages := pages

/-- The pages at the points at which a recovery can be interrupted: between two records of the
first pass, and between two CLRs. The ABORT_END records at the end leave all pages alone. -/
inductive RecoveryImage (log : List UInt8) (pages : Mem) : Mem → Prop
  | redoing (applied : Nat) (evicted : Nat → Option Nat) :
      RecoveryImage log pages ((loaded log pages).replay ((loadRecords log 0).1.take applied) evicted).pages
  | undoing (undone : Nat) {evictedRedo evictedUndo : Nat → Option Nat} {d : Database} :
      writeClrs ((loaded log pages).replay (loadRecords log 0).1 evictedRedo)
        ((recoverUndo (loadRecords log 0).1).reverse.take undone) evictedUndo = .ok d →
      RecoveryImage log pages d.pages

variable {log : List UInt8} {pages image : Mem} {a : Nat}

/-- What `recover` makes of each byte, whatever the log file holds. -/
theorem recover_byte (iteration : SetIteration) (log : List UInt8) (pages : Mem) (evictedRedo evictedUndo : Nat → Option Nat) :
    ∃ d, recover iteration { wal := { log }, pages } evictedRedo evictedUndo = .ok d ∧
      ∀ a, d.pages a = (replayValue (loadRecords log 0).1 a).getD (pages a) := by
  obtain ⟨records, known⟩ : ∃ records, (loadRecords log 0).1 = records := ⟨_, rfl⟩
  obtain ⟨d, run, undone⟩ := writeClrs_extends (recoverUndo records).reverse
    (fun r member => recoverUndo_isSet (List.mem_reverse.mp member)) ((loaded log pages).replay records evictedRedo) evictedUndo
  refine ⟨(iteration.order (abortedTxns records)).foldl (fun d txnId => d.pushMark txnId .abortEnd) d, ?_, fun a => ?_⟩
  · simp only [recover, known]
    simp only [loaded, known, recoverUndo] at run
    rw [run]
    rfl
  · rw [known, pushMarks_pages, undone.pages, redo_byte, replay_pages, redo_byte,
      lastNew_compensations_reverse _ _ fun r => recoverUndo_isSet, recoverUndo, firstOld_filter_isSet, replayValue]
    cases firstOld (unfinished records) a <;> rfl

/-- A recovery leaves alone the bytes for which the log has no value, all the time. -/
theorem RecoveryImage.untouched (taken : RecoveryImage log pages image) (none_ : replayValue (loadRecords log 0).1 a = none) :
    image a = pages a := by
  obtain ⟨noOld, noNew⟩ := Option.or_eq_none_iff.mp none_
  cases taken with
  | redoing applied evicted =>
    have prefix_ : lastNew ((loadRecords log 0).1.take applied) a = none :=
      lastNew_eq_none.mpr fun r member => lastNew_eq_none.mp noNew r (List.mem_of_mem_take member)
    rw [replay_pages, redo_byte, prefix_]
    rfl
  | @undoing undone evictedRedo evictedUndo d run =>
    have sets : ∀ r ∈ (recoverUndo (loadRecords log 0).1).reverse.take undone, r ∈ recoverUndo (loadRecords log 0).1 :=
      fun r member => List.mem_reverse.mp (List.mem_of_mem_take member)
    obtain ⟨d', ended, grows⟩ := writeClrs_extends _ (fun r member => recoverUndo_isSet (sets r member))
      ((loaded log pages).replay (loadRecords log 0).1 evictedRedo) evictedUndo
    cases ended.symm.trans run
    generalize (recoverUndo (loadRecords log 0).1).reverse.take undone = undo at sets grows
    have quiet : firstOld undo.reverse a = none := firstOld_eq_none.mpr fun r member =>
      firstOld_eq_none.mp noOld r (List.mem_of_mem_filter (sets r (List.mem_reverse.mp member)))
    rw [grows.pages, redo_byte, ← List.reverse_reverse undo, lastNew_compensations_reverse _ _ (fun r member =>
      recoverUndo_isSet (sets r (List.mem_reverse.mp member))), quiet, replay_pages, redo_byte, noNew]
    rfl

/-- An interrupted recovery does no harm: each page may be as it was before or as it was at any
time of that recovery, and recovering again gives what one recovery would have given. -/
theorem recover_again {log : List UInt8} {pages mixed : Mem}
    (torn : ∀ page, ∃ image, RecoveryImage log pages image ∧ ∀ a, a / pageSize = page → mixed a = image a)
    (first second : SetIteration) (evictedRedo evictedUndo evictedRedo' evictedUndo' : Nat → Option Nat) :
    ∃ d d', recover first { wal := { log }, pages } evictedRedo evictedUndo = .ok d ∧
      recover second { wal := { log }, pages := mixed } evictedRedo' evictedUndo' = .ok d' ∧ d'.pages = d.pages := by
  obtain ⟨d, once, bytes⟩ := recover_byte first log pages evictedRedo evictedUndo
  obtain ⟨d', again, bytes'⟩ := recover_byte second log mixed evictedRedo' evictedUndo'
  refine ⟨d, d', once, again, funext fun a => ?_⟩
  rw [bytes, bytes']
  cases value : replayValue (loadRecords log 0).1 a with
  | some v => rfl
  | none =>
    obtain ⟨image, taken, same⟩ := torn (a / pageSize)
    exact (same a rfl).trans (taken.untouched value)

/-- The log of a transaction that has written to two pages and has not finished. -/
def unfinishedLog : List UInt8 :=
  encodeAll [mark 0 0 .begin, setRecord { wal := { nextLsn := 1 }, pages := fun _ => 3 } 0 10 1 [5],
    setRecord { wal := { nextLsn := 2 }, pages := fun _ => 3 } 0 5000 1 [6]]

/-- The first page has been written back after the first pass of a recovery from this log, the
second one has not. -/
def halfWritten : Mem := fun a =>
  if a / pageSize = 0 then
    ((loaded unfinishedLog fun _ => 3).replay ((loadRecords unfinishedLog 0).1.take 3) fun _ => none).pages a
  else 3

theorem recover_again_halfWritten :
    ∃ d d', recover ⟨id, fun _ => .refl _⟩ { wal := { log := unfinishedLog }, pages := fun _ => 3 }
        (fun _ => none) (fun _ => none) = .ok d ∧
      recover ⟨List.reverse, List.reverse_perm⟩ { wal := { log := unfinishedLog }, pages := halfWritten }
        (fun _ => none) (fun _ => none) = .ok d' ∧ d'.pages = d.pages := by
  refine recover_again (fun page => ?_) _ _ _ _ _ _
  by_cases first : page = 0
  · exact ⟨_, .redoing 3 fun _ => none, fun a inside => if_pos (inside.trans first)⟩
  · exact ⟨_, .redoing 0 fun _ => none, fun a inside => if_neg fun zero => first (inside.symm.trans zero)⟩

end Database

end DiskMap
