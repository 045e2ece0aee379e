import DiskMap.Wal.LogFile

namespace DiskMap
open ByteMemory

/-- The CLRs that undo the given SET records in the given order, with consecutive LSNs. -/
def compensations : Nat → List InMemoryWALRecord → List InMemoryWALRecord
  | _, [] => []
  | lsn, r :: rest =>
    let clr := match r.body with
      | .set s => compensation lsn r s
      | _ => r
    clr :: compensations ((lsn + 1) % 2 ^ 32) rest

/-- `w'` arises from `w` by appending the records `new`, which take consecutive LSNs. -/
structure WAL.Extends (w : WAL) (new : List InMemoryWALRecord) (w' : WAL) : Prop where
  records : w'.records = w.records ++ new
  nextTxnId : w'.nextTxnId = w.nextTxnId
  activeTransactions : w'.activeTransactions = w.activeTransactions
  checkpointPending : w'.checkpointPending = w.checkpointPending
  nextLsn : w.nextLsn < 2 ^ 32 → w'.nextLsn = (w.nextLsn + new.length) % 2 ^ 32
  lsns : w.nextLsn < 2 ^ 32 →
    new.map InMemoryWALRecord.lsn = (List.range new.length).map fun i => (w.nextLsn + i) % 2 ^ 32
  flushedBound : w.unflushedRecordIndex ≤ w.records.length → w'.unflushedRecordIndex ≤ w'.records.length
  logHolds : ∀ start, w.LogHolds start → w'.LogHolds start

namespace WAL

theorem Extends.nextLsn_lt {w w' : WAL} {new : List InMemoryWALRecord} (grows : w.Extends new w')
    (small : w.nextLsn < 2 ^ 32) : w'.nextLsn < 2 ^ 32 := by
  rw [grows.nextLsn small]
  exact Nat.mod_lt _ (by decide)

theorem Extends.refl (w : WAL) : w.Extends [] w where
  records := (List.append_nil _).symm
  nextTxnId := rfl
  activeTransactions := rfl
  checkpointPending := rfl
  nextLsn small := (Nat.mod_eq_of_lt small).symm
  lsns _ := rfl
  flushedBound bound := bound
  logHolds _ holds := holds

theorem Extends.trans {w w' w'' : WAL} {front back : List InMemoryWALRecord}
    (first : w.Extends front w') (second : w'.Extends back w'') : w.Extends (front ++ back) w'' where
  records := by rw [second.records, first.records, List.append_assoc]
  nextTxnId := second.nextTxnId.trans first.nextTxnId
  activeTransactions := second.activeTransactions.trans first.activeTransactions
  checkpointPending := second.checkpointPending.trans first.checkpointPending
  nextLsn small := by
    rw [second.nextLsn (first.nextLsn_lt small), first.nextLsn small, List.length_append]
    omega
  lsns small := by
    rw [List.map_append, first.lsns small, second.lsns (first.nextLsn_lt small), first.nextLsn small,
      List.length_append, List.range_add, List.map_append, List.map_map]
    congr 1
    apply List.map_congr_left
    intro i _
    simp only [Function.comp_apply]
    omega
  flushedBound bound := second.flushedBound (first.flushedBound bound)
  logHolds start holds := second.logHolds start (first.logHolds start holds)

theorem flush_extends (w : WAL) : w.Extends [] w.flush where
  records := (List.append_nil _).symm
  nextTxnId := rfl
  activeTransactions := rfl
  checkpointPending := rfl
  nextLsn small := (Nat.mod_eq_of_lt small).symm
  lsns _ := rfl
  flushedBound _ := le_rfl
  logHolds _ holds := holds.flush

theorem flushUpTo_extends (w : WAL) (lsn : Nat) : w.Extends [] (w.flushUpTo lsn) := by
  unfold flushUpTo
  split
  · split
    · exact w.flush_extends
    · exact .refl w
  · exact .refl w

theorem getPage_extends (w : WAL) (evicted : Option Nat) : w.Extends [] (w.getPage evicted) := by
  cases evicted with
  | none => exact .refl w
  | some lsn => exact w.flushUpTo_extends lsn

/-- A record with the next LSN is appended; the order of the two effects does not matter. -/
theorem push_extends (w : WAL) {r : InMemoryWALRecord} (lsn : r.lsn = w.nextLsn) :
    w.Extends [r] (w.takeLsn.push r) where
  records := rfl
  nextTxnId := rfl
  activeTransactions := rfl
  checkpointPending := rfl
  nextLsn _ := rfl
  lsns small := by
    simp only [List.map_cons, List.map_nil, List.length_singleton, List.range_one, lsn, Nat.add_zero]
    rw [Nat.mod_eq_of_lt small]
  flushedBound bound := by
    simp only [push, takeLsn, List.length_append]
    omega
  logHolds _ holds := holds.takeLsn.push r

end WAL

namespace Database

/-- `d'` arises from `d` by appending the records `new` and applying them to the pages. -/
structure Extends (d : Database) (new : List InMemoryWALRecord) (d' : Database) : Prop where
  wal : d.wal.Extends new d'.wal
  pages : d'.pages = redo new d.pages

theorem Extends.trans {d d' d'' : Database} {front back : List InMemoryWALRecord}
    (first : d.Extends front d') (second : d'.Extends back d'') : d.Extends (front ++ back) d'' where
  wal := first.wal.trans second.wal
  pages := by rw [second.pages, first.pages, redo_append]

/-- The mark that `pushMark` appends. -/
def mark (lsn txnId : Nat) (body : RecordBody) : InMemoryWALRecord :=
  InMemoryWALRecord.withChecksum { checksum := 0, lsn, txnId, body, data := [] }

theorem pushMark_extends (d : Database) (txnId : Nat) (body : RecordBody)
    (effectless : (mark d.wal.nextLsn txnId body).applyTo d.pages = d.pages) :
    d.Extends [mark d.wal.nextLsn txnId body] (d.pushMark txnId body) where
  wal := d.wal.push_extends (r := mark d.wal.nextLsn txnId body) rfl
  pages := effectless.symm

theorem writeClrs_extends (records : List InMemoryWALRecord) (isSet : ∀ r ∈ records, Database.isSet r)
    (d : Database) (evicted : Nat → Option Nat) :
    ∃ d', writeClrs d records evicted = .ok d' ∧ d.Extends (compensations d.wal.nextLsn records) d' := by
  induction records generalizing d evicted with
  | nil => exact ⟨d, rfl, .refl _, rfl⟩
  | cons r rest ih =>
    obtain ⟨s, body⟩ := InMemoryWALRecord.isSet_iff.mp (isSet r List.mem_cons_self)
    let clr := compensation d.wal.nextLsn r s
    let next := applyRecord { d with wal := d.wal.takeLsn.push clr } (evicted 0) clr
    have grown : d.wal.Extends [clr] next.wal := by
      have flushed := (d.wal.takeLsn.push clr).getPage_extends (evicted 0)
      have both := (d.wal.push_extends (r := clr) rfl).trans flushed
      rw [List.append_nil] at both
      exact both
    have nextLsn : next.wal.nextLsn = (d.wal.nextLsn + 1) % 2 ^ 32 := by
      have same := ((d.wal.takeLsn.push clr).getPage_sameButFile (evicted 0)).nextLsn
      exact same
    obtain ⟨d', run, later⟩ := ih (fun r' member => isSet r' (List.mem_cons_of_mem _ member)) next
      fun i => evicted (i + 1)
    refine ⟨d', ?_, ?_⟩
    · simp only [writeClrs, createCompensationRecord_set d.wal body]
      exact run
    · have step : d.Extends [clr] next := ⟨grown, rfl⟩
      have whole := step.trans later
      rw [nextLsn] at whole
      simpa only [compensations, body, List.singleton_append] using whole

theorem replay_pages (records : List InMemoryWALRecord) (d : Database) (evicted : Nat → Option Nat) :
    (d.replay records evicted).pages = redo records d.pages := by
  induction records generalizing d evicted with
  | nil => rfl
  | cons r rest ih =>
    simp only [replay]
    rw [ih]
    rcases r with ⟨_, _, _, body, _⟩
    cases body <;> rfl

end Database

theorem lastNew_compensations_reverse (lsn : Nat) (records : List InMemoryWALRecord)
    (isSet : ∀ r ∈ records, Database.isSet r) (a : Nat) :
    lastNew (compensations lsn records.reverse) a = firstOld records a := by
  -- the CLR of the first SET is the last one written
  have forward : ∀ l : List InMemoryWALRecord, (∀ r ∈ l, Database.isSet r) → ∀ lsn,
      lastNew (compensations lsn l) a = firstOld l.reverse a := by
    intro l
    induction l with
    | nil => intros; rfl
    | cons r rest ih =>
      intro sets lsn
      obtain ⟨s, body⟩ := InMemoryWALRecord.isSet_iff.mp (sets r List.mem_cons_self)
      have later := ih (fun r' member => sets r' (List.mem_cons_of_mem _ member)) ((lsn + 1) % 2 ^ 32)
      simp only [compensations, body]
      rw [← List.singleton_append, lastNew_append, later, List.reverse_cons, firstOld_append]
      simp [lastNew, firstOld, compensation_newByte lsn body a]
  rw [forward _ (fun r member => isSet r (List.mem_reverse.mp member)), List.reverse_reverse]

end DiskMap
