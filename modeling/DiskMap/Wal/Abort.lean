import DiskMap.Wal.Session

namespace DiskMap
open ByteMemory Database

theorem toUndo_snoc (id : Nat) (records : List InMemoryWALRecord) (r : InMemoryWALRecord) :
    toUndo id (records ++ [r]) = undoStep id (toUndo id records) r := by
  simp [toUndo]

/-- Only SET records of the transaction itself are ever undone. -/
theorem mem_toUndo {id : Nat} {records : List InMemoryWALRecord} {r : InMemoryWALRecord}
    (member : r ∈ toUndo id records) : r ∈ records ∧ setBy id r := by
  induction records using List.reverseRecOn with
  | nil => simp [toUndo] at member
  | append_singleton records last ih =>
    have old : r ∈ toUndo id records → r ∈ records ++ [last] ∧ setBy id r := fun inside =>
      ⟨List.mem_append_left _ (ih inside).1, (ih inside).2⟩
    rw [toUndo_snoc] at member
    unfold undoStep at member
    split at member
    · rename_i own
      split at member
      · rename_i s body
        rcases List.mem_cons.mp member with rfl | inside
        · exact ⟨by simp, setBy_iff.mpr ⟨InMemoryWALRecord.isSet_iff.mpr ⟨s, body⟩, own⟩⟩
        · exact old inside
      · rename_i top rest body stack
        split at member
        · exact old (by rw [stack]; exact List.mem_cons_of_mem _ member)
        · exact old (by rw [stack]; exact member)
      · exact old member
    · exact old member

theorem toUndo_eq_filter {id : Nat} {records : List InMemoryWALRecord}
    (noClr : ∀ r ∈ records, r.txnId = id → ∀ c, r.body ≠ .clr c) :
    toUndo id records = (records.filter (setBy id)).reverse := by
  induction records using List.reverseRecOn with
  | nil => rfl
  | append_singleton records r ih =>
    have front := ih fun r' member => noClr r' (List.mem_append_left _ member)
    have last := noClr r (by simp)
    rw [toUndo_snoc, front, List.filter_append, List.reverse_append]
    unfold undoStep
    by_cases own : r.txnId = id
    · rw [if_pos own]
      cases body : r.body with
      | set s =>
        have byId : setBy id r := setBy_iff.mpr ⟨InMemoryWALRecord.isSet_iff.mpr ⟨s, body⟩, own⟩
        simp [byId]
      | clr c => exact absurd body (last own c)
      | _ =>
        have notBy : setBy id r = false := by simp [setBy, isSet, body]
        simp [notBy]
    · have notBy : setBy id r = false := by simp [setBy, own]
      simp [own, notBy]

theorem mem_compensations {lsn : Nat} {records : List InMemoryWALRecord} {clr : InMemoryWALRecord}
    (small : lsn < 2 ^ 32) (isSet : ∀ r ∈ records, Database.isSet r) (member : clr ∈ compensations lsn records) :
    ∃ r ∈ records, ∃ s lsn', r.body = .set s ∧ lsn' < 2 ^ 32 ∧ clr = compensation lsn' r s := by
  induction records generalizing lsn with
  | nil => simp [compensations] at member
  | cons r rest ih =>
    obtain ⟨s, body⟩ := InMemoryWALRecord.isSet_iff.mp (isSet r List.mem_cons_self)
    simp only [compensations, body, List.mem_cons] at member
    rcases member with rfl | later
    · exact ⟨r, List.mem_cons_self, s, lsn, body, small, rfl⟩
    · obtain ⟨r', inside, found⟩ := ih (Nat.mod_lt _ (by decide))
        (fun r' member => isSet r' (List.mem_cons_of_mem _ member)) later
      exact ⟨r', List.mem_cons_of_mem _ inside, found⟩

namespace Database

/-- The records that `abort` undoes, in the order in which it does. -/
def abortUndo (d : Database) (txnId : Nat) : List InMemoryWALRecord :=
  let records := d.wal.records ++ [mark d.wal.nextLsn txnId .abortBegin]
  toUndo txnId (records.drop (undoStart records txnId))

theorem abortUndo_isSet {d : Database} {txnId : Nat} {r : InMemoryWALRecord} (member : r ∈ d.abortUndo txnId) :
    isSet r :=
  (setBy_iff.mp (mem_toUndo member).2).1

theorem mem_abortUndo {d : Database} {txnId : Nat} {r : InMemoryWALRecord} (member : r ∈ d.abortUndo txnId) :
    r ∈ d.wal.records := by
  obtain ⟨inside, byId⟩ := mem_toUndo member
  rcases List.mem_append.mp (List.mem_of_mem_drop inside) with old | last
  · exact old
  · rw [List.mem_singleton.mp last] at byId
    cases (setBy_iff.mp byId).1

theorem undoStart_le (records : List InMemoryWALRecord) (txnId : Nat) : undoStart records txnId ≤ records.length := by
  unfold undoStart
  split
  · rename_i i found
    have index := (List.findIdx?_eq_some_iff_findIdx_eq.mp found).1
    omega
  · omega

/-- The rollback of a transaction that has no CLR yet undoes its SET records from the start of
the search on, last one first. -/
theorem abortUndo_eq_drop {d : Database} {txnId : Nat}
    (noClr : ∀ r ∈ d.wal.records, r.txnId = txnId → ∀ c, r.body ≠ .clr c) :
    d.abortUndo txnId = ((d.wal.records.drop (undoStart d.wal.records txnId)).filter (setBy txnId)).reverse := by
  let r := mark d.wal.nextLsn txnId .abortBegin
  have notBegin : (r.txnId == txnId && r.body == .begin) = false := by
    simp [r, mark, InMemoryWALRecord.withChecksum]
  have sameStart : undoStart (d.wal.records ++ [r]) txnId = undoStart d.wal.records txnId := by
    unfold undoStart
    rw [List.findIdx?_append]
    cases d.wal.records.findIdx? fun r => r.txnId == txnId && r.body == .begin with
    | some i => rfl
    | none => simp [List.findIdx?_cons, notBegin]
  have tail : (d.wal.records ++ [r]).drop (undoStart (d.wal.records ++ [r]) txnId) =
      d.wal.records.drop (undoStart d.wal.records txnId) ++ [r] := by
    rw [sameStart, List.drop_append_of_le_length (undoStart_le _ _)]
  have noClr' : ∀ r' ∈ d.wal.records.drop (undoStart d.wal.records txnId) ++ [r],
      r'.txnId = txnId → ∀ c, r'.body ≠ .clr c := by
    intro r' member own
    rcases List.mem_append.mp member with old | new
    · exact noClr r' (List.mem_of_mem_drop old) own
    · rw [List.mem_singleton.mp new]
      simp [r, mark, InMemoryWALRecord.withChecksum]
  have notSet : setBy txnId r = false := rfl
  have undo : d.abortUndo txnId =
      toUndo txnId ((d.wal.records ++ [r]).drop (undoStart (d.wal.records ++ [r]) txnId)) := rfl
  rw [undo, tail, toUndo_eq_filter noClr', List.filter_append]
  simp [notSet]

/-- `abort` always returns. It appends an ABORT_BEGIN, one CLR for each record to undo and an
ABORT_END, and applies them. -/
theorem abort_extends (d : Database) (txnId : Nat) (evicted : Nat → Option Nat) :
    ∃ d' last, d.abort txnId evicted =
        .ok { d' with wal := { d'.wal with activeTransactions := d'.wal.activeTransactions - 1 } } ∧
      d.Extends ([mark d.wal.nextLsn txnId .abortBegin] ++
        compensations ((d.wal.nextLsn + 1) % 2 ^ 32) (d.abortUndo txnId) ++ [mark last txnId .abortEnd]) d' := by
  have first := d.pushMark_extends txnId .abortBegin rfl
  obtain ⟨d', run, second⟩ := writeClrs_extends (d.abortUndo txnId) (fun _ => abortUndo_isSet)
    (d.pushMark txnId .abortBegin) evicted
  have third := d'.pushMark_extends txnId .abortEnd rfl
  refine ⟨d'.pushMark txnId .abortEnd, d'.wal.nextLsn, ?_, (first.trans second).trans third⟩
  have undo : toUndo txnId ((d.pushMark txnId .abortBegin).wal.records.drop
      (undoStart (d.pushMark txnId .abortBegin).wal.records txnId)) = d.abortUndo txnId := rfl
  simp only [abort, undo, run]

end Database

end DiskMap
