import DiskMap.Wal.Undo

namespace DiskMap
open ByteMemory Database

def setBy (id : Nat) (r : InMemoryWALRecord) : Bool :=
  isSet r && r.txnId == id

/-- Some SET record of the transaction covers the byte at `a`. -/
def SetsByte (records : List InMemoryWALRecord) (id a : Nat) : Prop :=
  ∃ r ∈ records, setBy id r ∧ r.newByte a ≠ none

/-- The value that the byte had before the first SET of the transaction that covers it. -/
def txnOld (records : List InMemoryWALRecord) (id a : Nat) : Option UInt8 :=
  firstOld (records.filter (setBy id)) a

def committedTxns (records : List InMemoryWALRecord) : List Nat :=
  (records.filter fun r => r.body == .commit).map InMemoryWALRecord.txnId

/-- The value written to a byte by the last of the transactions with a COMMIT record, and its
initial value where there is none. -/
def lastCommitted (init : Mem) (records : List InMemoryWALRecord) (a : Nat) : UInt8 :=
  (lastNew (records.filter fun r => isSet r && decide (r.txnId ∈ committedTxns records)) a).getD (init a)

/-- Record sequences of transactions that leave alone what another unfinished one has set. The
second index lists the unfinished transactions, the third the one whose abort is under way. -/
inductive Isolated (init : Mem) : List InMemoryWALRecord → List Nat → Option Nat → Prop
  | nil : Isolated init [] [] none
  | begin {records ids r} : Isolated init records ids none → r.body = .begin → r.lsn ∉ ids →
      (∀ r' ∈ records, isSet r' ∨ r'.body = .commit ∨ r'.body = .abortEnd → r'.txnId ≠ r.lsn) →
      Isolated init (records ++ [r]) (r.lsn :: ids) none
  | set {records ids r} : Isolated init records ids none → isSet r → r.txnId ∈ ids →
      (∀ a v, r.oldByte a = some v → v = redo records init a) →
      (∀ a, r.newByte a ≠ none → ∀ id ∈ ids, id ≠ r.txnId → ¬ SetsByte records id a) →
      Isolated init (records ++ [r]) ids none
  | commit {records ids r} : Isolated init records ids none → r.body = .commit → r.txnId ∈ ids →
      Isolated init (records ++ [r]) (ids.erase r.txnId) none
  | abortBegin {records ids r} : Isolated init records ids none → r.body = .abortBegin → r.txnId ∈ ids →
      Isolated init (records ++ [r]) ids (some r.txnId)
  | clr {records ids r c} : Isolated init records ids (some r.txnId) → r.body = .clr c →
      (∀ a, r.newByte a ≠ none → SetsByte records r.txnId a) →
      Isolated init (records ++ [r]) ids (some r.txnId)
  | abortEnd {records ids r} : Isolated init records ids (some r.txnId) → r.body = .abortEnd →
      (∀ a v, txnOld records r.txnId a = some v → redo records init a = v) →
      Isolated init (records ++ [r]) (ids.erase r.txnId) none

/-- The history of such a sequence is such a sequence. -/
theorem Isolated.take {init : Mem} {records : List InMemoryWALRecord} {ids : List Nat} {phase : Option Nat}
    (log : Isolated init records ids phase) (n : Nat) :
    ∃ ids' phase', Isolated init (records.take n) ids' phase' := by
  have extend : ∀ {front : List InMemoryWALRecord} {r : InMemoryWALRecord} {ids : List Nat} {phase : Option Nat},
      (∃ ids' phase', Isolated init (front.take n) ids' phase') → Isolated init (front ++ [r]) ids phase →
      ∃ ids' phase', Isolated init ((front ++ [r]).take n) ids' phase' := by
    intro front r ids phase earlier whole
    by_cases short : n ≤ front.length
    · rw [List.take_append_of_le_length short]
      exact earlier
    · rw [List.take_of_length_le (by simp only [List.length_append, List.length_singleton]; omega)]
      exact ⟨ids, phase, whole⟩
  induction log with
  | nil => exact ⟨[], none, by simpa using Isolated.nil⟩
  | begin previous mark fresh unused ih => exact extend ih (.begin previous mark fresh unused)
  | set previous isSet opened old apart ih => exact extend ih (.set previous isSet opened old apart)
  | commit previous mark opened ih => exact extend ih (.commit previous mark opened)
  | abortBegin previous mark opened ih => exact extend ih (.abortBegin previous mark opened)
  | clr previous mark inside ih => exact extend ih (.clr previous mark inside)
  | abortEnd previous mark restored ih => exact extend ih (.abortEnd previous mark restored)

theorem finishedTxns_snoc (records : List InMemoryWALRecord) (r : InMemoryWALRecord) :
    finishedTxns (records ++ [r]) =
      finishedTxns records ++ if r.body = .commit ∨ r.body = .abortEnd then [r.txnId] else [] := by
  by_cases finish : r.body = .commit ∨ r.body = .abortEnd
  · rcases finish with mark | mark <;> simp [finishedTxns, List.filter_append, mark]
  · have other : (r.body == .commit || r.body == .abortEnd) = false := by simpa using finish
    simp [finishedTxns, List.filter_append, other, finish]

theorem committedTxns_snoc (records : List InMemoryWALRecord) (r : InMemoryWALRecord) :
    committedTxns (records ++ [r]) = committedTxns records ++ if r.body = .commit then [r.txnId] else [] := by
  by_cases mark : r.body = .commit
  · simp [committedTxns, List.filter_append, mark]
  · have other : (r.body == .commit) = false := by simpa using mark
    simp [committedTxns, List.filter_append, other, mark]

theorem committed_finished {records : List InMemoryWALRecord} {id : Nat} (member : id ∈ committedTxns records) :
    id ∈ finishedTxns records := by
  simp only [committedTxns, finishedTxns, List.mem_map, List.mem_filter] at member ⊢
  obtain ⟨r, ⟨inside, mark⟩, same⟩ := member
  exact ⟨r, ⟨inside, by simp [mark]⟩, same⟩

theorem setsByte_snoc {records : List InMemoryWALRecord} {r : InMemoryWALRecord} {id a : Nat} :
    SetsByte (records ++ [r]) id a ↔ SetsByte records id a ∨ setBy id r ∧ r.newByte a ≠ none := by
  simp only [SetsByte, List.mem_append, List.mem_singleton]
  constructor
  · rintro ⟨r', member | rfl, found⟩
    · exact Or.inl ⟨r', member, found⟩
    · exact Or.inr found
  · rintro (⟨r', member, found⟩ | found)
    · exact ⟨r', Or.inl member, found⟩
    · exact ⟨r, Or.inr rfl, found⟩

theorem setBy_iff {id : Nat} {r : InMemoryWALRecord} : setBy id r ↔ isSet r ∧ r.txnId = id := by
  simp [setBy]

theorem not_isSet_of_body {r : InMemoryWALRecord} (notSet : ∀ s, r.body ≠ .set s) : isSet r = false := by
  by_contra found
  obtain ⟨s, body⟩ := InMemoryWALRecord.isSet_iff.mp (by simpa using found)
  exact notSet s body

theorem setsByte_snoc_other {records : List InMemoryWALRecord} {r : InMemoryWALRecord} (other : isSet r = false)
    {id a : Nat} : SetsByte (records ++ [r]) id a ↔ SetsByte records id a := by
  rw [setsByte_snoc]
  simp [setBy, other]

theorem txnOld_snoc_other {records : List InMemoryWALRecord} {r : InMemoryWALRecord} (other : isSet r = false)
    (id a : Nat) : txnOld (records ++ [r]) id a = txnOld records id a := by
  simp [txnOld, List.filter_append, setBy, other]

theorem txnOld_eq_none_iff {records : List InMemoryWALRecord} {id a : Nat} :
    txnOld records id a = none ↔ ¬ SetsByte records id a := by
  rw [txnOld, firstOld_eq_none]
  constructor
  · rintro none ⟨r, member, by_id, touch⟩
    have old := none r (List.mem_filter.mpr ⟨member, by_id⟩)
    exact touch ((InMemoryWALRecord.oldByte_eq_none_iff (setBy_iff.mp by_id).1).mp old)
  · intro untouched r member
    obtain ⟨inside, by_id⟩ := List.mem_filter.mp member
    rw [InMemoryWALRecord.oldByte_eq_none_iff (setBy_iff.mp by_id).1]
    by_contra touch
    exact untouched ⟨r, inside, by_id, touch⟩

/-- Appending what is neither a COMMIT nor a SET of a committed transaction commits nothing. -/
theorem lastCommitted_snoc {init : Mem} {records : List InMemoryWALRecord} {r : InMemoryWALRecord}
    (mark : r.body ≠ .commit) (uncommitted : isSet r → r.txnId ∉ committedTxns records) (a : Nat) :
    lastCommitted init (records ++ [r]) a = lastCommitted init records a := by
  have dropped : (isSet r && decide (r.txnId ∈ committedTxns records)) = false := by
    by_cases set : isSet r
    · simp [uncommitted set]
    · simp [set]
  simp only [lastCommitted, committedTxns_snoc, if_neg mark, List.append_nil, List.filter_append,
    List.filter_cons, List.filter_nil, dropped, Bool.false_eq_true, if_false]

end DiskMap
