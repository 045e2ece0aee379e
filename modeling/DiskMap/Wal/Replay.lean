import DiskMap.Wal.Database
import Mathlib.Data.List.Induction

namespace DiskMap
open ByteMemory

namespace InMemoryWALRecord

/-- The value that applying the record gives to the byte at `a`, if the record touches it. -/
def newByte (r : InMemoryWALRecord) (a : Nat) : Option UInt8 :=
  match r.body with
  | .clr c => if c.loc ≤ a ∧ a < c.loc + c.length then some ((r.data.take c.newValueLen).getD (a - c.loc) 0) else none
  | .set s =>
    if s.loc ≤ a ∧ a < s.loc + s.length then
      some (((r.data.drop s.oldValueLen).take s.newValueLen).getD (a - s.loc) 0)
    else none
  | _ => none

/-- The value that a SET record stores for undoing it at the byte `a`. -/
def oldByte (r : InMemoryWALRecord) (a : Nat) : Option UInt8 :=
  match r.body with
  | .set s => if s.loc ≤ a ∧ a < s.loc + s.length then some ((r.data.take s.oldValueLen).getD (a - s.loc) 0) else none
  | _ => none

theorem applyTo_byte (r : InMemoryWALRecord) (pages : Mem) (a : Nat) :
    r.applyTo pages a = (r.newByte a).getD (pages a) := by
  rcases r with ⟨_, _, _, body, _⟩
  cases body <;> simp only [applyTo, newByte, overwrite, Option.getD_none]
  all_goals split <;> rfl

theorem isSet_iff {r : InMemoryWALRecord} : Database.isSet r ↔ ∃ s, r.body = .set s := by
  rcases r with ⟨_, _, _, body, _⟩
  cases body <;> simp [Database.isSet]

theorem isSet_of_oldByte {r : InMemoryWALRecord} {a : Nat} {v : UInt8} (old : r.oldByte a = some v) :
    Database.isSet r := by
  rcases r with ⟨_, _, _, body, _⟩
  cases body <;> simp_all [Database.isSet, oldByte]

theorem oldByte_eq_none_iff {r : InMemoryWALRecord} {a : Nat} (isSet : Database.isSet r) :
    r.oldByte a = none ↔ r.newByte a = none := by
  obtain ⟨s, body⟩ := isSet_iff.mp isSet
  simp only [oldByte, newByte, body]
  split <;> simp

end InMemoryWALRecord

/-- The pages after all records of a list have been applied in order. -/
def redo (records : List InMemoryWALRecord) (pages : Mem) : Mem :=
  records.foldl (fun pages r => r.applyTo pages) pages

/-- The last value that the records give to the byte at `a`. -/
def lastNew (records : List InMemoryWALRecord) (a : Nat) : Option UInt8 :=
  records.foldl (fun v r => (r.newByte a).or v) none

/-- The value stored by the first SET record that covers the byte at `a`. -/
def firstOld (records : List InMemoryWALRecord) (a : Nat) : Option UInt8 :=
  records.findSome? fun r => r.oldByte a

/-- The value that recovering from a log dictates for the byte at `a`: that of the first SET of
an unfinished transaction which covers it, else that of the last record which touches it. -/
def replayValue (records : List InMemoryWALRecord) (a : Nat) : Option UInt8 :=
  (firstOld (Database.unfinished records) a).or (lastNew records a)

theorem redo_append (front back : List InMemoryWALRecord) (pages : Mem) :
    redo (front ++ back) pages = redo back (redo front pages) := by
  simp [redo, List.foldl_append]

theorem lastNew_snoc (records : List InMemoryWALRecord) (r : InMemoryWALRecord) (a : Nat) :
    lastNew (records ++ [r]) a = (r.newByte a).or (lastNew records a) := by
  simp [lastNew]

theorem lastNew_append (front back : List InMemoryWALRecord) (a : Nat) :
    lastNew (front ++ back) a = (lastNew back a).or (lastNew front a) := by
  induction back using List.reverseRecOn with
  | nil => simp [lastNew]
  | append_singleton back r ih =>
    rw [← List.append_assoc, lastNew_snoc, lastNew_snoc, ih, Option.or_assoc]

theorem redo_byte (records : List InMemoryWALRecord) (pages : Mem) (a : Nat) :
    redo records pages a = (lastNew records a).getD (pages a) := by
  induction records using List.reverseRecOn with
  | nil => rfl
  | append_singleton records r ih =>
    rw [redo_append, lastNew_snoc]
    change r.applyTo (redo records pages) a = _
    rw [r.applyTo_byte, ih]
    cases r.newByte a <;> rfl

theorem lastNew_eq_none {records : List InMemoryWALRecord} {a : Nat} :
    lastNew records a = none ↔ ∀ r ∈ records, r.newByte a = none := by
  induction records using List.reverseRecOn with
  | nil => simp [lastNew]
  | append_singleton records r ih =>
    rw [lastNew_snoc, Option.or_eq_none_iff, ih]
    simp only [List.mem_append, List.mem_singleton]
    constructor
    · rintro ⟨last, front⟩ r' (member | rfl)
      · exact front r' member
      · exact last
    · intro all
      exact ⟨all r (Or.inr rfl), fun r' member => all r' (Or.inl member)⟩

/-- Records that do not touch a byte do not matter for its last value. -/
theorem lastNew_filter_congr {records : List InMemoryWALRecord} {a : Nat} {p q : InMemoryWALRecord → Bool}
    (same : ∀ r ∈ records, r.newByte a ≠ none → p r = q r) :
    lastNew (records.filter p) a = lastNew (records.filter q) a := by
  induction records using List.reverseRecOn with
  | nil => rfl
  | append_singleton records r ih =>
    have front := ih fun r' member => same r' (List.mem_append_left _ member)
    simp only [List.filter_append, lastNew_append, front]
    congr 1
    by_cases touch : r.newByte a = none
    · have untouched : ∀ p : InMemoryWALRecord → Bool, lastNew ([r].filter p) a = none := by
        intro p
        rw [lastNew_eq_none]
        intro r' member
        rw [List.mem_singleton.mp (List.mem_filter.mp member).1]
        exact touch
      rw [untouched p, untouched q]
    · simp only [List.filter_cons, same r (by simp) touch, List.filter_nil]

/-- The last record that touches a byte decides its value, whichever others are left out. -/
theorem lastNew_filter_of_last {front back : List InMemoryWALRecord} {r : InMemoryWALRecord} {a : Nat}
    {p : InMemoryWALRecord → Bool} (kept : p r) (touch : r.newByte a ≠ none)
    (last : ∀ r' ∈ back, r'.newByte a = none) :
    lastNew ((front ++ r :: back).filter p) a = r.newByte a := by
  have quiet : lastNew (back.filter p) a = none :=
    lastNew_eq_none.mpr fun r' member => last r' (List.mem_filter.mp member).1
  obtain ⟨v, value⟩ := Option.ne_none_iff_exists'.mp touch
  rw [List.filter_append, List.filter_cons, if_pos kept, lastNew_append, ← List.singleton_append,
    lastNew_append, quiet]
  simp [lastNew, value]

theorem lastNew_of_last {front back : List InMemoryWALRecord} {r : InMemoryWALRecord} {a : Nat}
    (touch : r.newByte a ≠ none) (last : ∀ r' ∈ back, r'.newByte a = none) :
    lastNew (front ++ r :: back) a = r.newByte a := by
  have all : lastNew ((front ++ r :: back).filter fun _ => true) a = r.newByte a :=
    lastNew_filter_of_last rfl touch last
  simpa only [List.filter_true] using all

theorem firstOld_append (front back : List InMemoryWALRecord) (a : Nat) :
    firstOld (front ++ back) a = (firstOld front a).or (firstOld back a) := by
  simp [firstOld, List.findSome?_append]

theorem firstOld_eq_none {records : List InMemoryWALRecord} {a : Nat} :
    firstOld records a = none ↔ ∀ r ∈ records, r.oldByte a = none := by
  simp [firstOld]

theorem firstOld_filter_congr {records : List InMemoryWALRecord} {a : Nat} {p q : InMemoryWALRecord → Bool}
    (same : ∀ r ∈ records, r.oldByte a ≠ none → p r = q r) :
    firstOld (records.filter p) a = firstOld (records.filter q) a := by
  have head : ∀ p : InMemoryWALRecord → Bool, ∀ r rest, firstOld ((r :: rest).filter p) a =
      (if p r then r.oldByte a else none).or (firstOld (rest.filter p) a) := by
    intro p r rest
    rw [List.filter_cons]
    split
    · simp [firstOld, List.findSome?_cons]
      cases r.oldByte a <;> rfl
    · rfl
  induction records with
  | nil => rfl
  | cons r rest ih =>
    rw [head p, head q, ih fun r' member => same r' (List.mem_cons_of_mem _ member)]
    by_cases touch : r.oldByte a = none
    · simp [touch]
    · rw [same r List.mem_cons_self touch]

theorem firstOld_filter_isSet (records : List InMemoryWALRecord) (a : Nat) :
    firstOld (records.filter Database.isSet) a = firstOld records a := by
  induction records with
  | nil => rfl
  | cons r rest ih =>
    have head : ∀ l, firstOld (r :: l) a = (r.oldByte a).or (firstOld l a) := fun l => by
      rw [← List.singleton_append, firstOld_append]
      simp [firstOld]
    by_cases isSet : Database.isSet r
    · rw [List.filter_cons, if_pos isSet, head, head, ih]
    · have nothing : r.oldByte a = none := by
        by_contra some
        obtain ⟨v, old⟩ := Option.ne_none_iff_exists'.mp some
        exact isSet (r.isSet_of_oldByte old)
      rw [List.filter_cons, if_neg isSet, head, nothing, ih, Option.none_or]

end DiskMap
