import DiskMap.Library.ByteMemory
import DiskMap.Library.Program
import DiskMap.Wal.Record

namespace DiskMap
open ByteMemory

def maxOrder : Nat := 38

def fplPageCapacity : Nat := pageSize / 8 - 2

/-- Offsets in a file are of type `long`: it has at most this many pages. -/
def maxPages : Nat := 2 ^ 51

/-- Not to be unfolded, as there are so many children. -/
@[irreducible] def branchingFactor : Nat := pageSize / 8

namespace MetaPage

/-- The fields of a packed page, by the offset of their first byte. -/
def kvEntryCountOffset : Nat := 8
def nextFreePageOffset : Nat := 16
def lastFplPageOffset (order : Nat) : Nat := 24 + 8 * order
def lastFplPageEntriesOffset (order : Nat) : Nat := 24 + 8 * (maxOrder + 1) + 4 * order

def kvEntryCount (m : Mem) : Nat := leAt m kvEntryCountOffset 8
def nextFreePage (m : Mem) : Nat := leAt m nextFreePageOffset 8
def lastFplPage (m : Mem) (order : Nat) : Nat := leAt m (lastFplPageOffset order) 8
def lastFplPageEntries (m : Mem) (order : Nat) : Nat := leAt m (lastFplPageEntriesOffset order) 4

theorem lastFplPageOffset_inside {order : Nat} (within : order ≤ maxOrder) : lastFplPageOffset order + 8 ≤ pageSize := by
  unfold lastFplPageOffset pageSize
  unfold maxOrder at within
  omega

theorem lastFplPageEntriesOffset_inside {order : Nat} (within : order ≤ maxOrder) :
    lastFplPageEntriesOffset order + 4 ≤ pageSize := by
  unfold lastFplPageEntriesOffset pageSize
  unfold maxOrder at within ⊢
  omega

end MetaPage

namespace FPLPage

def previousOffset : Nat := 0
def nextOffset : Nat := 8
def entriesOffset (index : Nat) : Nat := 16 + 8 * index

def previous (m : Mem) (page : Nat) : Nat := leAt m (page * pageSize + previousOffset) 8
def next (m : Mem) (page : Nat) : Nat := leAt m (page * pageSize + nextOffset) 8
def entries (m : Mem) (page index : Nat) : Nat := leAt m (page * pageSize + entriesOffset index) 8

end FPLPage

/-- What a read-write transaction works on: the bytes of all pages as it sees them. `freeListed`
are the regions on the free lists, each with its order, and `strayWrites` collects the pages that
were written to while they were in one of these. -/
structure Tx where
  mem : Mem
  freeListed : List (Nat × Nat) := []
  strayWrites : List Nat := []

namespace Tx

def onFreeList (t : Tx) (page : Nat) : Bool :=
  t.freeListed.any fun region => region.1 ≤ page && page < region.1 + 2 ^ region.2

/-- `PageHandle::write`: `length` bytes of the page, of which those behind `bytes` become zero. -/
def write (t : Tx) (page offset length : Nat) (bytes : List UInt8) : Tx :=
  { t with
    mem := overwrite t.mem (page * pageSize + offset) length bytes
    strayWrites := if t.onFreeList page then page :: t.strayWrites else t.strayWrites }

/-- The write with which `allocate` clears a page of a freed region. -/
def reclaim (t : Tx) (page : Nat) : Tx :=
  { t with mem := overwrite t.mem (page * pageSize) pageSize [] }

end Tx

abbrev TxProgram := Program Tx

/-- A look at the pages, while the pool has a slot left for them. -/
def getPage {α : Type} (view : Mem → α) : TxProgram α := .read fun t => view t.mem

def writePage (page offset : Nat) (bytes : List UInt8) : TxProgram Unit :=
  .modify fun t => t.write page offset bytes.length bytes

def writeInt (width page offset value : Nat) : TxProgram Unit :=
  .modify fun t => t.write page offset width (leBytes width value)

def clearPage (page : Nat) : TxProgram Unit := .modify fun t => t.write page 0 pageSize []

section Run

variable {α β : Type} {t : Tx}

theorem getPage_bind (view : Mem → α) (next : α → TxProgram β) (t : Tx) :
    (getPage view >>= next) t = next (view t.mem) t := rfl

theorem writeInt_run (width page offset value : Nat) (t : Tx) :
    writeInt width page offset value t = .done () (t.write page offset width (leBytes width value)) := rfl

theorem writeInt_bind (width page offset value : Nat) (next : Unit → TxProgram β) (t : Tx) :
    (writeInt width page offset value >>= next) t = next () (t.write page offset width (leBytes width value)) := rfl

theorem writePage_run (page offset : Nat) (bytes : List UInt8) (t : Tx) :
    writePage page offset bytes t = .done () (t.write page offset bytes.length bytes) := rfl

theorem writePage_bind (page offset : Nat) (bytes : List UInt8) (next : Unit → TxProgram β) (t : Tx) :
    (writePage page offset bytes >>= next) t = next () (t.write page offset bytes.length bytes) := rfl

theorem clearPage_bind (page : Nat) (next : Unit → TxProgram β) (t : Tx) :
    (clearPage page >>= next) t = next () (t.write page 0 pageSize []) := rfl

end Run

/-- The page has the same bytes in both memories. -/
def SamePage (m m' : Mem) (page : Nat) : Prop :=
  ∀ i, i < pageSize → m' (page * pageSize + i) = m (page * pageSize + i)

namespace SamePage

variable {m m' m'' : Mem} {page : Nat}

theorem refl (m : Mem) (page : Nat) : SamePage m m page := fun _ _ => rfl

theorem trans (first : SamePage m m' page) (second : SamePage m' m'' page) : SamePage m m'' page :=
  fun i within => (second i within).trans (first i within)

theorem leAt_eq (same : SamePage m m' page) {offset width : Nat} (inside : offset + width ≤ pageSize) :
    leAt m' (page * pageSize + offset) width = leAt m (page * pageSize + offset) width := by
  refine leAt_congr fun i within => ?_
  have byte := same (offset + i) (by omega)
  rw [← Nat.add_assoc] at byte
  exact byte

theorem overwrite {other offset n : Nat} {bs : List UInt8} (different : page ≠ other) (inside : offset + n ≤ pageSize) :
    SamePage m (overwrite m (other * pageSize + offset) n bs) page := by
  intro i within
  refine overwrite_outside ?_
  unfold pageSize at inside within ⊢
  omega

end SamePage

/-- The bytes of the page are zero. -/
def ZeroPage (m : Mem) (page : Nat) : Prop := ∀ i, i < pageSize → m (page * pageSize + i) = 0

theorem ZeroPage.congr {m m' : Mem} {page : Nat} (zero : ZeroPage m page) (same : SamePage m m' page) : ZeroPage m' page :=
  fun i within => (same i within).trans (zero i within)

theorem ZeroPage.leAt_eq {m : Mem} {page : Nat} (zero : ZeroPage m page) {offset width : Nat} (inside : offset + width ≤ pageSize) :
    leAt m (page * pageSize + offset) width = 0 := by
  refine leAt_zero fun i within => ?_
  have byte := zero (offset + i) (by omega)
  rw [← Nat.add_assoc] at byte
  exact byte

/-- The fields of the meta page that the space manager and the map keep there. -/
structure MetaIs (m : Mem) (kvEntryCount nextFreePage : Nat) (lastFplPage lastFplPageEntries : Nat → Nat) : Prop where
  kvEntryCount : MetaPage.kvEntryCount m = kvEntryCount
  nextFreePage : MetaPage.nextFreePage m = nextFreePage
  lastFplPage : ∀ order, order ≤ maxOrder → MetaPage.lastFplPage m order = lastFplPage order
  lastFplPageEntries : ∀ order, order ≤ maxOrder → MetaPage.lastFplPageEntries m order = lastFplPageEntries order

namespace FPLPage

variable {m m' : Mem} {page : Nat}

theorem setEntry (m : Mem) (page index : Nat) {value : Nat} (small : value < 2 ^ 64) :
    let m' := overwrite m (page * pageSize + entriesOffset index) 8 (leBytes 8 value)
    previous m' page = previous m page ∧ next m' page = next m page ∧ entries m' page index = value ∧
      ∀ i, i ≠ index → entries m' page i = entries m page i := by
  have other : ∀ offset, offset + 8 ≤ 16 + 8 * index ∨ 24 + 8 * index ≤ offset →
      leAt (overwrite m (page * pageSize + entriesOffset index) 8 (leBytes 8 value)) (page * pageSize + offset) 8 =
        leAt m (page * pageSize + offset) 8 := by
    intro offset apart
    refine leAt_overwrite_outside ?_
    unfold entriesOffset
    omega
  refine ⟨other _ (Or.inl (by unfold previousOffset; omega)), other _ (Or.inl (by unfold nextOffset; omega)), ?_,
    fun i different => other _ (by unfold entriesOffset; omega)⟩
  rw [entries, leAt_overwrite_self]
  exact Nat.mod_eq_of_lt small

theorem setNext (m : Mem) (page : Nat) {value : Nat} (small : value < 2 ^ 64) :
    let m' := overwrite m (page * pageSize + nextOffset) 8 (leBytes 8 value)
    previous m' page = previous m page ∧ next m' page = value ∧ ∀ i, entries m' page i = entries m page i := by
  have other : ∀ offset, offset + 8 ≤ 8 ∨ 16 ≤ offset →
      leAt (overwrite m (page * pageSize + nextOffset) 8 (leBytes 8 value)) (page * pageSize + offset) 8 =
        leAt m (page * pageSize + offset) 8 := by
    intro offset apart
    refine leAt_overwrite_outside ?_
    unfold nextOffset
    omega
  refine ⟨other _ (Or.inl (by unfold previousOffset; omega)), ?_, fun i => other _ (Or.inr (by unfold entriesOffset; omega))⟩
  rw [next, leAt_overwrite_self]
  exact Nat.mod_eq_of_lt small

theorem setPrevious (m : Mem) (page : Nat) {value : Nat} (small : value < 2 ^ 64) :
    let m' := overwrite m (page * pageSize + previousOffset) 8 (leBytes 8 value)
    previous m' page = value ∧ next m' page = next m page ∧ ∀ i, entries m' page i = entries m page i := by
  have other : ∀ offset, 8 ≤ offset →
      leAt (overwrite m (page * pageSize + previousOffset) 8 (leBytes 8 value)) (page * pageSize + offset) 8 =
        leAt m (page * pageSize + offset) 8 := by
    intro offset apart
    refine leAt_overwrite_outside ?_
    unfold previousOffset
    omega
  refine ⟨?_, other _ (by unfold nextOffset; omega), fun i => other _ (by unfold entriesOffset; omega)⟩
  rw [previous, leAt_overwrite_self]
  exact Nat.mod_eq_of_lt small

theorem congr (same : SamePage m m' page) : previous m' page = previous m page ∧ next m' page = next m page ∧
    ∀ i, i < fplPageCapacity → entries m' page i = entries m page i := by
  refine ⟨same.leAt_eq (by decide), same.leAt_eq (by decide), fun i within => same.leAt_eq ?_⟩
  unfold entriesOffset pageSize
  unfold fplPageCapacity pageSize at within
  omega

end FPLPage

theorem Tx.write_quiet {t : Tx} {page : Nat} (quiet : t.onFreeList page = false) (offset length : Nat) (bytes : List UInt8) :
    t.write page offset length bytes = { t with mem := overwrite t.mem (page * pageSize + offset) length bytes } := by
  rw [Tx.write, quiet]
  rfl

/-- Of all pages only this one has been written to. -/
structure WroteOnly (page : Nat) (t t' : Tx) : Prop where
  others : ∀ p, p ≠ page → SamePage t.mem t'.mem p
  freeListed : t'.freeListed = t.freeListed
  strayWrites : t.onFreeList page = false → t'.strayWrites = t.strayWrites

namespace WroteOnly

variable {t t' t'' : Tx} {page : Nat}

theorem refl (page : Nat) (t : Tx) : WroteOnly page t t := ⟨fun p _ => .refl t.mem p, rfl, fun _ => rfl⟩

theorem trans (first : WroteOnly page t t') (second : WroteOnly page t' t'') : WroteOnly page t t'' where
  others p other := (first.others p other).trans (second.others p other)
  freeListed := second.freeListed.trans first.freeListed
  strayWrites quiet := by
    have quiet' : t'.onFreeList page = false := by
      rw [Tx.onFreeList, first.freeListed]
      exact quiet
    exact (second.strayWrites quiet').trans (first.strayWrites quiet)

theorem write {offset length : Nat} (inside : offset + length ≤ pageSize) (bytes : List UInt8) :
    WroteOnly page t (t.write page offset length bytes) where
  others p other := .overwrite other inside
  freeListed := rfl
  strayWrites quiet := by rw [Tx.write_quiet quiet]

end WroteOnly

namespace MetaIs

variable {m m' : Mem} {kv next : Nat} {page count : Nat → Nat}

theorem refl (m : Mem) : MetaIs m (MetaPage.kvEntryCount m) (MetaPage.nextFreePage m) (MetaPage.lastFplPage m)
    (MetaPage.lastFplPageEntries m) :=
  ⟨rfl, rfl, fun _ _ => rfl, fun _ _ => rfl⟩

theorem congr (fields : MetaIs m kv next page count) (same : SamePage m m' 0) : MetaIs m' kv next page count := by
  have field : ∀ offset width, offset + width ≤ pageSize → leAt m' offset width = leAt m offset width := by
    intro offset width inside
    have eq := same.leAt_eq inside
    rw [Nat.zero_mul, Nat.zero_add] at eq
    exact eq
  refine ⟨(field _ _ (by decide)).trans fields.kvEntryCount, (field _ _ (by decide)).trans fields.nextFreePage,
    fun order within => (field _ _ (MetaPage.lastFplPageOffset_inside within)).trans (fields.lastFplPage order within),
    fun order within =>
      (field _ _ (MetaPage.lastFplPageEntriesOffset_inside within)).trans (fields.lastFplPageEntries order within)⟩

theorem setNextFreePage (fields : MetaIs m kv next page count) {value : Nat} (small : value < 2 ^ 64) :
    MetaIs (overwrite m (0 * pageSize + MetaPage.nextFreePageOffset) 8 (leBytes 8 value)) kv value page count := by
  have other : ∀ offset width, offset + width ≤ 16 ∨ 24 ≤ offset →
      leAt (overwrite m (0 * pageSize + MetaPage.nextFreePageOffset) 8 (leBytes 8 value)) offset width = leAt m offset width := by
    intro offset width apart
    refine leAt_overwrite_outside ?_
    unfold MetaPage.nextFreePageOffset
    omega
  refine ⟨(other 8 8 (by omega)).trans fields.kvEntryCount, ?_,
    fun order within => (other _ _ (Or.inr ?_)).trans (fields.lastFplPage order within),
    fun order within => (other _ _ (Or.inr ?_)).trans (fields.lastFplPageEntries order within)⟩
  · rw [MetaPage.nextFreePage, Nat.zero_mul, Nat.zero_add, leAt_overwrite_self]
    exact Nat.mod_eq_of_lt small
  · unfold MetaPage.lastFplPageOffset
    omega
  · unfold MetaPage.lastFplPageEntriesOffset
    omega

theorem setKvEntryCount (fields : MetaIs m kv next page count) {value : Nat} (small : value < 2 ^ 64) :
    MetaIs (overwrite m (0 * pageSize + MetaPage.kvEntryCountOffset) 8 (leBytes 8 value)) value next page count := by
  have other : ∀ offset width, 16 ≤ offset →
      leAt (overwrite m (0 * pageSize + MetaPage.kvEntryCountOffset) 8 (leBytes 8 value)) offset width = leAt m offset width := by
    intro offset width apart
    refine leAt_overwrite_outside ?_
    unfold MetaPage.kvEntryCountOffset
    omega
  refine ⟨?_, (other 16 8 le_rfl).trans fields.nextFreePage,
    fun order within => (other _ _ ?_).trans (fields.lastFplPage order within),
    fun order within => (other _ _ ?_).trans (fields.lastFplPageEntries order within)⟩
  · rw [MetaPage.kvEntryCount, Nat.zero_mul, Nat.zero_add, leAt_overwrite_self]
    exact Nat.mod_eq_of_lt small
  · unfold MetaPage.lastFplPageOffset
    omega
  · unfold MetaPage.lastFplPageEntriesOffset
    omega

theorem setLastFplPage (fields : MetaIs m kv next page count) {order value : Nat} (within : order ≤ maxOrder)
    (small : value < 2 ^ 64) :
    MetaIs (overwrite m (0 * pageSize + MetaPage.lastFplPageOffset order) 8 (leBytes 8 value)) kv next
      (Function.update page order value) count := by
  have other : ∀ offset width, offset + width ≤ 24 + 8 * order ∨ 32 + 8 * order ≤ offset →
      leAt (overwrite m (0 * pageSize + MetaPage.lastFplPageOffset order) 8 (leBytes 8 value)) offset width = leAt m offset width := by
    intro offset width apart
    refine leAt_overwrite_outside ?_
    unfold MetaPage.lastFplPageOffset
    omega
  refine ⟨(other 8 8 (by omega)).trans fields.kvEntryCount, (other 16 8 (by omega)).trans fields.nextFreePage,
    fun o within' => ?_, fun o within' => (other _ _ (Or.inr ?_)).trans (fields.lastFplPageEntries o within')⟩
  · by_cases same : o = order
    · subst same
      rw [Function.update_self, MetaPage.lastFplPage, Nat.zero_mul, Nat.zero_add, leAt_overwrite_self]
      exact Nat.mod_eq_of_lt small
    · rw [Function.update_of_ne same]
      refine (other _ _ ?_).trans (fields.lastFplPage o within')
      unfold MetaPage.lastFplPageOffset
      omega
  · unfold MetaPage.lastFplPageEntriesOffset
    unfold maxOrder at within ⊢
    omega

theorem setLastFplPageEntries (fields : MetaIs m kv next page count) {order value : Nat} (within : order ≤ maxOrder)
    (small : value < 2 ^ 32) :
    MetaIs (overwrite m (0 * pageSize + MetaPage.lastFplPageEntriesOffset order) 4 (leBytes 4 value)) kv next page
      (Function.update count order value) := by
  have other : ∀ offset width, offset + width ≤ 336 + 4 * order ∨ 340 + 4 * order ≤ offset →
      leAt (overwrite m (0 * pageSize + MetaPage.lastFplPageEntriesOffset order) 4 (leBytes 4 value)) offset width =
        leAt m offset width := by
    intro offset width apart
    refine leAt_overwrite_outside ?_
    unfold MetaPage.lastFplPageEntriesOffset maxOrder
    omega
  refine ⟨(other 8 8 (by omega)).trans fields.kvEntryCount, (other 16 8 (by omega)).trans fields.nextFreePage,
    fun o within' => (other _ _ (Or.inl ?_)).trans (fields.lastFplPage o within'), fun o within' => ?_⟩
  · unfold MetaPage.lastFplPageOffset
    unfold maxOrder at within'
    omega
  · by_cases same : o = order
    · subst same
      rw [Function.update_self, MetaPage.lastFplPageEntries, Nat.zero_mul, Nat.zero_add, leAt_overwrite_self]
      exact Nat.mod_eq_of_lt small
    · rw [Function.update_of_ne same]
      refine (other _ _ ?_).trans (fields.lastFplPageEntries o within')
      unfold MetaPage.lastFplPageEntriesOffset maxOrder
      omega

/-- The magic string stands in front of these fields. -/
theorem setMagic (fields : MetaIs m kv next page count) (bytes : List UInt8) :
    MetaIs (overwrite m (0 * pageSize + 0) 8 bytes) kv next page count := by
  have other : ∀ offset width, 8 ≤ offset → leAt (overwrite m (0 * pageSize + 0) 8 bytes) offset width = leAt m offset width :=
    fun offset width behind => leAt_overwrite_outside (by omega)
  refine ⟨(other 8 8 le_rfl).trans fields.kvEntryCount, (other 16 8 (by omega)).trans fields.nextFreePage,
    fun o within => (other _ _ ?_).trans (fields.lastFplPage o within),
    fun o within => (other _ _ ?_).trans (fields.lastFplPageEntries o within)⟩
  · unfold MetaPage.lastFplPageOffset
    omega
  · unfold MetaPage.lastFplPageEntriesOffset
    omega

end MetaIs

end DiskMap
