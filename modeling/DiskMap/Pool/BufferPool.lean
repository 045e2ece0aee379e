import DiskMap.Library.ByteMemory
import DiskMap.Wal.Database
import Mathlib.Logic.Function.Basic

namespace DiskMap
open ByteMemory

/-- The linked list of an `LRUReplacer`, the most recently inserted value first. -/
abbrev LRUReplacer := List Nat

namespace LRUReplacer

def insert (l : LRUReplacer) (val : Nat) : LRUReplacer :=
  if val ∈ l then val :: l.erase val else val :: l

def remove (l : LRUReplacer) (val : Nat) : Bool × LRUReplacer :=
  (decide (val ∈ l), l.erase val)

/-- `none` is the result -1 of an empty replacer. -/
def evict (l : LRUReplacer) : Option Nat × LRUReplacer :=
  match l.getLast? with
  | some val => (some val, (l.remove val).2)
  | none => (none, l)

end LRUReplacer

structure DualPriorityReplacer where
  important : LRUReplacer := []
  unimportant : LRUReplacer := []
  deriving DecidableEq, Repr

namespace DualPriorityReplacer

def insert (d : DualPriorityReplacer) (val : Nat) (adviseEviction : Bool) : DualPriorityReplacer :=
  if adviseEviction then
    if val ∈ d.important then d else { d with unimportant := LRUReplacer.insert d.unimportant val }
  else { important := LRUReplacer.insert d.important val, unimportant := (LRUReplacer.remove d.unimportant val).2 }

def remove (d : DualPriorityReplacer) (val : Nat) : Bool × DualPriorityReplacer :=
  match LRUReplacer.remove d.unimportant val with
  | (true, unimportant) => (true, { d with unimportant })
  | (false, unimportant) =>
    let result := LRUReplacer.remove d.important val
    (result.1, { important := result.2, unimportant })

def evict (d : DualPriorityReplacer) : Option Nat × DualPriorityReplacer :=
  match LRUReplacer.evict d.unimportant with
  | (some val, unimportant) => (some val, { d with unimportant })
  | (none, unimportant) =>
    let result := LRUReplacer.evict d.important
    (result.1, { important := result.2, unimportant })

end DualPriorityReplacer

/-- `file_index` is `none` for the index -1 of an unused slot. -/
structure PageMetadata where
  fileIndex : Option Nat := none
  pageLsn : Nat := 0
  refcount : Nat := 0
  dirty : Bool := false
  adviseEviction : Bool := false
  deriving DecidableEq, Repr

structure BufferPool where
  poolSize : Nat
  nextPoolIndex : Nat := 0
  pages : Nat → Mem := fun _ _ => 0
  metadata : Nat → PageMetadata := fun _ => {}
  replacer : DualPriorityReplacer := {}
  fileToPoolIndex : Nat → Option Nat := fun _ => none

/-- The write-back of a dirty page: its slot, its place in the file and its latest LSN. -/
structure WriteBack where
  poolIndex : Nat
  fileIndex : Nat
  pageLsn : Nat
  deriving DecidableEq, Repr

/-- What the part of `retain` under the pool mutex hands to the part behind it. -/
structure Retained where
  poolIndex : Nat
  writeBack : Option WriteBack
  needsRead : Bool

namespace LRUReplacer

theorem mem_insert {l : LRUReplacer} {val v : Nat} : v ∈ l.insert val ↔ v = val ∨ v ∈ l := by
  unfold LRUReplacer.insert
  split
  · rename_i present
    rw [List.mem_cons]
    constructor
    · exact Or.imp_right List.mem_of_mem_erase
    · rintro (same | inside)
      · exact Or.inl same
      · by_cases same : v = val
        · exact Or.inl same
        · exact Or.inr ((List.mem_erase_of_ne same).mpr inside)
  · exact List.mem_cons

theorem mem_of_mem_remove {l : LRUReplacer} {val v : Nat} (member : v ∈ (l.remove val).2) : v ∈ l :=
  List.mem_of_mem_erase member

theorem evict_mem {l l' : LRUReplacer} {val : Nat} (evicted : l.evict = (some val, l')) :
    val ∈ l ∧ ∀ v ∈ l', v ∈ l := by
  unfold LRUReplacer.evict at evicted
  split at evicted
  · rename_i last
    cases evicted
    exact ⟨List.mem_of_getLast? last, fun v member => mem_of_mem_remove member⟩
  · cases evicted

theorem evict_none {l l' : LRUReplacer} (evicted : l.evict = (none, l')) : l' = l := by
  unfold LRUReplacer.evict at evicted
  split at evicted
  · cases evicted
  · cases evicted
    rfl

end LRUReplacer

namespace DualPriorityReplacer

def Has (d : DualPriorityReplacer) (v : Nat) : Prop :=
  v ∈ d.important ∨ v ∈ d.unimportant

theorem has_insert {d : DualPriorityReplacer} {val v : Nat} {adviseEviction : Bool}
    (has : (d.insert val adviseEviction).Has v) : v = val ∨ d.Has v := by
  unfold DualPriorityReplacer.insert at has
  split at has
  · split at has
    · exact Or.inr has
    · rcases has with important | unimportant
      · exact Or.inr (Or.inl important)
      · exact (LRUReplacer.mem_insert.mp unimportant).imp_right Or.inr
  · rcases has with important | unimportant
    · exact (LRUReplacer.mem_insert.mp important).imp_right Or.inl
    · exact Or.inr (Or.inr (LRUReplacer.mem_of_mem_remove unimportant))

theorem has_remove {d : DualPriorityReplacer} {val v : Nat} (has : (d.remove val).2.Has v) : d.Has v := by
  unfold DualPriorityReplacer.remove at has
  split at has
  · rename_i unimportant removed
    exact has.imp_right fun member => LRUReplacer.mem_of_mem_remove (by rw [removed]; exact member)
  · rename_i unimportant removed
    rcases has with important | inside
    · exact Or.inl (LRUReplacer.mem_of_mem_remove important)
    · exact Or.inr (LRUReplacer.mem_of_mem_remove (by rw [removed]; exact inside))

theorem has_evict {d d' : DualPriorityReplacer} {val : Nat} (evicted : d.evict = (some val, d')) :
    d.Has val ∧ ∀ v, d'.Has v → d.Has v := by
  unfold DualPriorityReplacer.evict at evicted
  split at evicted
  · rename_i result unimportant from_
    cases evicted
    obtain ⟨member, rest⟩ := LRUReplacer.evict_mem from_
    exact ⟨Or.inr member, fun v has => has.imp_right (rest v)⟩
  · rename_i unimportant from_
    have same := LRUReplacer.evict_none from_
    subst same
    obtain ⟨result, rfl⟩ := Prod.mk.inj evicted
    obtain ⟨member, rest⟩ := LRUReplacer.evict_mem (Prod.ext result rfl : d.important.evict = (some val, _))
    exact ⟨Or.inl member, fun v has => has.imp_left (rest v)⟩

end DualPriorityReplacer

namespace BufferPool

def update (p : BufferPool) (poolIndex : Nat) (m : PageMetadata) : BufferPool :=
  { p with metadata := Function.update p.metadata poolIndex m }

/-- Maps a file page that is to be read to the slot. -/
def assign (p : BufferPool) (poolIndex fileIndex : Nat) (adviseEviction : Bool) : BufferPool :=
  { p.update poolIndex { p.metadata poolIndex with fileIndex := some fileIndex, adviseEviction } with
    fileToPoolIndex := Function.update p.fileToPoolIndex fileIndex (some poolIndex) }

/-- Unmaps the page in the slot. -/
def unassign (p : BufferPool) (poolIndex : Nat) : BufferPool :=
  { p.update poolIndex {} with
    fileToPoolIndex :=
      match (p.metadata poolIndex).fileIndex with
      | some fileIndex => Function.update p.fileToPoolIndex fileIndex none
      | none => p.fileToPoolIndex }

def writeBackOf (p : BufferPool) (poolIndex : Nat) : Option WriteBack :=
  match (p.metadata poolIndex).dirty, (p.metadata poolIndex).fileIndex with
  | true, some fileIndex => some { poolIndex, fileIndex, pageLsn := (p.metadata poolIndex).pageLsn }
  | _, _ => none

def pin (p : BufferPool) (poolIndex : Nat) (adviseEviction : Bool) : BufferPool :=
  let m := p.metadata poolIndex
  p.update poolIndex { m with refcount := m.refcount + 1, adviseEviction := m.adviseEviction && adviseEviction }

/-- The part of `retain` under the pool mutex; `none` is a `BufferPoolFullException`. -/
def reserve (p : BufferPool) (fileIndex : Nat) (adviseEviction : Bool) : Option (Retained × BufferPool) :=
  match p.fileToPoolIndex fileIndex with
  | some poolIndex =>
    let p := { p with replacer := (p.replacer.remove poolIndex).2 }
    some ({ poolIndex, writeBack := none, needsRead := false }, p.pin poolIndex adviseEviction)
  | none =>
    if p.nextPoolIndex < p.poolSize then
      let poolIndex := p.nextPoolIndex
      let p := { p with nextPoolIndex := poolIndex + 1 }
      some ({ poolIndex, writeBack := none, needsRead := true },
        (p.assign poolIndex fileIndex adviseEviction).pin poolIndex adviseEviction)
    else
      match p.replacer.evict with
      | (some poolIndex, replacer) =>
        let writeBack := p.writeBackOf poolIndex
        let p := { p with replacer }
        some ({ poolIndex, writeBack, needsRead := true },
          ((p.unassign poolIndex).assign poolIndex fileIndex adviseEviction).pin poolIndex adviseEviction)
      | (none, _) => none

/-- `none` is a `BufferPoolException`. -/
def release (p : BufferPool) (poolIndex : Nat) : Option BufferPool :=
  let m := p.metadata poolIndex
  if m.refcount = 0 then none
  else
    let p := p.update poolIndex { m with refcount := m.refcount - 1 }
    if m.refcount = 1 then some { p with replacer := p.replacer.insert poolIndex m.adviseEviction } else some p

/-- `PageHandle::modified_by`. -/
def modifiedBy (p : BufferPool) (poolIndex lsn : Nat) : BufferPool :=
  let m := p.metadata poolIndex
  p.update poolIndex { m with dirty := true, pageLsn := max lsn m.pageLsn }

/-- Slots in use lie below `next_pool_index`, and those above are as the constructor left them. -/
structure InUse (p : BufferPool) : Prop where
  mapped : ∀ fileIndex poolIndex, p.fileToPoolIndex fileIndex = some poolIndex → poolIndex < p.nextPoolIndex
  evictable : ∀ poolIndex, p.replacer.Has poolIndex → poolIndex < p.nextPoolIndex
  unused : ∀ poolIndex, p.nextPoolIndex ≤ poolIndex → p.metadata poolIndex = {}

/-- What `retain` does to the metadata, as far as write-backs depend on it. -/
structure Reserved (p : BufferPool) (r : Retained) (p' : BufferPool) : Prop where
  inUse : InUse p'
  pages : p'.pages = p.pages
  slot : r.poolIndex < p'.nextPoolIndex
  others : ∀ poolIndex, poolIndex ≠ r.poolIndex → p'.metadata poolIndex = p.metadata poolIndex
  kept : r.needsRead = false → (p'.metadata r.poolIndex).dirty = (p.metadata r.poolIndex).dirty ∧
    (p'.metadata r.poolIndex).pageLsn = (p.metadata r.poolIndex).pageLsn
  fresh : r.needsRead = true → (p'.metadata r.poolIndex).dirty = false
  written : ∀ w, r.writeBack = some w → w.poolIndex = r.poolIndex ∧ (p.metadata w.poolIndex).dirty = true ∧
    w.pageLsn = (p.metadata w.poolIndex).pageLsn

variable {p p' : BufferPool}

theorem update_same {poolIndex : Nat} {m : PageMetadata} : (p.update poolIndex m).metadata poolIndex = m :=
  Function.update_self _ _ _

theorem update_other {poolIndex other : Nat} {m : PageMetadata} (different : other ≠ poolIndex) :
    (p.update poolIndex m).metadata other = p.metadata other :=
  Function.update_of_ne different _ _

theorem writeBackOf_eq_some {poolIndex : Nat} {w : WriteBack} (found : p.writeBackOf poolIndex = some w) :
    w.poolIndex = poolIndex ∧ (p.metadata w.poolIndex).dirty = true ∧ w.pageLsn = (p.metadata w.poolIndex).pageLsn := by
  unfold writeBackOf at found
  split at found
  · rename_i dirty _
    cases Option.some.inj found
    exact ⟨rfl, dirty, rfl⟩
  · cases found

theorem pin_dirty {poolIndex : Nat} {adviseEviction : Bool} (other : Nat) :
    ((p.pin poolIndex adviseEviction).metadata other).dirty = (p.metadata other).dirty ∧
      ((p.pin poolIndex adviseEviction).metadata other).pageLsn = (p.metadata other).pageLsn := by
  by_cases same : other = poolIndex
  · subst same
    rw [pin, update_same]
    exact ⟨rfl, rfl⟩
  · rw [pin, update_other same]
    exact ⟨rfl, rfl⟩

theorem assign_dirty {poolIndex fileIndex : Nat} {adviseEviction : Bool} (other : Nat) :
    ((p.assign poolIndex fileIndex adviseEviction).metadata other).dirty = (p.metadata other).dirty := by
  by_cases same : other = poolIndex
  · subst same
    change ((p.update other _).metadata other).dirty = _
    rw [update_same]
  · exact congrArg PageMetadata.dirty (update_other same)

theorem pin_other {poolIndex other : Nat} {adviseEviction : Bool} (different : other ≠ poolIndex) :
    (p.pin poolIndex adviseEviction).metadata other = p.metadata other :=
  update_other different

theorem assign_other {poolIndex fileIndex other : Nat} {adviseEviction : Bool} (different : other ≠ poolIndex) :
    (p.assign poolIndex fileIndex adviseEviction).metadata other = p.metadata other :=
  update_other different

theorem unassign_same {poolIndex : Nat} : (p.unassign poolIndex).metadata poolIndex = {} := update_same

theorem unassign_other {poolIndex other : Nat} (different : other ≠ poolIndex) :
    (p.unassign poolIndex).metadata other = p.metadata other :=
  update_other different

/-- Only the metadata of a slot in use changes. -/
theorem InUse.update (inUse : InUse p) {poolIndex : Nat} (within : poolIndex < p.nextPoolIndex) (m : PageMetadata) :
    InUse (p.update poolIndex m) := by
  refine ⟨inUse.mapped, inUse.evictable, fun other above => ?_⟩
  have different : other ≠ poolIndex := by
    rintro rfl
    exact absurd within (Nat.not_lt.mpr above)
  rw [update_other different]
  exact inUse.unused other above

theorem InUse.assign (inUse : InUse p) {poolIndex fileIndex : Nat} {adviseEviction : Bool}
    (within : poolIndex < p.nextPoolIndex) : InUse (p.assign poolIndex fileIndex adviseEviction) := by
  refine ⟨fun other i found => ?_, inUse.evictable, (inUse.update within _).unused⟩
  change Function.update p.fileToPoolIndex fileIndex (some poolIndex) other = some i at found
  by_cases same : other = fileIndex
  · subst same
    rw [Function.update_self] at found
    cases Option.some.inj found
    exact within
  · rw [Function.update_of_ne same] at found
    exact inUse.mapped other i found

theorem InUse.unassign (inUse : InUse p) {poolIndex : Nat} (within : poolIndex < p.nextPoolIndex) :
    InUse (p.unassign poolIndex) := by
  refine ⟨fun other i found => ?_, inUse.evictable, (inUse.update within _).unused⟩
  cases index : (p.metadata poolIndex).fileIndex with
  | none =>
    simp only [BufferPool.unassign, index] at found
    exact inUse.mapped other i found
  | some fileIndex =>
    simp only [BufferPool.unassign, index] at found
    by_cases same : other = fileIndex
    · subst same
      rw [Function.update_self] at found
      cases found
    · rw [Function.update_of_ne same] at found
      exact inUse.mapped other i found

theorem reserve_reserved (inUse : InUse p) {fileIndex : Nat} {adviseEviction : Bool} {r : Retained}
    (reserved : p.reserve fileIndex adviseEviction = some (r, p')) : Reserved p r p' := by
  unfold reserve at reserved
  split at reserved
  · rename_i poolIndex mapped
    cases Option.some.inj reserved
    have unlisted : InUse { p with replacer := (p.replacer.remove poolIndex).2 } :=
      ⟨inUse.mapped, fun i has => inUse.evictable i (DualPriorityReplacer.has_remove has), inUse.unused⟩
    exact ⟨unlisted.update (inUse.mapped fileIndex poolIndex mapped) _, rfl, inUse.mapped fileIndex poolIndex mapped, fun i different => pin_other different,
      fun _ => pin_dirty poolIndex, by simp, by simp⟩
  · split at reserved
    · rename_i room
      cases Option.some.inj reserved
      have grown : InUse { p with nextPoolIndex := p.nextPoolIndex + 1 } :=
        ⟨fun f i found => (inUse.mapped f i found).trans (Nat.lt_succ_self _),
          fun i has => (inUse.evictable i has).trans (Nat.lt_succ_self _),
          fun i above => inUse.unused i ((Nat.le_succ _).trans above)⟩
      refine ⟨(grown.assign (Nat.lt_succ_self _)).update (Nat.lt_succ_self _) _, rfl, Nat.lt_succ_self _, fun i different => ?_, by simp,
        fun _ => ?_, by simp⟩
      · rw [pin_other different, assign_other different]
      · rw [(pin_dirty _).1, assign_dirty]
        exact congrArg PageMetadata.dirty (inUse.unused _ le_rfl)
    · split at reserved
      · rename_i poolIndex replacer evicted
        cases Option.some.inj reserved
        obtain ⟨member, rest⟩ := DualPriorityReplacer.has_evict evicted
        have within := inUse.evictable poolIndex member
        have unlisted : InUse { p with replacer } :=
          ⟨inUse.mapped, fun i has => inUse.evictable i (rest i has), inUse.unused⟩
        refine ⟨((unlisted.unassign within).assign within).update within _, rfl, within, fun i different => ?_, by simp,
          fun _ => ?_, fun w found => ?_⟩
        · rw [pin_other different, assign_other different, unassign_other different]
        · rw [(pin_dirty _).1, assign_dirty, unassign_same]
        · exact writeBackOf_eq_some found
      · cases reserved

/-- Releasing a page changes nothing that write-backs depend on. -/
theorem InUse.release (inUse : InUse p) {poolIndex : Nat} (released : p.release poolIndex = some p') :
    InUse p' ∧ ∀ i, (p'.metadata i).dirty = (p.metadata i).dirty ∧
      (p'.metadata i).pageLsn = (p.metadata i).pageLsn := by
  simp only [BufferPool.release] at released
  split at released
  · cases released
  rename_i pinned
  have within : poolIndex < p.nextPoolIndex := by
    by_contra above
    rw [inUse.unused poolIndex (Nat.not_lt.mp above)] at pinned
    exact pinned rfl
  let m := { p.metadata poolIndex with refcount := (p.metadata poolIndex).refcount - 1 }
  have same : ∀ i, ((p.update poolIndex m).metadata i).dirty = (p.metadata i).dirty ∧
      ((p.update poolIndex m).metadata i).pageLsn = (p.metadata i).pageLsn := by
    intro i
    by_cases mine : i = poolIndex
    · subst mine
      rw [update_same]
      exact ⟨rfl, rfl⟩
    · rw [update_other mine]
      exact ⟨rfl, rfl⟩
  have next := inUse.update within m
  split at released
  · cases Option.some.inj released
    refine ⟨⟨next.mapped, fun i has => ?_, next.unused⟩, same⟩
    rcases DualPriorityReplacer.has_insert has with rfl | before
    · exact within
    · exact inUse.evictable i before
  · cases Option.some.inj released
    exact ⟨next, same⟩

end BufferPool

end DiskMap
