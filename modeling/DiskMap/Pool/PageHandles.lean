import DiskMap.Library.GuardedRun
import DiskMap.Pool.Residency

namespace DiskMap
open ByteMemory GuardedRun

/-- A buffer pool over its data file, which has zeros past its end. -/
structure PooledFile where
  pool : BufferPool
  file : Mem

namespace PooledFile

def writeBack (s : PooledFile) (w : WriteBack) : PooledFile :=
  { s with file := overwrite s.file (w.fileIndex * pageSize) pageSize (slice (s.pool.pages w.poolIndex) 0 pageSize) }

def readPage (s : PooledFile) (poolIndex fileIndex : Nat) : PooledFile :=
  { s with pool := { s.pool with
      pages := Function.update s.pool.pages poolIndex fun offset => s.file (fileIndex * pageSize + offset) } }

/-- The part of `retain` behind the pool mutex. -/
def finishRetain (s : PooledFile) (r : Retained) (fileIndex : Nat) : PooledFile :=
  let s := match r.writeBack with
    | some w => s.writeBack w
    | none => s
  if r.needsRead then s.readPage r.poolIndex fileIndex else s

/-- `BufferPool::retain`; `none` is a `BufferPoolFullException`. -/
def retain (s : PooledFile) (fileIndex : Nat) (adviseEviction : Bool) : Option (Nat × PooledFile) :=
  match s.pool.reserve fileIndex adviseEviction with
  | none => none
  | some (r, pool) => some (r.poolIndex, finishRetain { s with pool } r fileIndex)

/-- One iteration of the loop of `flush_all`. -/
def flushSlot (s : PooledFile) (poolIndex : Nat) : PooledFile :=
  let m := s.pool.metadata poolIndex
  match m.dirty, m.fileIndex with
  | true, some fileIndex =>
    let s := s.writeBack { poolIndex, fileIndex, pageLsn := m.pageLsn }
    { s with pool := s.pool.update poolIndex { m with dirty := false } }
  | _, _ => s

def flushSlots (s : PooledFile) : Nat → PooledFile
  | 0 => s
  | poolIndex + 1 => (s.flushSlots poolIndex).flushSlot poolIndex

def flushAll (s : PooledFile) : PooledFile := s.flushSlots s.pool.poolSize

/-- A write through a handle to the slot, and `modified_by`. -/
def modify (s : PooledFile) (poolIndex offset : Nat) (bytes : List UInt8) (lsn : Nat) : PooledFile :=
  let pool := { s.pool with
    pages := Function.update s.pool.pages poolIndex (overwrite (s.pool.pages poolIndex) offset bytes.length bytes) }
  { s with pool := pool.modifiedBy poolIndex lsn }

end PooledFile

/-- A `BufferPool::PageHandle`, and the page it was made for. `pool_index` is -1 once the handle has
been moved from. -/
structure PageHandle where
  poolIndex : Option Nat
  fileIndex : Nat
  deriving DecidableEq

/-- The handle objects of a program, by number; a destroyed one is `none`. `latest` is the content
last written to each page. -/
structure PageHandles where
  pooled : PooledFile
  objects : List (Option PageHandle) := []
  latest : Nat → Mem

inductive PageHandleOp
  | getPage (fileIndex : Nat) (adviseEviction : Bool)
  | moveConstruct (source : Nat)
  | moveAssign (target source : Nat)
  | destroy (object : Nat)
  | write (object offset : Nat) (bytes : List UInt8) (lsn : Nat)
  | flushAll

namespace PageHandles

def object (s : PageHandles) (i : Nat) : Option PageHandle := (s.objects[i]?).join

/-- An operation on an object that exists. `get_page` makes none when it throws, and an exception
of `release` ends the program, as destructors must not throw. -/
def step (s : PageHandles) : PageHandleOp → Option PageHandles
  | .getPage fileIndex adviseEviction =>
    match s.pooled.retain fileIndex adviseEviction with
    | none => some s
    | some (poolIndex, pooled) =>
      some { s with pooled, objects := s.objects ++ [some { poolIndex := some poolIndex, fileIndex }] }
  | .moveConstruct source =>
    (s.object source).map fun h =>
      { s with objects := s.objects.set source (some { h with poolIndex := none }) ++ [some h] }
  | .moveAssign target source =>
    match s.object target, s.object source with
    | some _, some h =>
      if target = source then some s
      else some { s with objects := (s.objects.set target (some h)).set source (some { h with poolIndex := none }) }
    | _, _ => none
  | .destroy object =>
    match s.object object with
    | some { poolIndex := some poolIndex, .. } =>
      (s.pooled.pool.release poolIndex).map fun pool =>
        { s with pooled := { s.pooled with pool }, objects := s.objects.set object none }
    | some { poolIndex := none, .. } => some { s with objects := s.objects.set object none }
    | none => none
  | .write object offset bytes lsn =>
    match s.object object with
    | some { poolIndex := some poolIndex, fileIndex } =>
      if offset + bytes.length ≤ pageSize then
        some { s with
          pooled := s.pooled.modify poolIndex offset bytes lsn
          latest := Function.update s.latest fileIndex (overwrite (s.latest fileIndex) offset bytes.length bytes) }
      else none
    | _ => none
  | .flushAll => some { s with pooled := s.pooled.flushAll }

/-- An empty pool over a data file. -/
def start (poolSize : Nat) (file : Mem) : PageHandles where
  pooled := { pool := { poolSize }, file }
  latest fileIndex offset := file (fileIndex * pageSize + offset)

/-- The object is a live handle to the slot. -/
def refersTo (poolIndex : Nat) (o : Option PageHandle) : Bool :=
  match o with
  | some h => h.poolIndex == some poolIndex
  | none => false

/-- The number of live handles to a slot. -/
def handlesTo (s : PageHandles) (poolIndex : Nat) : Nat := s.objects.countP (refersTo poolIndex)

/-- The pool counts the handles to every resident slot, and the replacer has those without any. -/
def Counted (s : PageHandles) : Prop :=
  ∀ fileIndex i, s.pooled.pool.fileToPoolIndex fileIndex = some i →
    (s.pooled.pool.metadata i).refcount = s.handlesTo i ∧ (s.pooled.pool.replacer.Has i ↔ s.handlesTo i = 0)

/-- Handles are assigned only to handles that have been moved from, or to themselves. -/
def AssignsToEmpty (s : PageHandles) : PageHandleOp → Prop
  | .moveAssign target source => target = source ∨ ∀ h, s.object target = some h → h.poolIndex = none
  | _ => True

/-- How setting an element changes a count. -/
theorem countP_set {α : Type} {l : List α} {k : Nat} {o : α} (P : α → Bool) (o' : α) (found : l[k]? = some o) :
    (l.set k o').countP P + (if P o then 1 else 0) = l.countP P + if P o' then 1 else 0 := by
  obtain ⟨inside, here⟩ := List.getElem?_eq_some_iff.mp found
  rw [List.countP_set inside, here]
  by_cases counted : P o
  · have positive : 0 < l.countP P := List.countP_pos_iff.mpr ⟨o, List.mem_of_getElem? found, counted⟩
    rw [if_pos counted]
    omega
  · rw [if_neg counted]
    omega

variable {k : Nat} {o : Option PageHandle}

theorem refersTo_iff {poolIndex : Nat} : refersTo poolIndex o ↔ ∃ h, o = some h ∧ h.poolIndex = some poolIndex := by
  cases o with
  | none => simp [refersTo]
  | some h => simp [refersTo]

theorem object_eq {s : PageHandles} {h : PageHandle} : s.object k = some h ↔ s.objects[k]? = some (some h) := by
  rw [object, Option.join_eq_some_iff]

variable {s s' : PageHandles}

/-- The pool's structures agree, and the pins of the slots are the live handles. -/
def Pinned (s : PageHandles) : Prop := s.pooled.pool.Linked s.handlesTo

theorem Pinned.counted (pinned : s.Pinned) : s.Counted := by
  intro fileIndex i mapped
  refine ⟨pinned.refcount i, (pinned.listed i).trans ?_⟩
  exact and_iff_right (pinned.mapped fileIndex i mapped).1

/-- A live handle refers to a resident slot. -/
theorem Pinned.resident (pinned : s.Pinned) {k i : Nat} {h : PageHandle} (alive : s.object k = some h)
    (refers : h.poolIndex = some i) : 0 < s.handlesTo i ∧ ∃ f, s.pooled.pool.fileToPoolIndex f = some i := by
  have member : some h ∈ s.objects := List.mem_of_getElem? (object_eq.mp alive)
  have positive : 0 < s.handlesTo i := List.countP_pos_iff.mpr ⟨some h, member, refersTo_iff.mpr ⟨h, rfl, refers⟩⟩
  have inside : i < s.pooled.pool.nextPoolIndex := by
    by_contra above
    have count := pinned.refcount i
    rw [pinned.unused i (Nat.not_lt.mp above)] at count
    exact Nat.ne_of_gt positive count.symm
  obtain ⟨f, _, mapped⟩ := BufferPool.Linked.resident pinned i inside
  exact ⟨positive, f, mapped⟩

theorem retain_linked {pins : Nat → Nat} {p p' : PooledFile} {fileIndex i : Nat} {adviseEviction : Bool}
    (linked : p.pool.Linked pins) (retained : p.retain fileIndex adviseEviction = some (i, p')) :
    p'.pool.Linked (Function.update pins i (pins i + 1)) ∧ p'.pool.fileToPoolIndex fileIndex = some i := by
  unfold PooledFile.retain at retained
  split at retained
  · cases retained
  · rename_i r pool reserved
    cases Option.some.inj retained
    obtain ⟨next, mapped⟩ := linked.reserve (BufferPool.reserve_cases reserved)
    have same : (PooledFile.finishRetain { p with pool } r fileIndex).pool =
        { pool with pages := (PooledFile.finishRetain { p with pool } r fileIndex).pool.pages } := by
      unfold PooledFile.finishRetain
      split <;> split <;> rfl
    rw [same]
    exact ⟨next.withPages _, mapped⟩

theorem modify_linked {pins : Nat → Nat} {p : PooledFile} (linked : p.pool.Linked pins) {poolIndex offset lsn : Nat}
    {bytes : List UInt8} (inside : poolIndex < p.pool.nextPoolIndex) : (p.modify poolIndex offset bytes lsn).pool.Linked pins := by
  have written := linked.withPages (Function.update p.pool.pages poolIndex (overwrite (p.pool.pages poolIndex) offset bytes.length bytes))
  unfold PooledFile.modify BufferPool.modifiedBy
  exact written.setMetadata inside rfl rfl

theorem flushSlot_linked {pins : Nat → Nat} {p : PooledFile} (linked : p.pool.Linked pins) (poolIndex : Nat) :
    (p.flushSlot poolIndex).pool.Linked pins := by
  unfold PooledFile.flushSlot
  dsimp only
  split
  · rename_i fileIndex _ index
    refine linked.setMetadata ?_ rfl rfl
    by_contra above
    rw [linked.unused _ (Nat.not_lt.mp above)] at index
    cases index
  · exact linked

theorem flushAll_linked {pins : Nat → Nat} {p : PooledFile} (linked : p.pool.Linked pins) : p.flushAll.pool.Linked pins := by
  unfold PooledFile.flushAll
  generalize p.pool.poolSize = n
  induction n with
  | zero => exact linked
  | succ n ih => exact flushSlot_linked ih n

theorem Pinned.of_eq {pins : Nat → Nat} (linked : s.pooled.pool.Linked pins) (same : ∀ i, pins i = s.handlesTo i) : s.Pinned := by
  have equal : pins = s.handlesTo := funext same
  rw [equal] at linked
  exact linked

/-- Only an assignment to a live handle makes the pool miscount. -/
theorem Pinned.step {op : PageHandleOp} (pinned : s.Pinned) (admitted : s.AssignsToEmpty op) (run : s.step op = some s') :
    s'.Pinned := by
  cases op with
  | getPage fileIndex adviseEviction =>
    simp only [PageHandles.step] at run
    split at run
    · cases Option.some.inj run
      exact pinned
    · rename_i i pooled retained
      cases Option.some.inj run
      refine .of_eq (retain_linked pinned retained).1 fun j => ?_
      simp only [handlesTo, List.countP_append, List.countP_singleton, Function.update_apply]
      by_cases mine : j = i
      · subst mine
        simp [refersTo]
      · simp [refersTo, mine, Ne.symm mine]
  | moveConstruct source =>
    simp only [PageHandles.step, Option.map_eq_some_iff] at run
    obtain ⟨h, alive, rfl⟩ := run
    refine .of_eq pinned fun j => ?_
    have moved := countP_set (refersTo j) (some { h with poolIndex := none }) (object_eq.mp alive)
    simp only [handlesTo, List.countP_append, List.countP_singleton]
    simp only [refersTo] at moved ⊢
    simp at moved ⊢
    omega
  | moveAssign target source =>
    simp only [PageHandles.step] at run
    split at run
    · rename_i old h alive alive'
      split at run
      · cases Option.some.inj run
        exact pinned
      · rename_i different
        cases Option.some.inj run
        have empty : old.poolIndex = none := (admitted.resolve_left different) old alive
        refine .of_eq pinned fun j => ?_
        have assigned := countP_set (refersTo j) (some h) (object_eq.mp alive)
        have alive'' : (s.objects.set target (some h))[source]? = some (some h) := by
          rw [List.getElem?_set_ne different]
          exact object_eq.mp alive'
        have moved := countP_set (refersTo j) (some { h with poolIndex := none }) alive''
        simp only [handlesTo]
        simp only [refersTo, empty] at assigned moved
        simp at assigned moved
        omega
    · cases run
  | destroy k =>
    simp only [PageHandles.step] at run
    split at run
    · rename_i i fileIndex alive
      simp only [Option.map_eq_some_iff] at run
      obtain ⟨pool, released, rfl⟩ := run
      obtain ⟨positive, _⟩ := pinned.resident alive rfl
      obtain ⟨_, released', next, _⟩ := pinned.release positive
      cases released.symm.trans released'
      refine .of_eq next fun j => ?_
      have gone := countP_set (refersTo j) none (object_eq.mp alive)
      simp only [handlesTo, Function.update_apply]
      simp only [refersTo] at gone
      split
      · rename_i mine
        subst mine
        simp at gone
        change List.countP _ _ - 1 = _
        omega
      · rename_i other
        simp [Ne.symm other] at gone
        exact gone.symm
    · rename_i fileIndex alive
      cases Option.some.inj run
      refine .of_eq pinned fun j => ?_
      have gone := countP_set (refersTo j) none (object_eq.mp alive)
      simp [refersTo] at gone
      exact gone.symm
    · cases run
  | write k offset bytes lsn =>
    simp only [PageHandles.step] at run
    split at run
    · rename_i i fileIndex alive
      split at run
      · cases Option.some.inj run
        obtain ⟨_, f, mapped⟩ := pinned.resident alive rfl
        exact modify_linked pinned (pinned.mapped f i mapped).1
      · cases run
    · cases run
  | flushAll =>
    cases Option.some.inj run
    exact flushAll_linked pinned

theorem start_pinned (poolSize : Nat) (file : Mem) : (start poolSize file).Pinned :=
  .of_eq (BufferPool.linked_new poolSize) fun _ => rfl

theorem pinned_reaches {poolSize : Nat} {file : Mem} (reach : Reaches step AssignsToEmpty (start poolSize file) s) : s.Pinned :=
  reach.invariant (start_pinned poolSize file) fun _ _ _ pinned admitted run => pinned.step admitted run

/-- The handle that is overwritten is counted for ever. -/
theorem Pinned.moveAssign_leaks (pinned : s.Pinned) {target source : Nat} (run : s.step (.moveAssign target source) = some s')
    (live : ¬ s.AssignsToEmpty (.moveAssign target source)) : ¬ s'.Counted := by
  obtain ⟨different, notEmpty⟩ := not_or.mp live
  obtain ⟨old, alive, refers⟩ : ∃ old, s.object target = some old ∧ old.poolIndex ≠ none := by
    by_contra none_
    exact notEmpty fun h alive => by_contra fun refers => none_ ⟨h, alive, refers⟩
  obtain ⟨i, refers⟩ := Option.ne_none_iff_exists'.mp refers
  obtain ⟨positive, f, mapped⟩ := pinned.resident alive refers
  simp only [PageHandles.step] at run
  split at run
  · rename_i old' h alive' aliveSource
    rw [if_neg different] at run
    cases Option.some.inj run
    intro counted
    have count := (counted f i mapped).1.symm.trans ((pinned.counted f i mapped).1)
    have assigned := countP_set (refersTo i) (some h) (object_eq.mp alive)
    have aliveAfter : (s.objects.set target (some h))[source]? = some (some h) := by
      rw [List.getElem?_set_ne different]
      exact object_eq.mp aliveSource
    have moved := countP_set (refersTo i) (some { h with poolIndex := none }) aliveAfter
    simp only [handlesTo] at count
    simp only [refersTo, refers] at assigned moved
    simp at assigned moved
    omega
  · cases run

/-- The pool counts the handles right in every run that assigns no handle to a live one, and no
longer. Without handles every resident page can be evicted. -/
theorem counted_iff {poolSize : Nat} {file : Mem} (reach : Reaches step AssignsToEmpty (start poolSize file) s) :
    s.Counted ∧
    ((∀ o ∈ s.objects, o = none) → ∀ fileIndex i, s.pooled.pool.fileToPoolIndex fileIndex = some i →
      s.pooled.pool.replacer.Has i) ∧
    ∀ op s', s.step op = some s' → (s'.Counted ↔ s.AssignsToEmpty op) := by
  have pinned := pinned_reaches reach
  refine ⟨pinned.counted, fun none_ fileIndex i mapped => ?_, fun op s' run => ⟨fun counted => ?_, fun admitted =>
    (pinned.step admitted run).counted⟩⟩
  · refine (pinned.counted fileIndex i mapped).2.mpr (List.countP_eq_zero.mpr fun o member => ?_)
    rw [none_ o member]
    simp [refersTo]
  · cases op with
    | moveAssign target source => exact by_contra fun live => pinned.moveAssign_leaks run live counted
    | _ => trivial

instance (o : Option PageHandle) : Decidable (∀ h, o = some h → h.poolIndex = none) :=
  match o with
  | none => isTrue fun _ impossible => by cases impossible
  | some h => decidable_of_iff (h.poolIndex = none) ⟨fun empty _ same => by cases same; exact empty, fun all => all h rfl⟩

instance (s : PageHandles) : (op : PageHandleOp) → Decidable (s.AssignsToEmpty op)
  | .moveAssign target source =>
    inferInstanceAs (Decidable (target = source ∨ ∀ h, s.object target = some h → h.poolIndex = none))
  | .getPage .. | .moveConstruct _ | .destroy _ | .write .. | .flushAll => isTrue trivial

/-- The state after a run over a file of zeros. -/
def afterRun (poolSize : Nat) (ops : List PageHandleOp) : PageHandles :=
  (run step AssignsToEmpty (start poolSize fun _ => 0) ops).getD (start poolSize fun _ => 0)

/-- A handle is moved away, and another one moved in its place. -/
def movedHandles : List PageHandleOp :=
  [.getPage 7 false, .moveConstruct 0, .getPage 9 true, .moveAssign 0 2, .write 0 5 [1] 3, .destroy 1]

theorem counted_iff_moved :
    (afterRun 2 movedHandles).Counted ∧
    ((∀ o ∈ (afterRun 2 movedHandles).objects, o = none) → ∀ fileIndex i,
      (afterRun 2 movedHandles).pooled.pool.fileToPoolIndex fileIndex = some i →
      (afterRun 2 movedHandles).pooled.pool.replacer.Has i) ∧
    ∀ op s', (afterRun 2 movedHandles).step op = some s' → (s'.Counted ↔ (afterRun 2 movedHandles).AssignsToEmpty op) :=
  counted_iff (.of_isSome (by decide +kernel))

/-- A descent that assigns the handle of the next page to that of the current one. -/
def descent : List PageHandleOp :=
  [.getPage 0 false, .getPage 1 false, .moveAssign 0 1, .destroy 1, .destroy 0]

/-- All handles are destroyed, and the first page is still pinned. -/
theorem descent_leaks : ∃ s, run step (fun _ _ => True) (start 2 fun _ => 0) descent = some s ∧
    (∀ o ∈ s.objects, o = none) ∧ ¬ s.Counted := by
  obtain ⟨s, ended⟩ := Option.isSome_iff_exists.mp
    (by decide +kernel : (run step (fun _ _ => True) (start 2 fun _ => 0) descent).isSome)
  have seen : (run step (fun _ _ => True) (start 2 fun _ => 0) descent).map (fun s =>
      (s.objects, s.pooled.pool.fileToPoolIndex 0, (s.pooled.pool.metadata 0).refcount)) = some ([none, none], some 0, 1) := by
    decide +kernel
  rw [ended, Option.map_some, Option.some_inj, Prod.mk.injEq, Prod.mk.injEq] at seen
  obtain ⟨objects, mapped, count⟩ := seen
  refine ⟨s, ended, by simp [objects], fun counted => ?_⟩
  have handles := (counted 0 0 mapped).1
  rw [count, handlesTo, objects] at handles
  cases handles

end PageHandles

end DiskMap
