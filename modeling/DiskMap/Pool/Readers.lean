import DiskMap.Pool.LatestContent
import Mathlib.Data.List.ReduceOption

namespace DiskMap
open ByteMemory GuardedRun

/-- A call of `retain` behind the pool mutex, with the I/O it still has to do. -/
structure RetainCall extends Retained where
  fileIndex : Nat

/-- The call has no I/O left. -/
def RetainCall.returned (c : RetainCall) : Bool := c.writeBack.isNone && !c.needsRead

/-- Readers over one pool: their calls of `retain`, by number, each until its page is released. -/
structure Readers where
  pooled : PooledFile
  calls : List (Option RetainCall) := []

inductive ReaderStep
  | reserve (fileIndex : Nat) (adviseEviction : Bool)
  | writeBack (call : Nat)
  | read (call : Nat)
  | release (call : Nat)

namespace Readers

def call (s : Readers) (k : Nat) : Option RetainCall := (s.calls[k]?).join

def live (s : Readers) : List RetainCall := s.calls.reduceOption

/-- One atomic step of one reader. `retain` throws in its first step or not at all. -/
def step (s : Readers) : ReaderStep → Option Readers
  | .reserve fileIndex adviseEviction =>
    match s.pooled.pool.reserve fileIndex adviseEviction with
    | none => some s
    | some (r, pool) => some { pooled := { s.pooled with pool }, calls := s.calls ++ [some { r with fileIndex }] }
  | .writeBack k =>
    match s.call k with
    | some c => c.writeBack.map fun w =>
      { pooled := s.pooled.writeBack w, calls := s.calls.set k (some { c with writeBack := none }) }
    | none => none
  | .read k =>
    match s.call k with
    | some c =>
      if c.writeBack = none ∧ c.needsRead then
        some { pooled := s.pooled.readPage c.poolIndex c.fileIndex, calls := s.calls.set k (some { c with needsRead := false }) }
      else none
    | none => none
  | .release k =>
    match s.call k with
    | some c =>
      if c.returned then
        (s.pooled.pool.release c.poolIndex).map fun pool => { pooled := { s.pooled with pool }, calls := s.calls.set k none }
      else none
    | none => none

/-- The readers begin over the pool that the calls before them have left. -/
def start (h : PageHandles) : Readers := { pooled := h.pooled }

/-- A page is taken from a slot only when no other reader is still loading it, and read from the
file only when no other reader still has to write it back. -/
def Undisturbed (s : Readers) : ReaderStep → Prop
  | .reserve fileIndex _ => ∀ c ∈ s.live, s.pooled.pool.fileToPoolIndex fileIndex = some c.poolIndex → c.returned
  | .read k => ∀ c ∈ s.call k, ∀ d ∈ s.live, ∀ w ∈ d.writeBack, w.fileIndex ≠ c.fileIndex
  | _ => True

instance (s : Readers) : (op : ReaderStep) → Decidable (s.Undisturbed op)
  | .reserve fileIndex _ =>
    inferInstanceAs (Decidable (∀ c ∈ s.live, s.pooled.pool.fileToPoolIndex fileIndex = some c.poolIndex → c.returned))
  | .read k => inferInstanceAs (Decidable (∀ c ∈ s.call k, ∀ d ∈ s.live, ∀ w ∈ d.writeBack, w.fileIndex ≠ c.fileIndex))
  | .writeBack _ | .release _ => isTrue trivial

def isOn (poolIndex : Nat) (o : Option RetainCall) : Bool :=
  match o with
  | some c => c.poolIndex == poolIndex
  | none => false

/-- The number of calls that have pinned a slot. -/
def callsOn (s : Readers) (poolIndex : Nat) : Nat := s.calls.countP (isOn poolIndex)

variable {s s' : Readers} {k : Nat} {c : RetainCall}

theorem isOn_some {poolIndex : Nat} : isOn poolIndex (some c) = true ↔ c.poolIndex = poolIndex := beq_iff_eq

theorem call_eq : s.call k = some c ↔ s.calls[k]? = some (some c) := by
  rw [call, Option.join_eq_some_iff]

theorem mem_live : c ∈ s.live ↔ ∃ k, s.call k = some c := by
  rw [live, List.reduceOption_mem_iff, List.mem_iff_getElem?]
  exact exists_congr fun k => call_eq.symm

theorem callsOn_pos (alive : s.call k = some c) : 0 < s.callsOn c.poolIndex :=
  List.countP_pos_iff.mpr ⟨some c, List.mem_of_getElem? (call_eq.mp alive), isOn_some.mpr rfl⟩

/-- The calls after one of them has changed. -/
theorem call_set (alive : s.call k = some c) {pooled : PooledFile} {o : Option RetainCall} (j : Nat) :
    Readers.call { pooled, calls := s.calls.set k o } j = if j = k then o else s.call j := by
  have inside := (List.getElem?_eq_some_iff.mp (call_eq.mp alive)).1
  unfold call
  dsimp only
  split
  · rename_i mine
    rw [mine, List.getElem?_set_self inside, Option.join_some]
  · rename_i other
    rw [List.getElem?_set_ne (Ne.symm other)]

theorem call_set_cases (alive : s.call k = some c) {pooled : PooledFile} {o : Option RetainCall} {j : Nat} {d : RetainCall}
    (after : Readers.call { pooled, calls := s.calls.set k o } j = some d) : j = k ∧ o = some d ∨ j ≠ k ∧ s.call j = some d := by
  rw [call_set alive] at after
  split at after
  · rename_i mine
    exact Or.inl ⟨mine, after⟩
  · rename_i other
    exact Or.inr ⟨other, after⟩

theorem call_append_cases {new : RetainCall} {pooled : PooledFile} {j : Nat} {d : RetainCall}
    (after : Readers.call { pooled, calls := s.calls ++ [some new] } j = some d) :
    j = s.calls.length ∧ d = new ∨ s.call j = some d := by
  rcases Nat.lt_trichotomy j s.calls.length with inside | last | outside
  · right
    rw [call, List.getElem?_append_left inside] at after
    exact after
  · left
    rw [call, last, List.getElem?_concat_length, Option.join_some] at after
    exact ⟨last, (Option.some.inj after).symm⟩
  · rw [call, List.getElem?_eq_none (by simp; omega)] at after
    cases after

theorem call_append {new : RetainCall} {pooled : PooledFile} (alive : s.call k = some c) :
    Readers.call { pooled, calls := s.calls ++ [some new] } k = some c := by
  have inside := (List.getElem?_eq_some_iff.mp (call_eq.mp alive)).1
  rw [call, List.getElem?_append_left inside]
  exact alive

theorem call_last {new : RetainCall} {pooled : PooledFile} :
    Readers.call { pooled, calls := s.calls ++ [some new] } s.calls.length = some new := by
  rw [call, List.getElem?_concat_length, Option.join_some]

theorem callsOn_append {new : RetainCall} {pooled : PooledFile} (base : Nat → Nat) {i : Nat} (slot : new.poolIndex = i) :
    (fun j => base j + Readers.callsOn { pooled, calls := s.calls ++ [some new] } j) =
      Function.update (fun j => base j + s.callsOn j) i (base i + s.callsOn i + 1) := by
  funext j
  simp only [callsOn, List.countP_append, List.countP_singleton, isOn_some, Function.update_apply, slot]
  by_cases mine : j = i
  · subst mine
    rw [if_pos rfl, if_pos rfl, Nat.add_assoc]
  · rw [if_neg (Ne.symm mine), if_neg mine, Nat.add_zero]

/-- The I/O that is left to a call does not matter to the pins. -/
theorem callsOn_set (alive : s.call k = some c) {new : RetainCall} {pooled : PooledFile} (slot : new.poolIndex = c.poolIndex) (i : Nat) :
    Readers.callsOn { pooled, calls := s.calls.set k (some new) } i = s.callsOn i := by
  have changed := PageHandles.countP_set (isOn i) (some new) (call_eq.mp alive)
  simp only [isOn_some, slot] at changed
  exact Nat.add_right_cancel changed

theorem callsOn_drop (alive : s.call k = some c) {pooled : PooledFile} (base : Nat → Nat) :
    (fun j => base j + Readers.callsOn { pooled, calls := s.calls.set k none } j) =
      Function.update (fun j => base j + s.callsOn j) c.poolIndex (base c.poolIndex + s.callsOn c.poolIndex - 1) := by
  funext j
  have changed := PageHandles.countP_set (isOn j) none (call_eq.mp alive)
  simp only [isOn_some] at changed
  rw [if_neg (show ¬ isOn j none = true from Bool.false_ne_true)] at changed
  simp only [Function.update_apply, callsOn]
  by_cases mine : j = c.poolIndex
  · subst mine
    rw [if_pos rfl] at changed ⊢
    omega
  · rw [if_neg (Ne.symm mine)] at changed
    rw [if_neg mine]
    omega

/-- What holds between the readers' steps. A slot that is being loaded belongs to one call alone, and
its old bytes are there until they have been written back. -/
structure Consistent (base : Nat → Nat) (content : Nat → Mem) (s : Readers) : Prop where
  linked : s.pooled.pool.Linked fun i => base i + s.callsOn i
  mapped : ∀ k c, s.call k = some c → s.pooled.pool.fileToPoolIndex c.fileIndex = some c.poolIndex
  alone : ∀ k c, s.call k = some c → c.returned = false → ∀ j d, s.call j = some d → d.poolIndex = c.poolIndex → j = k
  fresh : ∀ k c, s.call k = some c → c.returned = false → (s.pooled.pool.metadata c.poolIndex).dirty = false
  toWrite : ∀ k c w, s.call k = some c → c.writeBack = some w →
    c.needsRead = true ∧ w.poolIndex = c.poolIndex ∧ ∀ o, o < pageSize → s.pooled.pool.pages c.poolIndex o = content w.fileIndex o
  resident : ∀ f i, s.pooled.pool.fileToPoolIndex f = some i → (∀ k c, s.call k = some c → c.poolIndex = i → c.returned = true) →
    ∀ o, o < pageSize → s.pooled.pool.pages i o = content f o
  clean : ∀ f, (∀ i, s.pooled.pool.fileToPoolIndex f = some i → (s.pooled.pool.metadata i).dirty = false) →
    (∀ k c w, s.call k = some c → c.writeBack = some w → w.fileIndex ≠ f) →
    ∀ o, o < pageSize → s.pooled.file (f * pageSize + o) = content f o

variable {base : Nat → Nat} {content : Nat → Mem}

theorem returned_iff : c.returned = true ↔ c.writeBack = none ∧ c.needsRead = false := by
  simp [RetainCall.returned]

/-- A page is shared that no call is loading. -/
theorem Consistent.hit (consistent : s.Consistent base content) {fileIndex : Nat} {r : Retained} {pool : BufferPool}
    (linked : pool.Linked fun i => base i + Readers.callsOn { s with calls := s.calls ++ [some { r with fileIndex }] } i)
    (pages : pool.pages = s.pooled.pool.pages) (hit : s.pooled.pool.Hit fileIndex r pool) (read : r.needsRead = false)
    (undisturbed : ∀ k c, s.call k = some c → c.poolIndex = r.poolIndex → c.returned = true) :
    Consistent base content { pooled := { s.pooled with pool }, calls := s.calls ++ [some { r with fileIndex }] } := by
  have new : ({ r with fileIndex } : RetainCall).returned = true := returned_iff.mpr ⟨hit.writeBack, read⟩
  refine ⟨linked, fun k c alive => ?_, fun k c alive pending j d alive' same => ?_, fun k c alive pending => ?_,
    fun k c w alive write => ?_, fun f i found all o inside => ?_, fun f clean none_ o inside => ?_⟩
  · refine (congrFun hit.mapping _).trans ?_
    rcases call_append_cases alive with ⟨_, rfl⟩ | old
    · exact hit.mapped
    · exact consistent.mapped k c old
  · rcases call_append_cases alive with ⟨_, rfl⟩ | old
    · rw [new] at pending
      cases pending
    · rcases call_append_cases alive' with ⟨_, rfl⟩ | old'
      · rw [undisturbed k c old same.symm] at pending
        cases pending
      · exact consistent.alone k c old pending j d old' same
  · rcases call_append_cases alive with ⟨_, rfl⟩ | old
    · rw [new] at pending
      cases pending
    · exact (hit.same _).2.trans (consistent.fresh k c old pending)
  · rcases call_append_cases alive with ⟨_, rfl⟩ | old
    · rw [hit.writeBack] at write
      cases write
    · dsimp only
      rw [pages]
      exact consistent.toWrite k c w old write
  · dsimp only at found ⊢
    rw [pages]
    rw [hit.mapping] at found
    exact consistent.resident f i found (fun k c old => all k c (call_append old)) o inside
  · refine consistent.clean f (fun i found => ?_) (fun k c w old => none_ k c w (call_append old)) o inside
    exact (hit.same i).2.symm.trans (clean i ((congrFun hit.mapping f).trans found))

/-- A free slot is taken for a page that is not resident. -/
theorem Consistent.assigned (consistent : s.Consistent base content) {fileIndex : Nat} {r : Retained} {pool : BufferPool}
    (linked : pool.Linked fun i => base i + Readers.callsOn { s with calls := s.calls ++ [some { r with fileIndex }] } i)
    (pages : pool.pages = s.pooled.pool.pages)
    (assigned : s.pooled.pool.Assigned (fun i => base i + s.callsOn i) fileIndex r pool) (read : r.needsRead = true) :
    Consistent base content { pooled := { s.pooled with pool }, calls := s.calls ++ [some { r with fileIndex }] } := by
  have notReturned : ({ r with fileIndex } : RetainCall).returned ≠ true := fun done => by
    have finished := (returned_iff.mp done).2
    rw [read] at finished
    cases finished
  have other : ∀ k c, s.call k = some c → c.poolIndex ≠ r.poolIndex := by
    intro k c alive same
    have free : base r.poolIndex + s.callsOn r.poolIndex = 0 := assigned.free
    have pinned := callsOn_pos alive
    rw [same] at pinned
    omega
  refine ⟨linked, fun k c alive => ?_, fun k c alive pending j d alive' same => ?_, fun k c alive pending => ?_,
    fun k c w alive write => ?_, fun f i found all o inside => ?_, fun f clean none_ o inside => ?_⟩
  · refine (assigned.mapped _ _).mpr ?_
    rcases call_append_cases alive with ⟨_, rfl⟩ | old
    · exact Or.inl ⟨rfl, rfl⟩
    · exact Or.inr ⟨consistent.mapped k c old, other k c old⟩
  · rcases call_append_cases alive with ⟨last, rfl⟩ | old
    · rcases call_append_cases alive' with ⟨last', _⟩ | old'
      · rw [last, last']
      · exact absurd same (other j d old')
    · rcases call_append_cases alive' with ⟨_, rfl⟩ | old'
      · exact absurd same.symm (other k c old)
      · exact consistent.alone k c old pending j d old' same
  · rcases call_append_cases alive with ⟨_, rfl⟩ | old
    · exact assigned.clean
    · exact (congrArg PageMetadata.dirty (assigned.others _ (other k c old))).trans (consistent.fresh k c old pending)
  · dsimp only
    rw [pages]
    rcases call_append_cases alive with ⟨_, rfl⟩ | old
    · obtain ⟨slot, at_⟩ := assigned.written w write
      refine ⟨read, slot, consistent.resident _ _ at_ fun j d old' same => absurd same (other j d old')⟩
    · exact consistent.toWrite k c w old write
  · dsimp only at found ⊢
    rw [pages]
    rcases (assigned.mapped f i).mp found with ⟨rfl, rfl⟩ | ⟨before, _⟩
    · exact absurd (all _ _ call_last rfl) notReturned
    · exact consistent.resident f i before (fun k c old => all k c (call_append old)) o inside
  · refine consistent.clean f (fun i before => ?_) (fun k c w old => none_ k c w (call_append old)) o inside
    by_cases mine : i = r.poolIndex
    · subst mine
      -- a dirty page that leaves the slot is the one the new call has to write back
      refine Bool.eq_false_iff.mpr fun dirty => ?_
      obtain ⟨w, write, index⟩ := assigned.evicted f before dirty
      exact none_ _ _ w call_last write index
    · have still := clean i ((assigned.mapped f i).mpr (Or.inr ⟨before, mine⟩))
      exact (congrArg PageMetadata.dirty (assigned.others i mine)).symm.trans still

theorem Consistent.writeBack (consistent : s.Consistent base content) (alive : s.call k = some c) {w : WriteBack}
    (write : c.writeBack = some w) :
    Consistent base content { pooled := s.pooled.writeBack w, calls := s.calls.set k (some { c with writeBack := none }) } := by
  obtain ⟨read, slot, bytes⟩ := consistent.toWrite k c w alive write
  have pending : c.returned = false := Bool.eq_false_iff.mpr fun done => by
    rw [(returned_iff.mp done).1] at write
    cases write
  have still : ({ c with writeBack := none } : RetainCall).returned ≠ true := fun done => by
    have finished := (returned_iff.mp done).2
    rw [show ({ c with writeBack := none } : RetainCall).needsRead = c.needsRead from rfl, read] at finished
    cases finished
  have before : ∀ j d, Readers.call { pooled := s.pooled.writeBack w, calls := s.calls.set k (some { c with writeBack := none }) } j = some d →
      ∃ d', s.call j = some d' ∧ d'.poolIndex = d.poolIndex ∧ d'.fileIndex = d.fileIndex ∧ (d.returned = false → d'.returned = false) ∧
        ∀ v, d.writeBack = some v → d'.writeBack = some v ∧ d'.needsRead = d.needsRead := by
    intro j d after
    rcases call_set_cases alive after with ⟨rfl, new⟩ | ⟨_, old⟩
    · cases Option.some.inj new
      exact ⟨c, alive, rfl, rfl, fun _ => pending, fun v none_ => by cases none_⟩
    · exact ⟨d, old, rfl, rfl, id, fun v found => ⟨found, rfl⟩⟩
  have kept : ∀ j d, s.call j = some d → j ≠ k →
      Readers.call { pooled := s.pooled.writeBack w, calls := s.calls.set k (some { c with writeBack := none }) } j = some d := by
    intro j d old other
    rw [call_set alive, if_neg other, old]
  refine ⟨?_, fun j d after => ?_, fun j d after unfinished j' d' after' same => ?_, fun j d after unfinished => ?_,
    fun j d v after left => ?_, fun f i found all => ?_, fun f clean none_ o inside => ?_⟩
  · simp only [callsOn_set alive (show ({ c with writeBack := none } : RetainCall).poolIndex = c.poolIndex from rfl)]
    exact consistent.linked
  · obtain ⟨d', old, slot', index, _⟩ := before j d after
    rw [← slot', ← index]
    exact consistent.mapped j d' old
  · obtain ⟨e, old, slot', _, unfinished', _⟩ := before j d after
    obtain ⟨e', old', slot'', _⟩ := before j' d' after'
    exact consistent.alone j e old (unfinished' unfinished) j' e' old' (by rw [slot', slot'', same])
  · obtain ⟨d', old, slot', _, unfinished', _⟩ := before j d after
    rw [← slot']
    exact consistent.fresh j d' old (unfinished' unfinished)
  · obtain ⟨d', old, slot', _, _, left'⟩ := before j d after
    rw [← slot', ← (left' v left).2]
    exact consistent.toWrite j d' v old (left' v left).1
  · refine consistent.resident f i found fun j d old on => ?_
    by_cases mine : j = k
    · subst mine
      cases alive.symm.trans old
      exact absurd (all j { c with writeBack := none } (by rw [call_set alive, if_pos rfl]) on) still
    · exact all j d (kept j d old mine) on
  · refine (PooledFile.writeBack_byte s.pooled w inside).trans ?_
    split
    · rename_i mine
      rw [mine, slot]
      exact bytes o inside
    · rename_i different
      refine consistent.clean f clean (fun j d v old left => ?_) o inside
      by_cases mine : j = k
      · subst mine
        cases alive.symm.trans old
        cases write.symm.trans left
        exact Ne.symm different
      · exact none_ j d v (kept j d old mine) left

theorem Consistent.read (consistent : s.Consistent base content) (alive : s.call k = some c) (written : c.writeBack = none)
    (pending : c.needsRead = true) (undisturbed : ∀ j d w, s.call j = some d → d.writeBack = some w → w.fileIndex ≠ c.fileIndex) :
    Consistent base content
      { pooled := s.pooled.readPage c.poolIndex c.fileIndex, calls := s.calls.set k (some { c with needsRead := false }) } := by
  have notReturned : c.returned = false := Bool.eq_false_iff.mpr fun done => by
    rw [(returned_iff.mp done).2] at pending
    cases pending
  have at_ := consistent.mapped k c alive
  have loaded : ∀ o, o < pageSize → s.pooled.file (c.fileIndex * pageSize + o) = content c.fileIndex o := by
    refine consistent.clean _ (fun i found => ?_) undisturbed
    rw [← Option.some.inj (at_.symm.trans found)]
    exact consistent.fresh k c alive notReturned
  have pages : ∀ i, i ≠ c.poolIndex → (s.pooled.readPage c.poolIndex c.fileIndex).pool.pages i = s.pooled.pool.pages i :=
    fun i other => Function.update_of_ne other _ _
  have done : ({ c with needsRead := false } : RetainCall).returned = true := returned_iff.mpr ⟨written, rfl⟩
  have before : ∀ j d, Readers.call { pooled := s.pooled.readPage c.poolIndex c.fileIndex
                                      calls := s.calls.set k (some { c with needsRead := false }) } j = some d →
      ∃ d', s.call j = some d' ∧ d'.poolIndex = d.poolIndex ∧ d'.fileIndex = d.fileIndex ∧ (d.returned = false → d' = d ∧ j ≠ k) := by
    intro j d after
    rcases call_set_cases alive after with ⟨rfl, new⟩ | ⟨other, old⟩
    · cases Option.some.inj new
      refine ⟨c, alive, rfl, rfl, fun unfinished => ?_⟩
      rw [done] at unfinished
      cases unfinished
    · exact ⟨d, old, rfl, rfl, fun _ => ⟨rfl, other⟩⟩
  have kept : ∀ j d, s.call j = some d → j ≠ k →
      Readers.call { pooled := s.pooled.readPage c.poolIndex c.fileIndex
                     calls := s.calls.set k (some { c with needsRead := false }) } j = some d := by
    intro j d old other
    rw [call_set alive, if_neg other, old]
  refine ⟨?_, fun j d after => ?_, fun j d after unfinished j' d' after' same => ?_, fun j d after unfinished => ?_,
    fun j d v after left => ?_, fun f i found all o inside => ?_, fun f clean none_ => ?_⟩
  · simp only [callsOn_set alive (show ({ c with needsRead := false } : RetainCall).poolIndex = c.poolIndex from rfl)]
    exact consistent.linked.withPages _
  · obtain ⟨d', old, slot, index, _⟩ := before j d after
    rw [← slot, ← index]
    exact consistent.mapped j d' old
  · obtain ⟨e, old, _, _, unchanged⟩ := before j d after
    obtain ⟨e', old', slot, _⟩ := before j' d' after'
    obtain ⟨rfl, _⟩ := unchanged unfinished
    exact consistent.alone j e old unfinished j' e' old' (slot.trans same)
  · obtain ⟨d', old, _, _, unchanged⟩ := before j d after
    obtain ⟨rfl, _⟩ := unchanged unfinished
    exact consistent.fresh j d' old unfinished
  · have unfinished : d.returned = false := Bool.eq_false_iff.mpr fun finished => by
      rw [(returned_iff.mp finished).1] at left
      cases left
    obtain ⟨d', old, _, _, unchanged⟩ := before j d after
    obtain ⟨rfl, other⟩ := unchanged unfinished
    dsimp only
    rw [pages]
    · exact consistent.toWrite j d' v old left
    · exact fun same => other.symm (consistent.alone j d' old unfinished k c alive same.symm)
  · by_cases mine : i = c.poolIndex
    · subst mine
      cases consistent.linked.mapped_inj found at_
      exact (congrFun (Function.update_self _ _ _) o).trans (loaded o inside)
    · refine (congrFun (pages i mine) o).trans (consistent.resident f i found (fun j d old on => ?_) o inside)
      refine all j d (kept j d old ?_) on
      rintro rfl
      cases alive.symm.trans old
      exact mine on.symm
  · refine consistent.clean f clean fun j d v old left => ?_
    refine none_ j d v (kept j d old ?_) left
    rintro rfl
    cases alive.symm.trans old
    rw [written] at left
    cases left

theorem Consistent.release (consistent : s.Consistent base content) (alive : s.call k = some c) (returned : c.returned = true)
    {pool : BufferPool} (released : s.pooled.pool.release c.poolIndex = some pool) :
    Consistent base content { pooled := { s.pooled with pool }, calls := s.calls.set k none } := by
  have pinned : 0 < base c.poolIndex + s.callsOn c.poolIndex := Nat.add_pos_right _ (callsOn_pos alive)
  obtain ⟨_, released', linked, pages, _, mapping, same⟩ := consistent.linked.release pinned
  cases released.symm.trans released'
  have before : ∀ {pooled} j d, Readers.call { pooled, calls := s.calls.set k none } j = some d → s.call j = some d := by
    intro pooled j d after
    rcases call_set_cases alive after with ⟨_, new⟩ | ⟨_, old⟩
    · cases new
    · exact old
  have kept : ∀ {pooled} j d, s.call j = some d → j ≠ k → Readers.call { pooled, calls := s.calls.set k none } j = some d := by
    intro pooled j d old other
    rw [call_set alive, if_neg other, old]
  refine ⟨?_, fun j d after => ?_, fun j d after unfinished j' d' after' on => ?_, fun j d after unfinished => ?_,
    fun j d v after left => ?_, fun f i found all o inside => ?_, fun f clean none_ => ?_⟩
  · rw [callsOn_drop alive]
    exact linked
  · exact (congrFun mapping _).trans (consistent.mapped j d (before j d after))
  · exact consistent.alone j d (before j d after) unfinished j' d' (before j' d' after') on
  · exact (same _).2.trans (consistent.fresh j d (before j d after) unfinished)
  · dsimp only
    rw [pages]
    exact consistent.toWrite j d v (before j d after) left
  · dsimp only at found ⊢
    rw [mapping] at found
    rw [pages]
    refine consistent.resident f i found (fun j d old on => ?_) o inside
    by_cases mine : j = k
    · subst mine
      cases alive.symm.trans old
      exact returned
    · exact all j d (kept j d old mine) on
  · refine consistent.clean f (fun i found => ?_) fun j d v old left => ?_
    · exact (same i).2.symm.trans (clean i ((congrFun mapping f).trans found))
    · refine none_ j d v (kept j d old ?_) left
      rintro rfl
      cases alive.symm.trans old
      rw [(returned_iff.mp returned).1] at left
      cases left

theorem Consistent.step {op : ReaderStep} (consistent : s.Consistent base content) (undisturbed : s.Undisturbed op)
    (run : s.step op = some s') : s'.Consistent base content := by
  cases op with
  | reserve fileIndex adviseEviction =>
    simp only [Readers.step] at run
    split at run
    · cases Option.some.inj run
      exact consistent
    · rename_i r pool reserved
      cases Option.some.inj run
      have reserving := BufferPool.reserve_cases reserved
      obtain ⟨pages, ways⟩ := consistent.linked.reserve_effect reserving
      have linked := (consistent.linked.reserve reserving).1
      have pins : (fun i => base i + Readers.callsOn { s with calls := s.calls ++ [some { r with fileIndex }] } i) = _ :=
        callsOn_append base rfl
      rw [← pins] at linked
      rcases ways with ⟨read, hit⟩ | ⟨read, assigned⟩
      · refine consistent.hit linked pages hit read fun k c alive same => ?_
        exact undisturbed c (mem_live.mpr ⟨k, alive⟩) (by rw [same]; exact hit.mapped)
      · exact consistent.assigned linked pages assigned read
  | writeBack k =>
    simp only [Readers.step] at run
    split at run
    · rename_i c alive
      obtain ⟨w, write, rfl⟩ := Option.map_eq_some_iff.mp run
      exact consistent.writeBack alive write
    · cases run
  | read k =>
    simp only [Readers.step] at run
    split at run
    · rename_i c alive
      split at run
      · rename_i ready
        cases Option.some.inj run
        refine consistent.read alive ready.1 ready.2 fun j d w alive' left => ?_
        exact undisturbed c alive d (mem_live.mpr ⟨j, alive'⟩) w left
      · cases run
    · cases run
  | release k =>
    simp only [Readers.step] at run
    split at run
    · rename_i c alive
      split at run
      · rename_i returned
        obtain ⟨pool, released, rfl⟩ := Option.map_eq_some_iff.mp run
        exact consistent.release alive returned released
      · cases run
    · cases run

theorem start_consistent {h : PageHandles} (current : h.Current) : (start h).Consistent h.handlesTo h.latest where
  linked := current.pinned
  mapped k c alive := by cases alive
  alone k c alive := by cases alive
  fresh k c alive := by cases alive
  toWrite k c w alive := by cases alive
  resident f i found _ := current.content.resident f i found
  clean f clean _ := current.content.clean f clean

/-- In undisturbed runs, a call of `retain` that has returned shows the latest content of its page. -/
theorem returned_shows_latest {poolSize : Nat} {file : Mem} {h : PageHandles}
    (before : Reaches PageHandles.step PageHandles.AssignsToEmpty (PageHandles.start poolSize file) h)
    (reach : Reaches step Undisturbed (start h) s) :
    ∀ k c, s.call k = some c → c.returned = true → ∀ o, o < pageSize → s.pooled.pool.pages c.poolIndex o = h.latest c.fileIndex o := by
  have current : h.Current := before.invariant (PageHandles.start_current poolSize file)
    fun _ _ _ current admitted run => (current.step admitted run).1
  have consistent : s.Consistent h.handlesTo h.latest := reach.invariant (start_consistent current)
    fun _ _ _ consistent undisturbed run => consistent.step undisturbed run
  intro k c alive returned
  refine consistent.resident _ _ (consistent.mapped k c alive) fun j d alive' same => ?_
  by_contra pending
  cases consistent.alone j d alive' (Bool.not_eq_true _ ▸ pending) k c alive same.symm
  cases alive.symm.trans alive'
  exact pending returned

/-- The first page has been written to, and is not in use. -/
def firstPageWritten (poolSize : Nat) : PageHandles :=
  PageHandles.afterRun poolSize [.getPage 0 false, .write 0 5 [1] 3, .destroy 0]

theorem firstPageWritten_reaches : Reaches PageHandles.step PageHandles.AssignsToEmpty (PageHandles.start 1 fun _ => 0) (firstPageWritten 1) := by
  unfold firstPageWritten PageHandles.afterRun
  exact .of_isSome (by decide +kernel)

/-- Another page is loaded in its place and shared, and the first one loaded again. -/
def sharedRun : List ReaderStep :=
  [.reserve 1 false, .writeBack 0, .read 0, .reserve 1 true, .release 0, .release 1, .reserve 0 false, .read 2]

def afterReaders (h : PageHandles) (ops : List ReaderStep) : Readers := (run step Undisturbed (start h) ops).getD (start h)

theorem returned_shows_latest_shared :
    ∃ c, (afterReaders (firstPageWritten 1) sharedRun).call 2 = some c ∧ c.returned = true ∧
      ∀ o, o < pageSize → (afterReaders (firstPageWritten 1) sharedRun).pooled.pool.pages c.poolIndex o =
        (firstPageWritten 1).latest c.fileIndex o := by
  have done : ((afterReaders (firstPageWritten 1) sharedRun).call 2).map RetainCall.returned = some true := by decide +kernel
  obtain ⟨c, alive, returned⟩ := Option.map_eq_some_iff.mp done
  exact ⟨c, alive, returned, returned_shows_latest firstPageWritten_reaches (.of_isSome (by decide +kernel)) 2 c alive returned⟩

/-- A second reader of a page that is still being loaded gets the page that was in the slot before.
A reader of a page that is still being written back gets its old version from the file. -/
theorem readers_disturbed :
    (∃ s, run step (fun _ _ => True) (start (firstPageWritten 1)) [.reserve 1 false, .reserve 1 false] = some s ∧
      ∃ c, s.call 1 = some c ∧ c.returned = true ∧ s.pooled.pool.pages c.poolIndex 5 ≠ (firstPageWritten 1).latest c.fileIndex 5) ∧
    ∃ s, run step (fun _ _ => True) (start (firstPageWritten 2))
        [.reserve 1 false, .read 0, .release 0, .reserve 2 false, .reserve 0 false, .read 2] = some s ∧
      ∃ c, s.call 2 = some c ∧ c.returned = true ∧ s.pooled.pool.pages c.poolIndex 5 ≠ (firstPageWritten 2).latest c.fileIndex 5 := by
  have seen : ∀ {h : PageHandles} {ops : List ReaderStep} {k : Nat},
      ((run step (fun _ _ => True) (start h) ops).bind fun s => (s.call k).map fun c =>
        (c.returned && s.pooled.pool.pages c.poolIndex 5 != h.latest c.fileIndex 5)) = some true →
      ∃ s, run step (fun _ _ => True) (start h) ops = some s ∧
        ∃ c, s.call k = some c ∧ c.returned = true ∧ s.pooled.pool.pages c.poolIndex 5 ≠ h.latest c.fileIndex 5 := by
    intro h ops k result
    obtain ⟨s, ended, found⟩ := Option.bind_eq_some_iff.mp result
    obtain ⟨c, alive, both⟩ := Option.map_eq_some_iff.mp found
    rw [Bool.and_eq_true, bne_iff_ne] at both
    exact ⟨s, ended, c, alive, both⟩
  exact ⟨seen (by decide +kernel), seen (by decide +kernel)⟩

end Readers

end DiskMap
