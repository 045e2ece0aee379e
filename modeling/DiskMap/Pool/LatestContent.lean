import DiskMap.Pool.PageHandles

namespace DiskMap
open ByteMemory GuardedRun

/-- Resident pages have their content in the pool, and pages that are not dirty have it in the file. -/
structure PooledFile.Shows (content : Nat → Mem) (p : PooledFile) : Prop where
  resident : ∀ f i, p.pool.fileToPoolIndex f = some i → ∀ o, o < pageSize → p.pool.pages i o = content f o
  clean : ∀ f, (∀ i, p.pool.fileToPoolIndex f = some i → (p.pool.metadata i).dirty = false) →
    ∀ o, o < pageSize → p.file (f * pageSize + o) = content f o

/-- Slots with pins keep their pages. -/
structure BufferPool.KeepsPinned (pins : Nat → Nat) (p p' : BufferPool) : Prop where
  mapped : ∀ f i, 0 < pins i → p.fileToPoolIndex f = some i → p'.fileToPoolIndex f = some i
  fileIndex : ∀ i, 0 < pins i → (p'.metadata i).fileIndex = (p.metadata i).fileIndex

namespace PooledFile

variable {p p' : PooledFile} {pins : Nat → Nat} {content : Nat → Mem} {fileIndex i : Nat} {adviseEviction : Bool}

theorem writeBack_byte (p : PooledFile) (w : WriteBack) {f o : Nat} (inside : o < pageSize) :
    (p.writeBack w).file (f * pageSize + o) =
      if f = w.fileIndex then p.pool.pages w.poolIndex o else p.file (f * pageSize + o) := by
  unfold writeBack
  dsimp only
  split
  · rename_i same
    rw [same, overwrite_inside (by omega) (by omega), Nat.add_sub_cancel_left, slice_getD _ _ inside, Nat.zero_add]
  · rename_i different
    refine overwrite_outside ?_
    rcases Nat.lt_or_gt_of_ne different with below | above
    · left
      have bound := Nat.mul_le_mul_right pageSize (Nat.succ_le_of_lt below)
      rw [Nat.succ_mul] at bound
      omega
    · right
      have bound := Nat.mul_le_mul_right pageSize (Nat.succ_le_of_lt above)
      rw [Nat.succ_mul] at bound
      omega

/-- The page in a slot is written back, if it is dirty, and leaves the pool. -/
theorem Shows.evict (shows_ : p.Shows content) (linked : p.pool.Linked pins) {victim : Nat}
    (at_ : p.pool.fileToPoolIndex victim = some i) (replacer : DualPriorityReplacer) :
    Shows content { pool := ({ p.pool with replacer } : BufferPool).unassign i
                    file := match p.pool.writeBackOf i with
                      | some w => (p.writeBack w).file
                      | none => p.file } := by
  have index := (linked.mapped victim i at_).2
  have mapping : (({ p.pool with replacer } : BufferPool).unassign i).fileToPoolIndex =
      Function.update p.pool.fileToPoolIndex victim none := by
    simp only [BufferPool.unassign, index]
  have file : ∀ f o, o < pageSize → (match p.pool.writeBackOf i with
      | some w => (p.writeBack w).file
      | none => p.file) (f * pageSize + o) =
        if f = victim ∧ (p.pool.metadata i).dirty = true then p.pool.pages i o else p.file (f * pageSize + o) := by
    intro f o inside
    unfold BufferPool.writeBackOf
    rw [index]
    cases (p.pool.metadata i).dirty with
    | true =>
      simp only [and_true]
      exact writeBack_byte p _ inside
    | false => simp
  refine ⟨fun f j found => ?_, fun f clean o inside => ?_⟩
  · rw [mapping] at found
    by_cases mine : f = victim
    · rw [mine, Function.update_self] at found
      cases found
    · rw [Function.update_of_ne mine] at found
      exact shows_.resident f j found
  · rw [mapping] at clean
    refine (file f o inside).trans ?_
    by_cases written : f = victim ∧ (p.pool.metadata i).dirty = true
    · rw [if_pos written, written.1]
      exact shows_.resident victim i at_ o inside
    · rw [if_neg written]
      refine shows_.clean f (fun j found => ?_) o inside
      by_cases mine : f = victim
      · rw [mine, at_] at found
        cases Option.some.inj found
        exact Bool.eq_false_iff.mpr fun dirty => written ⟨mine, dirty⟩
      · have other : j ≠ i := by
          rintro rfl
          exact mine (linked.mapped_inj found at_)
        have still := clean j (by rw [Function.update_of_ne mine]; exact found)
        rwa [BufferPool.unassign_other other] at still

/-- A page is read into a slot that no page has. -/
theorem Shows.load (shows_ : p.Shows content) (adviseEviction : Bool) (gone : ∀ f, p.pool.fileToPoolIndex f ≠ some i)
    (unmapped : p.pool.fileToPoolIndex fileIndex = none) (fresh : (p.pool.metadata i).dirty = false) :
    Shows content (({ p with pool := (p.pool.assign i fileIndex adviseEviction).pin i adviseEviction } : PooledFile).readPage i fileIndex) := by
  have mapping : ∀ f j, Function.update p.pool.fileToPoolIndex fileIndex (some i) f = some j →
      f = fileIndex ∧ j = i ∨ p.pool.fileToPoolIndex f = some j ∧ j ≠ i := by
    intro f j found
    by_cases mine : f = fileIndex
    · rw [mine, Function.update_self] at found
      exact Or.inl ⟨mine, (Option.some.inj found).symm⟩
    · rw [Function.update_of_ne mine] at found
      refine Or.inr ⟨found, ?_⟩
      rintro rfl
      exact gone f found
  have inFile : ∀ o, o < pageSize → p.file (fileIndex * pageSize + o) = content fileIndex o :=
    shows_.clean fileIndex fun j found => by
      rw [unmapped] at found
      cases found
  refine ⟨fun f j found o inside => ?_, fun f clean o inside => ?_⟩
  · change Function.update p.pool.pages i _ j o = _
    rcases mapping f j found with ⟨rfl, rfl⟩ | ⟨before, other⟩
    · rw [Function.update_self]
      exact inFile o inside
    · rw [Function.update_of_ne other]
      exact shows_.resident f j before o inside
  · change p.file (f * pageSize + o) = _
    by_cases mine : f = fileIndex
    · rw [mine]
      exact inFile o inside
    · refine shows_.clean f (fun j found => ?_) o inside
      have other : j ≠ i := by
        rintro rfl
        exact gone f found
      have still := clean j (by
        change Function.update p.pool.fileToPoolIndex fileIndex (some i) f = some j
        rw [Function.update_of_ne mine]
        exact found)
      change (((p.pool.assign i fileIndex adviseEviction).pin i adviseEviction).metadata j).dirty = false at still
      rwa [BufferPool.pin_other other, BufferPool.assign_other other] at still

theorem retain_shows (linked : p.pool.Linked pins) (shows_ : p.Shows content)
    (retained : p.retain fileIndex adviseEviction = some (i, p')) : p'.Shows content ∧ p.pool.KeepsPinned pins p'.pool := by
  unfold retain at retained
  split at retained
  · cases retained
  rename_i r pool reserved
  cases Option.some.inj retained
  cases BufferPool.reserve_cases reserved with
  | @hit i at_ =>
    have index : ∀ j, ((({ p.pool with replacer := (p.pool.replacer.remove i).2 } : BufferPool).pin i adviseEviction).metadata j).fileIndex =
        (p.pool.metadata j).fileIndex := by
      intro j
      rw [BufferPool.pin_metadata]
      split
      · rename_i mine
        rw [mine]
      · rfl
    refine ⟨⟨shows_.resident, fun f clean => shows_.clean f fun j found => ?_⟩, fun f j _ found => found, fun j _ => index j⟩
    have still := clean j found
    change ((({ p.pool with replacer := (p.pool.replacer.remove i).2 } : BufferPool).pin i adviseEviction).metadata j).dirty = false at still
    rwa [(BufferPool.pin_dirty j).1] at still
  | unused unmapped room =>
    have gone : ∀ f, p.pool.fileToPoolIndex f ≠ some p.pool.nextPoolIndex := fun f found =>
      Nat.lt_irrefl _ (linked.mapped f _ found).1
    have grown : Shows content { p with pool := { p.pool with nextPoolIndex := p.pool.nextPoolIndex + 1 } } :=
      ⟨shows_.resident, shows_.clean⟩
    refine ⟨grown.load adviseEviction gone unmapped (congrArg PageMetadata.dirty (linked.unused _ le_rfl)), fun f j _ found => ?_, fun j pinned => ?_⟩
    · change Function.update p.pool.fileToPoolIndex fileIndex (some _) f = some j
      rw [Function.update_of_ne]
      · exact found
      · rintro rfl
        rw [unmapped] at found
        cases found
    · have other : j ≠ p.pool.nextPoolIndex := by
        rintro rfl
        rw [← linked.refcount, linked.unused _ le_rfl] at pinned
        exact Nat.lt_irrefl _ pinned
      exact congrArg PageMetadata.fileIndex ((BufferPool.pin_other other).trans (BufferPool.assign_other other))
  | @evicting i replacer unmapped full evicted =>
    obtain ⟨has, _⟩ := linked.distinct.evict_some evicted
    obtain ⟨inside, free⟩ := (linked.listed i).mp has
    obtain ⟨victim, index, at_⟩ := linked.resident i inside
    have mapping : (({ p.pool with replacer } : BufferPool).unassign i).fileToPoolIndex =
        Function.update p.pool.fileToPoolIndex victim none := by
      simp only [BufferPool.unassign, index]
    have gone : ∀ f, (({ p.pool with replacer } : BufferPool).unassign i).fileToPoolIndex f ≠ some i := by
      intro f found
      rw [mapping] at found
      by_cases mine : f = victim
      · rw [mine, Function.update_self] at found
        cases found
      · rw [Function.update_of_ne mine] at found
        exact mine (linked.mapped_inj found at_)
    have unmapped' : (({ p.pool with replacer } : BufferPool).unassign i).fileToPoolIndex fileIndex = none := by
      rw [mapping]
      by_cases mine : fileIndex = victim
      · rw [mine, Function.update_self]
      · rw [Function.update_of_ne mine, unmapped]
    have loaded := (shows_.evict linked at_ replacer).load adviseEviction gone unmapped'
      (congrArg PageMetadata.dirty BufferPool.unassign_same)
    refine ⟨?_, fun f j pinned found => ?_, fun j pinned => ?_⟩
    · unfold finishRetain
      cases write : p.pool.writeBackOf i with
      | none =>
        rw [write] at loaded
        exact loaded
      | some w =>
        rw [write] at loaded
        exact loaded
    · have other : j ≠ i := by
        rintro rfl
        exact Nat.ne_of_gt pinned free
      have notVictim : f ≠ victim := by
        rintro rfl
        exact other (Option.some.inj (found.symm.trans at_))
      have notNew : f ≠ fileIndex := by
        rintro rfl
        rw [unmapped] at found
        cases found
      have kept : Function.update (({ p.pool with replacer } : BufferPool).unassign i).fileToPoolIndex fileIndex (some i) f = some j := by
        rw [Function.update_of_ne notNew, mapping, Function.update_of_ne notVictim, found]
      unfold finishRetain
      cases p.pool.writeBackOf i <;> exact kept
    · have other : j ≠ i := by
        rintro rfl
        exact Nat.ne_of_gt pinned free
      have kept : ((((({ p.pool with replacer } : BufferPool).unassign i).assign i fileIndex adviseEviction).pin i
          adviseEviction).metadata j).fileIndex = (p.pool.metadata j).fileIndex := by
        rw [BufferPool.pin_other other, BufferPool.assign_other other, BufferPool.unassign_other other]
      unfold finishRetain
      cases p.pool.writeBackOf i <;> exact kept

theorem modify_shows (linked : p.pool.Linked pins) (shows_ : p.Shows content) {offset lsn : Nat} {bytes : List UInt8}
    (at_ : p.pool.fileToPoolIndex fileIndex = some i) :
    (p.modify i offset bytes lsn).Shows
      (Function.update content fileIndex (overwrite (content fileIndex) offset bytes.length bytes)) := by
  have written : ∀ o, o < pageSize → overwrite (p.pool.pages i) offset bytes.length bytes o =
      overwrite (content fileIndex) offset bytes.length bytes o := by
    intro o inside
    unfold overwrite
    split
    · rfl
    · exact shows_.resident fileIndex i at_ o inside
  refine ⟨fun f j found o inside => ?_, fun f clean o inside => ?_⟩
  · change Function.update p.pool.pages i _ j o = _
    by_cases mine : f = fileIndex
    · subst mine
      cases Option.some.inj (at_.symm.trans found)
      rw [Function.update_self, Function.update_self]
      exact written o inside
    · have other : j ≠ i := by
        rintro rfl
        exact mine (linked.mapped_inj found at_)
      rw [Function.update_of_ne other, Function.update_of_ne mine]
      exact shows_.resident f j found o inside
  · have dirty : ((p.modify i offset bytes lsn).pool.metadata i).dirty = true := by
      unfold modify BufferPool.modifiedBy
      exact congrArg PageMetadata.dirty BufferPool.update_same
    by_cases mine : f = fileIndex
    · subst mine
      rw [clean i at_] at dirty
      cases dirty
    · rw [Function.update_of_ne mine]
      refine shows_.clean f (fun j found => ?_) o inside
      have other : j ≠ i := by
        rintro rfl
        exact mine (linked.mapped_inj found at_)
      have still := clean j found
      unfold modify BufferPool.modifiedBy at still
      exact (congrArg PageMetadata.dirty (BufferPool.update_other other)).symm.trans still

theorem flushSlot_shows (linked : p.pool.Linked pins) (shows_ : p.Shows content) (i : Nat) : (p.flushSlot i).Shows content := by
  unfold flushSlot
  dsimp only
  split
  · rename_i victim dirty index
    obtain ⟨f', index', at_⟩ : ∃ f, (p.pool.metadata i).fileIndex = some f ∧ p.pool.fileToPoolIndex f = some i := by
      refine linked.resident i (Nat.not_le.mp fun above => ?_)
      rw [linked.unused i above] at index
      cases index
    cases Option.some.inj (index.symm.trans index')
    refine ⟨shows_.resident, fun f clean o inside => ?_⟩
    refine (writeBack_byte p _ inside).trans ?_
    split
    · rename_i mine
      subst mine
      exact shows_.resident _ i at_ o inside
    · rename_i mine
      refine shows_.clean f (fun j found => ?_) o inside
      have other : j ≠ i := by
        rintro rfl
        exact mine (linked.mapped_inj found at_)
      exact (congrArg PageMetadata.dirty (BufferPool.update_other other)).symm.trans (clean j found)
  · exact shows_

theorem flushAll_shows (linked : p.pool.Linked pins) (shows_ : p.Shows content) : p.flushAll.Shows content := by
  have each : ∀ n, (p.flushSlots n).pool.Linked pins ∧ (p.flushSlots n).Shows content := by
    intro n
    induction n with
    | zero => exact ⟨linked, shows_⟩
    | succ n ih => exact ⟨PageHandles.flushSlot_linked ih.1 n, flushSlot_shows ih.1 ih.2 n⟩
  exact (each _).2

theorem modify_fileIndex (p : PooledFile) (i offset lsn : Nat) (bytes : List UInt8) (j : Nat) :
    ((p.modify i offset bytes lsn).pool.metadata j).fileIndex = (p.pool.metadata j).fileIndex := by
  unfold modify BufferPool.modifiedBy
  by_cases mine : j = i
  · subst mine
    dsimp only
    rw [BufferPool.update_same]
  · exact congrArg PageMetadata.fileIndex (BufferPool.update_other mine)

theorem flushSlots_fileIndex (p : PooledFile) (n : Nat) : (p.flushSlots n).pool.fileToPoolIndex = p.pool.fileToPoolIndex ∧
    ∀ j, ((p.flushSlots n).pool.metadata j).fileIndex = (p.pool.metadata j).fileIndex := by
  have one : ∀ (q : PooledFile) i, (q.flushSlot i).pool.fileToPoolIndex = q.pool.fileToPoolIndex ∧
      ∀ j, ((q.flushSlot i).pool.metadata j).fileIndex = (q.pool.metadata j).fileIndex := by
    intro q i
    unfold flushSlot
    dsimp only
    split
    · refine ⟨rfl, fun j => ?_⟩
      by_cases mine : j = i
      · subst mine
        rw [BufferPool.update_same]
      · exact congrArg PageMetadata.fileIndex (BufferPool.update_other mine)
    · exact ⟨rfl, fun _ => rfl⟩
  induction n with
  | zero => exact ⟨rfl, fun _ => rfl⟩
  | succ n ih => exact ⟨(one _ n).1.trans ih.1, fun j => ((one _ n).2 j).trans (ih.2 j)⟩

end PooledFile

namespace PageHandles

variable {s s' : PageHandles}

/-- What holds between the operations: the pool shows the latest content, and every live handle has
the slot of its page. -/
structure Current (s : PageHandles) : Prop where
  pinned : s.Pinned
  content : s.pooled.Shows s.latest
  handles : ∀ h i, some h ∈ s.objects → h.poolIndex = some i → s.pooled.pool.fileToPoolIndex h.fileIndex = some i

theorem mem_objects {k : Nat} {h : PageHandle} (alive : s.object k = some h) : some h ∈ s.objects :=
  List.mem_of_getElem? (object_eq.mp alive)

theorem Current.step {op : PageHandleOp} (current : s.Current) (admitted : s.AssignsToEmpty op) (run : s.step op = some s') :
    s'.Current ∧ s.pooled.pool.KeepsPinned s.handlesTo s'.pooled.pool := by
  have pinned' := current.pinned.step admitted run
  have unmoved : ∀ {p : PooledFile}, p.pool.fileToPoolIndex = s.pooled.pool.fileToPoolIndex →
      (∀ j, (p.pool.metadata j).fileIndex = (s.pooled.pool.metadata j).fileIndex) →
      s.pooled.pool.KeepsPinned s.handlesTo p.pool := fun mapping index =>
    ⟨fun f j _ found => by rw [mapping]; exact found, fun j _ => index j⟩
  cases op with
  | getPage fileIndex adviseEviction =>
    simp only [PageHandles.step] at run
    split at run
    · cases Option.some.inj run
      exact ⟨current, unmoved rfl fun _ => rfl⟩
    · rename_i i pooled retained
      cases Option.some.inj run
      obtain ⟨content, keeps⟩ := PooledFile.retain_shows current.pinned current.content retained
      refine ⟨⟨pinned', content, fun h j member refers => ?_⟩, keeps⟩
      rcases List.mem_append.mp member with old | new
      · obtain ⟨k, at_⟩ := List.mem_iff_getElem?.mp old
        exact keeps.mapped _ _ (current.pinned.resident (object_eq.mpr at_) refers).1 (current.handles h j old refers)
      · cases List.mem_singleton.mp new
        cases Option.some.inj refers
        exact (retain_linked current.pinned retained).2
  | moveConstruct source =>
    simp only [PageHandles.step, Option.map_eq_some_iff] at run
    obtain ⟨h, alive, rfl⟩ := run
    refine ⟨⟨pinned', current.content, fun h' j member refers => ?_⟩, unmoved rfl fun _ => rfl⟩
    rcases List.mem_append.mp member with set | new
    · rcases List.mem_or_eq_of_mem_set set with old | moved
      · exact current.handles h' j old refers
      · cases moved
        cases refers
    · cases List.mem_singleton.mp new
      exact current.handles h j (mem_objects alive) refers
  | moveAssign target source =>
    simp only [PageHandles.step] at run
    split at run
    · rename_i old h alive aliveSource
      split at run
      · cases Option.some.inj run
        exact ⟨current, unmoved rfl fun _ => rfl⟩
      · cases Option.some.inj run
        refine ⟨⟨pinned', current.content, fun h' j member refers => ?_⟩, unmoved rfl fun _ => rfl⟩
        rcases List.mem_or_eq_of_mem_set member with set | moved
        · rcases List.mem_or_eq_of_mem_set set with before | assigned
          · exact current.handles h' j before refers
          · cases assigned
            exact current.handles h j (mem_objects aliveSource) refers
        · cases moved
          cases refers
    · cases run
  | destroy k =>
    simp only [PageHandles.step] at run
    split at run
    · rename_i i fileIndex alive
      simp only [Option.map_eq_some_iff] at run
      obtain ⟨pool, released, rfl⟩ := run
      obtain ⟨positive, _⟩ := current.pinned.resident alive rfl
      obtain ⟨_, released', _, pages, _, mapping, same⟩ := current.pinned.release positive
      cases released.symm.trans released'
      refine ⟨⟨pinned', ⟨fun f j found => ?_, fun f clean => ?_⟩, fun h j member refers => ?_⟩, unmoved mapping fun j => (same j).1⟩
      · simp only [pages, mapping] at found ⊢
        exact current.content.resident f j found
      · refine current.content.clean f fun j found => ?_
        rw [← (same j).2]
        exact clean j (by rw [mapping]; exact found)
      · rcases List.mem_or_eq_of_mem_set member with old | gone
        · exact (congrFun mapping _).trans (current.handles h j old refers)
        · cases gone
    · cases Option.some.inj run
      refine ⟨⟨pinned', current.content, fun h j member refers => ?_⟩, unmoved rfl fun _ => rfl⟩
      rcases List.mem_or_eq_of_mem_set member with old | gone
      · exact current.handles h j old refers
      · cases gone
    · cases run
  | write k offset bytes lsn =>
    simp only [PageHandles.step] at run
    split at run
    · rename_i i fileIndex alive
      split at run
      · cases Option.some.inj run
        have at_ : s.pooled.pool.fileToPoolIndex fileIndex = some i := current.handles _ i (mem_objects alive) rfl
        refine ⟨⟨pinned', PooledFile.modify_shows current.pinned current.content at_, current.handles⟩, unmoved rfl fun j => ?_⟩
        exact PooledFile.modify_fileIndex s.pooled i offset lsn bytes j
      · cases run
    · cases run
  | flushAll =>
    cases Option.some.inj run
    obtain ⟨mapping, index⟩ := s.pooled.flushSlots_fileIndex s.pooled.pool.poolSize
    refine ⟨⟨pinned', PooledFile.flushAll_shows current.pinned current.content, fun h j member refers => ?_⟩, unmoved mapping index⟩
    exact (congrFun mapping _).trans (current.handles h j member refers)

theorem start_current (poolSize : Nat) (file : Mem) : (start poolSize file).Current where
  pinned := start_pinned poolSize file
  content := ⟨fun f i found => (by cases found), fun f _ o _ => rfl⟩
  handles h i member := by cases member

/-- Whatever is loaded, evicted and flushed: handles show the latest content of their pages, pinned
slots keep their pages, and only a pool full of pinned slots refuses a page. -/
theorem handles_show_latest {poolSize : Nat} {file : Mem} (reach : Reaches step AssignsToEmpty (start poolSize file) s) :
    (∀ k h i, s.object k = some h → h.poolIndex = some i → ∀ o, o < pageSize →
      s.pooled.pool.pages i o = s.latest h.fileIndex o) ∧
    (∀ op s', s.AssignsToEmpty op → s.step op = some s' →
      s.pooled.pool.KeepsPinned (fun i => (s.pooled.pool.metadata i).refcount) s'.pooled.pool) ∧
    ∀ fileIndex adviseEviction, (s.pooled.retain fileIndex adviseEviction = none ↔
      s.pooled.pool.fileToPoolIndex fileIndex = none ∧
        ∀ i, i < s.pooled.pool.poolSize → 0 < (s.pooled.pool.metadata i).refcount) ∧
      (s.pooled.retain fileIndex adviseEviction = none → s.step (.getPage fileIndex adviseEviction) = some s) := by
  have current : s.Current := reach.invariant (start_current poolSize file)
    fun _ _ _ current admitted run => (current.step admitted run).1
  have counts : (fun i => (s.pooled.pool.metadata i).refcount) = s.handlesTo := funext current.pinned.refcount
  refine ⟨fun k h i alive refers => ?_, fun op s' admitted run => ?_, fun fileIndex adviseEviction => ⟨?_, fun full => ?_⟩⟩
  · exact current.content.resident _ i (current.handles h i (mem_objects alive) refers)
  · rw [counts]
    exact (current.step admitted run).2
  · have throws : s.pooled.pool.reserve fileIndex adviseEviction = none ↔ _ := current.pinned.reserve_eq_none
    simp only [current.pinned.refcount, ← throws]
    unfold PooledFile.retain
    split <;> simp_all
  · simp only [PageHandles.step, full]

/-- A pool of one slot: the page that has been written to is evicted, and read again later. -/
def evictingRun : List PageHandleOp :=
  [.getPage 6 false, .write 0 10 [1, 2] 4, .getPage 8 false, .destroy 0, .getPage 8 true, .destroy 1, .flushAll, .getPage 6 false]

theorem handles_show_latest_evicting :
    (∀ k h i, (afterRun 1 evictingRun).object k = some h → h.poolIndex = some i → ∀ o, o < pageSize →
      (afterRun 1 evictingRun).pooled.pool.pages i o = (afterRun 1 evictingRun).latest h.fileIndex o) ∧
    (∀ op s', (afterRun 1 evictingRun).AssignsToEmpty op → (afterRun 1 evictingRun).step op = some s' →
      (afterRun 1 evictingRun).pooled.pool.KeepsPinned
        (fun i => ((afterRun 1 evictingRun).pooled.pool.metadata i).refcount) s'.pooled.pool) ∧
    ∀ fileIndex adviseEviction, ((afterRun 1 evictingRun).pooled.retain fileIndex adviseEviction = none ↔
      (afterRun 1 evictingRun).pooled.pool.fileToPoolIndex fileIndex = none ∧
        ∀ i, i < (afterRun 1 evictingRun).pooled.pool.poolSize → 0 < ((afterRun 1 evictingRun).pooled.pool.metadata i).refcount) ∧
      ((afterRun 1 evictingRun).pooled.retain fileIndex adviseEviction = none →
        (afterRun 1 evictingRun).step (.getPage fileIndex adviseEviction) = some (afterRun 1 evictingRun)) :=
  handles_show_latest (.of_isSome (by decide +kernel))

end PageHandles

end DiskMap
