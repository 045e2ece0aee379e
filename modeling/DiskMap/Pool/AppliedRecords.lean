import DiskMap.Pool.LatestContent
import DiskMap.Pool.WriteAhead
import DiskMap.Wal.Replay

namespace DiskMap
open ByteMemory Database GuardedRun

theorem getElem?_snoc {α : Type} {l : List α} {a b : α} {k : Nat} (found : (l ++ [a])[k]? = some b) :
    l[k]? = some b ∨ k = l.length ∧ b = a := by
  by_cases old : k < l.length
  · rw [List.getElem?_append_left old] at found
    exact Or.inl found
  · have bound := (List.getElem?_eq_some_iff.mp found).1
    rw [List.length_append, List.length_singleton] at bound
    have newest : k = l.length := by omega
    rw [newest, List.getElem?_concat_length] at found
    exact Or.inr ⟨newest, (Option.some.inj found).symm⟩

/-- The bytes of each page. -/
def contentOf (pages : Mem) (page : Nat) : Mem := fun offset => pages (page * pageSize + offset)

namespace WAL

/-- From index `n` on, a record has no smaller LSN than those before it. -/
def InOrder (w : WAL) (n : Nat) : Prop :=
  ∀ (i k : Nat) r r', i ≤ k → n ≤ k → w.records[i]? = some r → w.records[k]? = some r' → r.lsn ≤ r'.lsn

/-- A flush up to the LSN of a record reaches the record. -/
theorem flushUpTo_reaches {w : WAL} {n k lsn : Nat} {r : InMemoryWALRecord} (order : w.InOrder n) (late : n ≤ k)
    (at_ : w.records[k]? = some r) (within : r.lsn ≤ lsn) : k < (w.flushUpTo lsn).unflushedRecordIndex := by
  have inside := (List.getElem?_eq_some_iff.mp at_).1
  unfold flushUpTo
  by_cases flushed : k < w.unflushedRecordIndex
  · split
    · split
      · exact inside
      · exact flushed
    · exact flushed
  · have before : w.unflushedRecordIndex < w.records.length := by omega
    have oldest := List.getElem?_eq_getElem before
    have due := (order _ k _ r (Nat.not_lt.mp flushed) late oldest at_).trans within
    rw [oldest]
    dsimp only
    rw [if_pos due]
    exact inside

theorem getPage_reaches {w : WAL} {k : Nat} (flushed : k < w.unflushedRecordIndex) (bound : w.unflushedRecordIndex ≤ w.records.length)
    (lsn : Nat) : k < (w.flushUpTo lsn).unflushedRecordIndex := by
  unfold flushUpTo
  split
  · split
    · exact flushed.trans_le bound
    · exact flushed
  · exact flushed

end WAL

namespace PagedWal

def pooled (s : PagedWal) : PooledFile := ⟨s.pool, s.file⟩

/-- A dirty page of `BufferPool::flush_all`. -/
def flushSlot (s : PagedWal) (poolIndex : Nat) : PagedWal :=
  match s.pool.writeBackOf poolIndex with
  | none => s
  | some w =>
    { s with
      file := overwrite s.file (w.fileIndex * pageSize) pageSize (slice (s.pool.pages poolIndex) 0 pageSize)
      fileEffects := Function.update s.fileEffects w.fileIndex (s.effects poolIndex)
      pool := s.pool.update poolIndex { s.pool.metadata poolIndex with dirty := false } }

def flushSlots (s : PagedWal) : Nat → PagedWal
  | 0 => s
  | poolIndex + 1 => (s.flushSlots poolIndex).flushSlot poolIndex

def flushAll (s : PagedWal) : PagedWal := s.flushSlots s.pool.poolSize

/-- `checkpoint_internal` behind its wait. -/
def checkpoint (s : PagedWal) : PagedWal :=
  let s := s.flushAll
  { s with wal := { s.wal with log := [], logPos := 0, checkpointPending := false } }

variable {s s' : PagedWal} {pins : Nat → Nat} {durable : Mem} {n i page : Nat} {applied : List InMemoryWALRecord}

/-- The image of a page in the data file is as the first `j` records have left it, and those that touch the page are in the
log file. -/
structure ImageAt (durable : Mem) (n : Nat) (applied : List InMemoryWALRecord) (s : PagedWal) (page j : Nat) : Prop where
  lower : n ≤ j
  upper : j ≤ applied.length
  bytes : ∀ o, o < pageSize → s.file (page * pageSize + o) = redo ((applied.take j).drop n) durable (page * pageSize + o)
  logged : ∀ (k : Nat) r o, applied[k]? = some r → n ≤ k → k < j → o < pageSize → r.newByte (page * pageSize + o) ≠ none →
    k < s.wal.unflushedRecordIndex

/-- The record is in the log file, or the page in the pool has its LSN. -/
def Due (s : PagedWal) (k lsn page : Nat) : Prop :=
  k < s.wal.unflushedRecordIndex ∨ ∃ i, s.pool.fileToPoolIndex page = some i ∧ (s.pool.metadata i).dirty = true ∧
    lsn ≤ (s.pool.metadata i).pageLsn

/-- The pool and the two files after some records have been applied, `n` of them before the last checkpoint, which has left
the data file as `durable`. -/
structure Applied (durable : Mem) (n : Nat) (applied : List InMemoryWALRecord) (pins : Nat → Nat) (s : PagedWal) : Prop where
  linked : s.pool.Linked pins
  content : s.pooled.Shows (contentOf (redo (applied.drop n) durable))
  image : ∀ page, ∃ j, ImageAt durable n applied s page j
  due : ∀ (k : Nat) r page o, applied[k]? = some r → n ≤ k → o < pageSize → r.newByte (page * pageSize + o) ≠ none → s.Due k r.lsn page
  count : n ≤ applied.length

theorem prefix_getElem? {records : List InMemoryWALRecord} (front : applied <+: records) {k : Nat} {r : InMemoryWALRecord}
    (at_ : applied[k]? = some r) : records[k]? = some r := by
  obtain ⟨rest, rfl⟩ := front
  rw [List.getElem?_append_left (List.getElem?_eq_some_iff.mp at_).1, at_]

theorem pooled_finishRetain (s : PagedWal) (r : Retained) (fileIndex : Nat) :
    (s.finishRetain r fileIndex).pooled = s.pooled.finishRetain r fileIndex := by
  unfold finishRetain PooledFile.finishRetain
  cases r.writeBack <;> cases r.needsRead <;> rfl

theorem retain_pooled {fileIndex : Nat} {adviseEviction : Bool} (retained : s.retain fileIndex adviseEviction = (some i, s')) :
    s.pooled.retain fileIndex adviseEviction = some (i, s'.pooled) := by
  unfold PagedWal.retain at retained
  cases reserved : s.pool.reserve fileIndex adviseEviction with
  | none =>
    rw [reserved] at retained
    cases retained
  | some found =>
    rw [reserved] at retained
    cases retained
    have same : s.pooled.pool.reserve fileIndex adviseEviction = some found := reserved
    unfold PooledFile.retain
    rw [same]
    exact congrArg (fun p => some (found.1.poolIndex, p)) (pooled_finishRetain { s with pool := found.2 } found.1 fileIndex).symm

/-- What `retain` leaves in the metadata of the slots. -/
theorem reserve_pageLsn {p p' : BufferPool} {r : Retained} {fileIndex : Nat} {adviseEviction : Bool}
    (reserving : BufferPool.Reserving p fileIndex adviseEviction r p') :
    (r.needsRead = false → ∀ j, (p'.metadata j).pageLsn = (p.metadata j).pageLsn) ∧
      ∀ w, r.writeBack = some w → w.pageLsn = (p.metadata r.poolIndex).pageLsn := by
  cases reserving with
  | @hit i at_ =>
    refine ⟨fun _ j => ?_, fun w impossible => by cases impossible⟩
    rw [BufferPool.pin_metadata]
    split
    · rename_i mine
      rw [mine]
    · rfl
  | unused => exact ⟨fun impossible => (by cases impossible), fun w impossible => (by cases impossible)⟩
  | evicting =>
    refine ⟨fun impossible => (by cases impossible), fun w found => ?_⟩
    obtain ⟨slot, _, lsn⟩ := BufferPool.writeBackOf_eq_some found
    rw [lsn, slot]

/-- A page that stays in the pool keeps its LSN, and the log file only grows. -/
theorem Due.kept {k lsn : Nat} (due : s.Due k lsn page)
    (flushed : k < s.wal.unflushedRecordIndex → k < s'.wal.unflushedRecordIndex)
    (resident : ∀ i, s.pool.fileToPoolIndex page = some i → s'.pool.fileToPoolIndex page = some i ∧
      (s'.pool.metadata i).dirty = (s.pool.metadata i).dirty ∧ (s'.pool.metadata i).pageLsn = (s.pool.metadata i).pageLsn) :
    s'.Due k lsn page := by
  rcases due with reached | ⟨i, at_, dirty, within⟩
  · exact Or.inl (flushed reached)
  · obtain ⟨still, sameDirty, sameLsn⟩ := resident i at_
    exact Or.inr ⟨i, still, sameDirty.trans dirty, within.trans_eq sameLsn.symm⟩

/-- A page whose slot is not assigned anew. -/
theorem Due.stays {k lsn j : Nat} {r : Retained} {fileIndex : Nat} {pool : BufferPool}
    (assigned : BufferPool.Assigned pins s.pool fileIndex r pool) (mapping : s'.pool.fileToPoolIndex = pool.fileToPoolIndex)
    (metadata : s'.pool.metadata = pool.metadata) (elsewhere : j ≠ r.poolIndex) (found : s.pool.fileToPoolIndex page = some j) (dirty : (s.pool.metadata j).dirty = true)
    (within : lsn ≤ (s.pool.metadata j).pageLsn) : s'.Due k lsn page := by
  have same : s'.pool.metadata j = s.pool.metadata j := (congrFun metadata j).trans (assigned.others j elsewhere)
  refine Or.inr ⟨j, ?_, ?_, ?_⟩
  · rw [mapping]
    exact (assigned.mapped page j).mpr (Or.inr ⟨found, elsewhere⟩)
  · rw [same]
    exact dirty
  · rw [same]
    exact within

theorem ImageAt.kept {j : Nat} (image : ImageAt durable n applied s page j)
    (file : ∀ o, o < pageSize → s'.file (page * pageSize + o) = s.file (page * pageSize + o))
    (flushed : ∀ k, k < s.wal.unflushedRecordIndex → k < s'.wal.unflushedRecordIndex) : ImageAt durable n applied s' page j where
  lower := image.lower
  upper := image.upper
  bytes o inside := (file o inside).trans (image.bytes o inside)
  logged k r o at_ late before inside touches := flushed k (image.logged k r o at_ late before inside touches)

/-- `retain` may write back a page, after its records, and shows what it has shown. -/
theorem Applied.retain (inv : Applied durable n applied pins s) (front : applied <+: s.wal.records) (order : s.wal.InOrder n)
    (bound : s.wal.unflushedRecordIndex ≤ s.wal.records.length) {fileIndex : Nat} {adviseEviction : Bool}
    (retained : s.retain fileIndex adviseEviction = (some i, s')) :
    ∃ evicted, s'.wal = s.wal.getPage evicted ∧ (∀ i', s.pool.fileToPoolIndex fileIndex = some i' → evicted = none ∧ i' = i) ∧
      Applied durable n applied (Function.update pins i (pins i + 1)) s' ∧ s'.pool.fileToPoolIndex fileIndex = some i := by
  have pooled := retain_pooled retained
  obtain ⟨linked', mapped⟩ := PageHandles.retain_linked inv.linked pooled
  obtain ⟨content', _⟩ := PooledFile.retain_shows inv.linked inv.content pooled
  unfold PagedWal.retain at retained
  split at retained
  · cases retained
  rename_i r pool reserved
  cases retained
  have reserving := BufferPool.reserve_cases reserved
  obtain ⟨keptLsn, writtenLsn⟩ := reserve_pageLsn reserving
  obtain ⟨pages, ⟨quiet, hit⟩ | ⟨reads, assigned⟩⟩ := inv.linked.reserve_effect reserving
  · have same : finishRetain { s with pool } r fileIndex = { s with pool } := by
      simp only [finishRetain, hit.writeBack, quiet, Bool.false_eq_true, if_false]
    rw [same] at linked' content' mapped ⊢
    refine ⟨none, rfl, fun i' at_ => ⟨rfl, Option.some.inj (at_.symm.trans hit.mapped)⟩, ⟨linked', content', ?_, ?_, inv.count⟩, mapped⟩
    · exact fun page => (inv.image page).imp fun j image => image.kept (fun _ _ => rfl) fun _ => id
    · intro k r' page o at_ late inside touches
      refine (inv.due k r' page o at_ late inside touches).kept id fun j found => ⟨?_, (hit.same j).2, keptLsn quiet j⟩
      exact (congrFun hit.mapping page).trans found
  · have other : ∀ i', s.pool.fileToPoolIndex fileIndex = some i' → False := fun i' found => by
      rw [assigned.unmapped] at found
      cases found
    cases write : r.writeBack with
    | none =>
      have same : finishRetain { s with pool } r fileIndex = readPage { s with pool } r.poolIndex fileIndex := by
        simp only [finishRetain, write, reads, if_true]
      rw [same] at linked' content' mapped ⊢
      refine ⟨none, rfl, fun i' at_ => (other i' at_).elim, ⟨linked', content', ?_, ?_, inv.count⟩, mapped⟩
      · exact fun page => (inv.image page).imp fun j image => image.kept (fun _ _ => rfl) fun _ => id
      · intro k r' page o at_ late inside touches
        rcases inv.due k r' page o at_ late inside touches with reached | ⟨j, found, dirty, within⟩
        · exact Or.inl reached
        · have elsewhere : j ≠ r.poolIndex := by
            rintro rfl
            obtain ⟨w, some_, _⟩ := assigned.evicted page found dirty
            rw [write] at some_
            cases some_
          exact .stays assigned rfl rfl elsewhere found dirty within
    | some w =>
      have same : finishRetain { s with pool } r fileIndex = readPage (writeBack { s with pool } w) r.poolIndex fileIndex := by
        simp only [finishRetain, write, reads, if_true]
      rw [same] at linked' content' mapped ⊢
      obtain ⟨slot, victim⟩ := assigned.written w write
      have later : ∀ k, k < s.wal.unflushedRecordIndex → k < (s.wal.flushUpTo w.pageLsn).unflushedRecordIndex :=
        fun k reached => WAL.getPage_reaches reached bound w.pageLsn
      -- whatever touches the page that leaves the pool is in the log file now
      have covered : ∀ (k : Nat) r' o, applied[k]? = some r' → n ≤ k → o < pageSize → r'.newByte (w.fileIndex * pageSize + o) ≠ none →
          k < (s.wal.flushUpTo w.pageLsn).unflushedRecordIndex := by
        intro k r' o at_ late inside touches
        rcases inv.due k r' w.fileIndex o at_ late inside touches with reached | ⟨j, found, _, within⟩
        · exact later k reached
        · cases Option.some.inj (found.symm.trans victim)
          refine WAL.flushUpTo_reaches order late (prefix_getElem? front at_) ?_
          exact within.trans_eq (writtenLsn w write).symm
      have file : ∀ page o, o < pageSize → (readPage (writeBack { s with pool } w) r.poolIndex fileIndex).file (page * pageSize + o) =
          if page = w.fileIndex then s.pool.pages r.poolIndex o else s.file (page * pageSize + o) := by
        intro page o inside
        have written := PooledFile.writeBack_byte (⟨pool, s.file⟩ : PooledFile) w (f := page) inside
        rw [slot, show pool.pages r.poolIndex o = s.pool.pages r.poolIndex o by rw [pages]] at written
        exact written
      refine ⟨some w.pageLsn, rfl, fun i' at_ => (other i' at_).elim, ⟨linked', content', fun page => ?_, ?_, inv.count⟩, mapped⟩
      · by_cases mine : page = w.fileIndex
        · subst mine
          refine ⟨applied.length, inv.count, le_rfl, fun o inside => ?_, fun k r' o at_ late _ inside touches => covered k r' o at_ late inside touches⟩
          rw [file _ o inside, if_pos rfl, List.take_length]
          exact inv.content.resident _ _ victim o inside
        · obtain ⟨j, image⟩ := inv.image page
          exact ⟨j, image.kept (fun o inside => (file page o inside).trans (if_neg mine)) later⟩
      · intro k r' page o at_ late inside touches
        rcases inv.due k r' page o at_ late inside touches with reached | ⟨j, found, dirty, within⟩
        · exact Or.inl (later k reached)
        · by_cases here : j = r.poolIndex
          · subst here
            have mine : page = w.fileIndex := inv.linked.mapped_inj found victim
            rw [mine] at touches
            exact Or.inl (covered k r' o at_ late inside touches)
          · exact .stays assigned rfl rfl here found dirty within

theorem release_pageLsn {p p' : BufferPool} (released : p.release i = some p') (j : Nat) :
    (p'.metadata j).pageLsn = (p.metadata j).pageLsn := by
  have same : ∀ m : PageMetadata, m.pageLsn = (p.metadata i).pageLsn → ((p.update i m).metadata j).pageLsn = (p.metadata j).pageLsn := by
    intro m kept
    by_cases mine : j = i
    · subst mine
      rw [BufferPool.update_same, kept]
    · rw [BufferPool.update_other mine]
  unfold BufferPool.release at released
  dsimp only at released
  split at released
  · cases released
  · split at released
    · cases Option.some.inj released
      exact same _ rfl
    · cases Option.some.inj released
      exact same _ rfl

theorem Applied.release (inv : Applied durable n applied pins s) (pinned : 0 < pins i) :
    Applied durable n applied (Function.update pins i (pins i - 1)) (s.release i) ∧ (s.release i).wal = s.wal ∧
      (s.release i).pool.poolSize = s.pool.poolSize ∧ (s.release i).pool.fileToPoolIndex = s.pool.fileToPoolIndex := by
  obtain ⟨pool, released, linked, pages, size, mapping, same⟩ := inv.linked.release pinned
  have lsn := release_pageLsn released
  have is : s.release i = { s with pool } := by
    unfold PagedWal.release
    rw [released]
  rw [is]
  refine ⟨⟨linked, ⟨fun f j found o inside => ?_, fun f clean => inv.content.clean f fun j found => ?_⟩, ?_, ?_, inv.count⟩, rfl, size, mapping⟩
  · change pool.pages j o = _
    rw [pages]
    exact inv.content.resident f j ((congrFun mapping f).symm.trans found) o inside
  · exact (same j).2.symm.trans (clean j ((congrFun mapping f).trans found))
  · exact fun page => (inv.image page).imp fun _ image => image.kept (fun _ _ => rfl) fun _ => id
  · intro k r page o at_ late inside touches
    exact (inv.due k r page o at_ late inside touches).kept id fun j found =>
      ⟨(congrFun mapping page).trans found, (same j).2, lsn j⟩

/-- A shorter buffer has zeros behind it. -/
theorem overwrite_filled (m : Mem) (a length : Nat) (bytes : List UInt8) :
    overwrite m a length bytes = overwrite m a (slice (fun x => bytes.getD x 0) 0 length).length (slice (fun x => bytes.getD x 0) 0 length) := by
  funext x
  rw [slice_length]
  by_cases inside : a ≤ x ∧ x < a + length
  · rw [overwrite_inside inside.1 inside.2, overwrite_inside inside.1 inside.2, slice_getD _ _ (by omega), Nat.zero_add]
  · rw [overwrite_outside (by omega), overwrite_outside (by omega)]

/-- The page that a byte of a range inside one page is in. -/
theorem page_of_range {loc length page o : Nat} (inside : loc % pageSize + length ≤ pageSize) (within : o < pageSize)
    (lower : loc ≤ page * pageSize + o) (upper : page * pageSize + o < loc + length) : page = loc / pageSize := by
  have split_ := Nat.div_add_mod' loc pageSize
  rcases Nat.lt_trichotomy page (loc / pageSize) with below | same | above
  · have bound := Nat.mul_le_mul_right pageSize (Nat.succ_le_of_lt below)
    rw [Nat.succ_mul] at bound
    omega
  · exact same
  · have bound := Nat.mul_le_mul_right pageSize (Nat.succ_le_of_lt above)
    rw [Nat.succ_mul] at bound
    omega

/-- A range inside one page, as the page has it. -/
theorem contentOf_overwrite (pages : Mem) {loc length : Nat} (inside : loc % pageSize + length ≤ pageSize) (bytes : List UInt8) {f o : Nat}
    (within : o < pageSize) : contentOf (overwrite pages loc length bytes) f o =
      Function.update (contentOf pages) (loc / pageSize) (overwrite (contentOf pages (loc / pageSize)) (loc % pageSize) length bytes) f o := by
  have split_ := Nat.div_add_mod' loc pageSize
  by_cases mine : f = loc / pageSize
  · subst mine
    rw [Function.update_self, contentOf]
    by_cases range : loc % pageSize ≤ o ∧ o < loc % pageSize + length
    · rw [overwrite_inside (by omega) (by omega), overwrite_inside range.1 range.2]
      congr 1
      omega
    · rw [overwrite_outside (by omega), overwrite_outside (by omega)]
      rfl
  · rw [Function.update_of_ne mine]
    refine overwrite_outside ?_
    by_contra hits
    exact mine (page_of_range inside within (by omega) (by omega))

theorem applyTo_effectOf {r : InMemoryWALRecord} {loc length : Nat} {bytes : List UInt8} (is : effectOf r = some (loc, length, bytes))
    (pages : Mem) : r.applyTo pages = overwrite pages loc length bytes := by
  unfold effectOf at is
  unfold InMemoryWALRecord.applyTo
  cases body : r.body with
  | clr c =>
    simp only [body, Option.some.injEq, Prod.mk.injEq] at is ⊢
    obtain ⟨rfl, rfl, rfl⟩ := is
    rfl
  | set header =>
    simp only [body, Option.some.injEq, Prod.mk.injEq] at is ⊢
    obtain ⟨rfl, rfl, rfl⟩ := is
    rfl
  | _ => simp [body] at is

theorem newByte_effectOf {r : InMemoryWALRecord} {loc length : Nat} {bytes : List UInt8} (is : effectOf r = some (loc, length, bytes))
    {a : Nat} (touches : r.newByte a ≠ none) : loc ≤ a ∧ a < loc + length := by
  unfold effectOf at is
  unfold InMemoryWALRecord.newByte at touches
  by_contra outside
  cases body : r.body with
  | clr c =>
    simp only [body, Option.some.injEq, Prod.mk.injEq] at is touches
    obtain ⟨rfl, rfl, rfl⟩ := is
    exact touches (if_neg outside)
  | set header =>
    simp only [body, Option.some.injEq, Prod.mk.injEq] at is touches
    obtain ⟨rfl, rfl, rfl⟩ := is
    exact touches (if_neg outside)
  | _ => simp [body] at is

/-- The record is applied to the page in its slot. -/
theorem Applied.modify (inv : Applied durable n applied pins s) {r : InMemoryWALRecord} {loc length : Nat} {bytes : List UInt8}
    (is : effectOf r = some (loc, length, bytes)) (inside : loc % pageSize + length ≤ pageSize)
    (at_ : s.pool.fileToPoolIndex (loc / pageSize) = some i) :
    Applied durable n (applied ++ [r]) pins (s.modify i r (loc % pageSize) length bytes) := by
  have pooled : (s.modify i r (loc % pageSize) length bytes).pooled =
      s.pooled.modify i (loc % pageSize) (slice (fun x => bytes.getD x 0) 0 length) r.lsn := by
    unfold PagedWal.modify PooledFile.modify pooled
    dsimp only
    rw [← overwrite_filled]
  have linked : (s.modify i r (loc % pageSize) length bytes).pooled.pool.Linked pins := by
    rw [pooled]
    exact PageHandles.modify_linked inv.linked (inv.linked.mapped _ i at_).1
  have metadata : ∀ j, ((s.modify i r (loc % pageSize) length bytes).pool.metadata j) =
      if j = i then { s.pool.metadata i with dirty := true, pageLsn := max r.lsn (s.pool.metadata i).pageLsn } else s.pool.metadata j := by
    intro j
    unfold PagedWal.modify BufferPool.modifiedBy
    dsimp only
    split
    · rename_i mine
      rw [mine, BufferPool.update_same]
    · rename_i other
      exact BufferPool.update_other other
  refine ⟨linked, ?_, fun page => ?_, fun k r' page o found late within touches => ?_, inv.count.trans (by simp)⟩
  · have shows_ : PooledFile.Shows _ (s.pooled.modify i (loc % pageSize) (slice (fun x => bytes.getD x 0) 0 length) r.lsn) :=
      PooledFile.modify_shows inv.linked inv.content at_
    rw [← pooled, ← overwrite_filled] at shows_
    have same : ∀ f o, o < pageSize → contentOf (redo ((applied ++ [r]).drop n) durable) f o =
        Function.update (contentOf (redo (applied.drop n) durable)) (loc / pageSize)
          (overwrite (contentOf (redo (applied.drop n) durable) (loc / pageSize)) (loc % pageSize) length bytes) f o := by
      intro f o within
      rw [List.drop_append_of_le_length inv.count, redo_append]
      change contentOf (r.applyTo _) f o = _
      rw [applyTo_effectOf is, contentOf_overwrite _ inside _ within]
    exact ⟨fun f j found o within => (shows_.resident f j found o within).trans (same f o within).symm,
      fun f clean o within => (shows_.clean f clean o within).trans (same f o within).symm⟩
  · obtain ⟨j, image⟩ := inv.image page
    refine ⟨j, image.lower, image.upper.trans (by simp), fun o within => ?_, fun k r' o found late before within touches => ?_⟩
    · rw [List.take_append_of_le_length image.upper]
      exact image.bytes o within
    · rw [List.getElem?_append_left (before.trans_le image.upper)] at found
      exact image.logged k r' o found late before within touches
  · rcases getElem?_snoc found with old | ⟨_, rfl⟩
    · rcases inv.due k r' page o old late within touches with reached | ⟨j, mapped, dirty, lsn⟩
      · exact Or.inl reached
      · refine Or.inr ⟨j, mapped, ?_, ?_⟩
        · rw [metadata]
          split
          · rfl
          · exact dirty
        · rw [metadata]
          split
          · rename_i mine
            rw [mine] at lsn
            exact lsn.trans (le_max_right _ _)
          · exact lsn
    · obtain ⟨lower, upper⟩ := newByte_effectOf is touches
      refine Or.inr ⟨i, ?_, ?_, ?_⟩
      · rw [page_of_range inside within lower upper]
        exact at_
      · rw [metadata, if_pos rfl]
      · rw [metadata, if_pos rfl]
        exact le_max_left _ _

theorem applyTo_none {r : InMemoryWALRecord} (none_ : effectOf r = none) (pages : Mem) : r.applyTo pages = pages := by
  unfold effectOf at none_
  unfold InMemoryWALRecord.applyTo
  cases body : r.body <;> simp_all

theorem newByte_none {r : InMemoryWALRecord} (none_ : effectOf r = none) (a : Nat) : r.newByte a = none := by
  unfold effectOf at none_
  unfold InMemoryWALRecord.newByte
  cases body : r.body <;> simp_all

/-- A record that touches no byte. -/
theorem Applied.mark (inv : Applied durable n applied pins s) {r : InMemoryWALRecord} (none_ : effectOf r = none) :
    Applied durable n (applied ++ [r]) pins s := by
  refine ⟨inv.linked, ?_, fun page => ?_, fun k r' page o found late within touches => ?_, inv.count.trans (by simp)⟩
  · rw [List.drop_append_of_le_length inv.count, redo_append]
    change s.pooled.Shows (contentOf (r.applyTo _))
    rw [applyTo_none none_]
    exact inv.content
  · obtain ⟨j, image⟩ := inv.image page
    refine ⟨j, image.lower, image.upper.trans (by simp), fun o within => ?_, fun k r' o found late before within touches => ?_⟩
    · rw [List.take_append_of_le_length image.upper]
      exact image.bytes o within
    · rw [List.getElem?_append_left (before.trans_le image.upper)] at found
      exact image.logged k r' o found late before within touches
  · rcases getElem?_snoc found with old | ⟨_, rfl⟩
    · exact inv.due k r' page o old late within touches
    · exact absurd (newByte_none none_ _) touches

/-- The pool and the data file are the same, and no less is in the log file. -/
theorem Applied.congr (inv : Applied durable n applied pins s) (pool : s'.pool = s.pool) (file : s'.file = s.file)
    (flushed : s.wal.unflushedRecordIndex ≤ s'.wal.unflushedRecordIndex) : Applied durable n applied pins s' where
  linked := by
    rw [pool]
    exact inv.linked
  content := by
    have same : s'.pooled = s.pooled := by rw [PagedWal.pooled, PagedWal.pooled, pool, file]
    rw [same]
    exact inv.content
  image page := (inv.image page).imp fun _ image => image.kept (fun _ _ => congrFun file _) fun _ reached => reached.trans_le flushed
  due k r page o at_ late inside touches :=
    (inv.due k r page o at_ late inside touches).kept (fun reached => reached.trans_le flushed) fun _ found => by
      rw [pool]
      exact ⟨found, rfl, rfl⟩
  count := inv.count

theorem reserve_poolSize {p p' : BufferPool} {r : Retained} {fileIndex : Nat} {adviseEviction : Bool}
    (reserving : BufferPool.Reserving p fileIndex adviseEviction r p') : p'.poolSize = p.poolSize := by
  cases reserving <;> rfl

theorem finishRetain_poolSize (s : PagedWal) (r : Retained) (fileIndex : Nat) :
    (s.finishRetain r fileIndex).pool.poolSize = s.pool.poolSize := by
  unfold finishRetain
  cases r.writeBack <;> cases r.needsRead <;> rfl

theorem retain_poolSize {fileIndex : Nat} {adviseEviction : Bool} (retained : s.retain fileIndex adviseEviction = (some i, s')) :
    s'.pool.poolSize = s.pool.poolSize := by
  unfold PagedWal.retain at retained
  split at retained
  · cases retained
  · rename_i r pool reserved
    cases retained
    rw [finishRetain_poolSize]
    exact reserve_poolSize (BufferPool.reserve_cases reserved)

/-- Some slot is not pinned. -/
def Free (s : PagedWal) : Prop := ∃ i, i < s.pool.poolSize ∧ (s.pool.metadata i).refcount = 0

/-- A page is found a slot while some slot is not pinned. -/
theorem retain_found (linked : s.pool.Linked pins) (fileIndex : Nat) (found : (∃ i, s.pool.fileToPoolIndex fileIndex = some i) ∨ s.Free)
    (adviseEviction : Bool) : ∃ i s', s.retain fileIndex adviseEviction = (some i, s') := by
  unfold PagedWal.retain
  cases reserved : s.pool.reserve fileIndex adviseEviction with
  | none =>
    obtain ⟨unmapped, pinned⟩ := linked.reserve_eq_none.mp reserved
    rcases found with ⟨i, mapped⟩ | ⟨i, inside, unpinned⟩
    · rw [unmapped] at mapped
      cases mapped
    · have positive := pinned i inside
      rw [← linked.refcount, unpinned] at positive
      exact absurd positive (Nat.lt_irrefl 0)
  | some found => exact ⟨_, _, rfl⟩

/-- `apply_record` on a page that is found a slot. -/
theorem Applied.applyRecord (inv : Applied durable n applied pins s) (front : applied <+: s.wal.records) (order : s.wal.InOrder n)
    (bound : s.wal.unflushedRecordIndex ≤ s.wal.records.length) {r : InMemoryWALRecord} {loc length : Nat} {bytes : List UInt8}
    (effect : effectOf r = some (loc, length, bytes)) (inside : loc % pageSize + length ≤ pageSize)
    (found : (∃ i, s.pool.fileToPoolIndex (loc / pageSize) = some i) ∨ s.Free) :
    ∃ evicted s', s.applyRecord r = (true, s') ∧ s'.wal = s.wal.getPage evicted ∧
      (∀ i, s.pool.fileToPoolIndex (loc / pageSize) = some i → evicted = none) ∧
      Applied durable n (applied ++ [r]) pins s' ∧ s'.pool.poolSize = s.pool.poolSize := by
  obtain ⟨i, s₁, retained⟩ := retain_found inv.linked _ found false
  obtain ⟨evicted, wal, hit, held, at_⟩ := inv.retain front order bound retained
  have pinned : 0 < Function.update pins i (pins i + 1) i := by
    rw [Function.update_self]
    exact Nat.succ_pos _
  obtain ⟨released, wal', size, _⟩ := (held.modify effect inside at_).release pinned
  rw [Function.update_self, Function.update_idem, Nat.add_sub_cancel, Function.update_eq_self] at released
  have sameSize : s₁.pool.poolSize = s.pool.poolSize := retain_poolSize retained
  refine ⟨evicted, (s₁.modify i r (loc % pageSize) length bytes).release i, ?_, wal'.trans wal, fun i' mapped => (hit i' mapped).1,
    released, size.trans sameSize⟩
  simp only [PagedWal.applyRecord, effect, retained]

theorem flushSlot_pooled (s : PagedWal) (i : Nat) : (s.flushSlot i).pooled = s.pooled.flushSlot i ∧ (s.flushSlot i).wal = s.wal ∧
    (s.flushSlot i).lsnsTaken = s.lsnsTaken := by
  unfold flushSlot PooledFile.flushSlot BufferPool.writeBackOf
  cases dirty : (s.pool.metadata i).dirty <;> cases index : (s.pool.metadata i).fileIndex <;>
    simp [pooled, dirty, index, PooledFile.writeBack]

theorem flushAll_pooled (s : PagedWal) : s.flushAll.pooled = s.pooled.flushAll ∧ s.flushAll.wal = s.wal ∧
    s.flushAll.lsnsTaken = s.lsnsTaken := by
  unfold flushAll PooledFile.flushAll
  change _ = s.pooled.flushSlots s.pool.poolSize ∧ _
  generalize s.pool.poolSize = slots
  induction slots with
  | zero => exact ⟨rfl, rfl, rfl⟩
  | succ slots ih =>
    obtain ⟨pooled, wal, lsns⟩ := (s.flushSlots slots).flushSlot_pooled slots
    refine ⟨pooled.trans ?_, wal.trans ih.2.1, lsns.trans ih.2.2⟩
    rw [ih.1]
    rfl

theorem flushSlots_clean (p : PooledFile) {slots i : Nat} (below : i < slots) (used : (p.pool.metadata i).fileIndex ≠ none) :
    ((p.flushSlots slots).pool.metadata i).dirty = false := by
  induction slots with
  | zero => exact absurd below (Nat.not_lt_zero i)
  | succ slots ih =>
    have index := (p.flushSlots_fileIndex slots).2 i
    change (((p.flushSlots slots).flushSlot slots).pool.metadata i).dirty = false
    unfold PooledFile.flushSlot
    dsimp only
    by_cases newest : i = slots
    · subst newest
      split
      · rw [BufferPool.update_same]
      · rename_i other
        cases dirty : ((p.flushSlots i).pool.metadata i).dirty with
        | false => rfl
        | true =>
          obtain ⟨f, some_⟩ := Option.ne_none_iff_exists'.mp used
          exact absurd (index.trans some_) (other f dirty)
    · have earlier := ih (by omega)
      split
      · rw [BufferPool.update_other newest]
        exact earlier
      · exact earlier

/-- After `flush_all` the data file has every page. -/
theorem Applied.flushAll (inv : Applied durable n applied pins s) :
    Applied (redo (applied.drop n) durable) applied.length applied pins s.flushAll := by
  obtain ⟨pooled, _, _⟩ := s.flushAll_pooled
  have linked : s.flushAll.pooled.pool.Linked pins := by
    rw [pooled]
    exact PageHandles.flushAll_linked inv.linked
  have content : s.flushAll.pooled.Shows (contentOf (redo (applied.drop n) durable)) := by
    rw [pooled]
    exact PooledFile.flushAll_shows inv.linked inv.content
  have clean : ∀ f i, s.flushAll.pooled.pool.fileToPoolIndex f = some i → (s.flushAll.pooled.pool.metadata i).dirty = false := by
    intro f i at_
    rw [pooled] at at_ ⊢
    have mapped := (s.pooled.flushSlots_fileIndex s.pool.poolSize).1
    obtain ⟨inside, index⟩ := inv.linked.mapped f i ((congrFun mapped f).symm.trans at_)
    refine flushSlots_clean s.pooled (inside.trans_le inv.linked.bound) ?_
    change (s.pool.metadata i).fileIndex ≠ none
    rw [index]
    exact Option.some_ne_none f
  refine ⟨linked, ?_, fun page => ⟨applied.length, le_rfl, le_rfl, fun o inside => ?_, ?_⟩, ?_, le_rfl⟩
  · rw [List.drop_length]
    exact content
  · rw [List.take_length, List.drop_length]
    exact content.clean page (clean page) o inside
  · intro k r o at_ late
    exact absurd (List.getElem?_eq_some_iff.mp at_).1 (Nat.not_lt.mpr late)
  · intro k r page o at_ late
    exact absurd (List.getElem?_eq_some_iff.mp at_).1 (Nat.not_lt.mpr late)

end PagedWal

end DiskMap
