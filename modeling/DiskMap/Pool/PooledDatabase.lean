import DiskMap.Pool.AppliedRecords
import DiskMap.Wal.Abort

namespace DiskMap
open ByteMemory Database GuardedRun

namespace WAL

/-- The LSNs count the records. -/
structure Sequenced (w : WAL) : Prop where
  nextLsn : w.nextLsn = w.records.length
  lsns : ∀ (i : Nat) r, w.records[i]? = some r → r.lsn = i

theorem Sequenced.inOrder {w : WAL} (sequenced : w.Sequenced) (n : Nat) : w.InOrder n := by
  intro i k r r' le _ at_ at_'
  rw [sequenced.lsns i r at_, sequenced.lsns k r' at_']
  exact le

theorem Sequenced.grow {w w' : WAL} (sequenced : w.Sequenced) {r : InMemoryWALRecord} (lsn : r.lsn = w.nextLsn)
    (records : w'.records = w.records ++ [r]) (nextLsn : w'.nextLsn = (w.nextLsn + 1) % 2 ^ 32)
    (room : w.records.length + 1 < 2 ^ 32) : w'.Sequenced where
  nextLsn := by rw [nextLsn, records, sequenced.nextLsn, Nat.mod_eq_of_lt room, List.length_append, List.length_singleton]
  lsns i r' at_ := by
    rw [records] at at_
    rcases getElem?_snoc at_ with old | ⟨newest, rfl⟩
    · exact sequenced.lsns i r' old
    · rw [lsn, sequenced.nextLsn, newest]

end WAL

namespace PagedWal
variable {s s' : PagedWal} {d : Database} {pins : Nat → Nat} {durable : Mem} {n i : Nat}

/-- A record with data writes inside one page. -/
def InPage (r : InMemoryWALRecord) : Prop :=
  ∀ loc length bytes, effectOf r = some (loc, length, bytes) → loc % pageSize + length ≤ pageSize

/-- The pool and the data file show the pages of the database, by the records that the WAL has in memory. -/
structure Backs (durable : Mem) (n : Nat) (pins : Nat → Nat) (s : PagedWal) (d : Database) : Prop where
  wal : s.wal = d.wal
  taken : s.lsnsTaken = d.wal.records.length
  pages : d.pages = redo (d.wal.records.drop n) durable
  sequenced : d.wal.Sequenced
  bound : d.wal.unflushedRecordIndex ≤ d.wal.records.length
  inPage : ∀ r ∈ d.wal.records, InPage r
  applied : Applied durable n d.wal.records pins s

/-- The bytes as the pool shows them, and of the other pages the data file. -/
def shown (s : PagedWal) : Mem := fun a =>
  match s.pool.fileToPoolIndex (a / pageSize) with
  | some i => s.pool.pages i (a % pageSize)
  | none => s.file a

namespace Backs

/-- Only other members of the WAL change. -/
theorem withWal (inv : Backs durable n pins s d) (wal : WAL) (records : wal.records = d.wal.records) (nextLsn : wal.nextLsn = d.wal.nextLsn)
    (flushed : d.wal.unflushedRecordIndex ≤ wal.unflushedRecordIndex) (bound : wal.unflushedRecordIndex ≤ wal.records.length) :
    Backs durable n pins { s with wal } { d with wal } := by
  refine ⟨rfl, inv.taken.trans (congrArg List.length records.symm), ?_, ⟨?_, ?_⟩, bound, ?_, ?_⟩
  · change d.pages = redo (wal.records.drop n) durable
    rw [records]
    exact inv.pages
  · change wal.nextLsn = wal.records.length
    rw [nextLsn, records]
    exact inv.sequenced.nextLsn
  · change ∀ (i : Nat) r, wal.records[i]? = some r → r.lsn = i
    rw [records]
    exact inv.sequenced.lsns
  · change ∀ r ∈ wal.records, InPage r
    rw [records]
    exact inv.inPage
  · change Applied durable n wal.records pins _
    rw [records]
    refine inv.applied.congr rfl rfl ?_
    rw [inv.wal]
    exact flushed

/-- A record has been appended and applied. -/
theorem grow (inv : Backs durable n pins s d) {r : InMemoryWALRecord} {wal : WAL} (same : s'.wal = wal)
    (records : wal.records = d.wal.records ++ [r]) (nextLsn : wal.nextLsn = (d.wal.nextLsn + 1) % 2 ^ 32)
    (bound : wal.unflushedRecordIndex ≤ wal.records.length) (taken : s'.lsnsTaken = s.lsnsTaken + 1)
    (room : s.lsnsTaken + 1 < 2 ^ 32) (lsn : r.lsn = d.wal.nextLsn) (inPage : InPage r)
    (applied : Applied durable n (d.wal.records ++ [r]) pins s') : Backs durable n pins s' { wal, pages := r.applyTo d.pages } := by
  rw [inv.taken] at room taken
  refine ⟨same, ?_, ?_, inv.sequenced.grow lsn records nextLsn room, bound, ?_, ?_⟩
  · rw [taken, records, List.length_append, List.length_singleton]
  · change r.applyTo d.pages = redo (wal.records.drop n) durable
    rw [records, List.drop_append_of_le_length inv.applied.count, redo_append, ← inv.pages]
    rfl
  · change ∀ r ∈ wal.records, InPage r
    rw [records]
    intro r' member
    rcases List.mem_append.mp member with old | new
    · exact inv.inPage r' old
    · rw [List.mem_singleton.mp new]
      exact inPage
  · rw [records]
    exact applied

theorem pushMark (inv : Backs durable n pins s d) (txnId : Nat) (body : RecordBody)
    (none_ : effectOf (mark d.wal.nextLsn txnId body) = none) (room : s.lsnsTaken + 1 < 2 ^ 32) :
    Backs durable n pins (s.pushMark txnId body) (d.pushMark txnId body) := by
  have same : (s.pushMark txnId body).wal = d.wal.pushMark txnId body := by
    change s.wal.pushMark txnId body = _
    rw [inv.wal]
  have grown := inv.grow (r := mark d.wal.nextLsn txnId body) same rfl rfl (inv.bound.trans (by simp [WAL.pushMark, WAL.push, WAL.takeLsn])) rfl room rfl
    (fun loc length bytes some_ => by rw [none_] at some_; cases some_)
    ((inv.applied.mark none_).congr rfl rfl le_rfl)
  rw [applyTo_none none_] at grown
  exact grown

/-- The page in its slot. -/
theorem slice_slot (inv : Applied durable n d.wal.records pins s) (pages : d.pages = redo (d.wal.records.drop n) durable) {loc length : Nat}
    (inside : loc % pageSize + length ≤ pageSize) (at_ : s.pool.fileToPoolIndex (loc / pageSize) = some i) :
    slice (s.pool.pages i) (loc % pageSize) length = slice d.pages loc length := by
  refine List.map_congr_left fun o member => ?_
  have within := List.mem_range.mp member
  have shown := inv.content.resident _ i at_ (loc % pageSize + o) (by omega)
  rw [pages]
  change s.pool.pages i (loc % pageSize + o) = _ at shown
  rw [shown, contentOf, ← Nat.add_assoc, Nat.div_add_mod']

/-- The record that `set` creates is the one of the database, if the slot shows the page. -/
theorem set_of {txnId loc writeLength : Nat} {data : List UInt8} {s₁ s₂ : PagedWal} (wal : s.wal = d.wal)
    (retained : s.takeLsn.retain (loc / pageSize) false = (some i, s₁))
    (shown : slice (s₁.pool.pages i) (loc % pageSize) writeLength = slice d.pages loc writeLength)
    (done : s₁.applyRecord (d.setRecord txnId loc writeLength data) = (true, s₂)) :
    s.set txnId loc writeLength data = (s₂.push (d.setRecord txnId loc writeLength data)).release i := by
  unfold Database.setRecord at done ⊢
  unfold PagedWal.set
  dsimp only at done ⊢
  rw [retained]
  dsimp only
  rw [shown, wal]
  simp only [done]

theorem set (inv : Backs durable n pins s d) (free : s.Free) {txnId loc writeLength : Nat} {data : List UInt8}
    (inside : InsidePage loc writeLength data) (room : (s.set txnId loc writeLength data).lsnsTaken < 2 ^ 32) :
    ∃ evicted, Backs durable n pins (s.set txnId loc writeLength data) (d.set txnId loc writeLength data evicted) := by
  have taken : Applied durable n d.wal.records pins s.takeLsn := inv.applied.congr rfl rfl le_rfl
  obtain ⟨i, s₁, retained⟩ := retain_found taken.linked (loc / pageSize) (Or.inr (free : s.takeLsn.Free)) false
  have wal₀ : s.takeLsn.wal = d.wal.takeLsn := congrArg WAL.takeLsn inv.wal
  obtain ⟨evicted, wal₁, _, held, at_⟩ := taken.retain (by rw [wal₀]; exact List.prefix_refl _)
    (by rw [wal₀]; exact inv.sequenced.inOrder n) (by rw [wal₀]; exact inv.bound) retained
  rw [wal₀] at wal₁
  have flushed := d.wal.takeLsn.getPage_sameButFile evicted
  have records₁ : s₁.wal.records = d.wal.records := by rw [wal₁, flushed.records]; rfl
  have bound₁ : s₁.wal.unflushedRecordIndex ≤ s₁.wal.records.length := by
    rw [wal₁]
    exact (d.wal.takeLsn.getPage_extends evicted).flushedBound inv.bound
  have small := (Database.InsidePage.lengths inside).1
  obtain ⟨bytes, effect⟩ : ∃ bytes, effectOf (d.setRecord txnId loc writeLength data) = some (loc, writeLength, bytes) :=
    ⟨_, congrArg (fun length => some (loc, length, _)) (Nat.mod_eq_of_lt small)⟩
  obtain ⟨evicted₂, s₂, done, wal₂, hit, held₂, _⟩ := held.applyRecord (records₁ ▸ List.prefix_refl _)
    (fun i k r r' le late found found' => by
      rw [records₁] at found found'
      exact inv.sequenced.inOrder n i k r r' le late found found') bound₁ effect inside.page (Or.inl ⟨i, at_⟩)
  cases hit i at_
  have pinned : 0 < Function.update pins i (pins i + 1) i := by
    rw [Function.update_self]
    exact Nat.succ_pos _
  have pushed : Applied durable n (d.wal.records ++ [d.setRecord txnId loc writeLength data]) (Function.update pins i (pins i + 1))
      (s₂.push (d.setRecord txnId loc writeLength data)) := held₂.congr rfl rfl le_rfl
  obtain ⟨released, wal₃, _⟩ := pushed.release pinned
  rw [Function.update_self, Function.update_idem, Nat.add_sub_cancel, Function.update_eq_self] at released
  have same := set_of inv.wal retained (slice_slot held inv.pages inside.page at_) done
  have lsns : ((s₂.push (d.setRecord txnId loc writeLength data)).release i).lsnsTaken = s.lsnsTaken + 1 := by
    have kept := s.takeLsn.retain_sameRecords (loc / pageSize) false
    have kept₂ := s₁.applyRecord_sameRecords (d.setRecord txnId loc writeLength data)
    rw [retained] at kept
    rw [done] at kept₂
    exact (release_sameRecords _ i).lsnsTaken.trans (kept₂.lsnsTaken.trans kept.lsnsTaken)
  rw [same] at room ⊢
  rw [lsns] at room
  refine ⟨evicted, ?_⟩
  have wal : ((s₂.push (d.setRecord txnId loc writeLength data)).release i).wal =
      (d.wal.takeLsn.getPage evicted).push (d.setRecord txnId loc writeLength data) := by
    rw [wal₃]
    change s₂.wal.push _ = _
    rw [wal₂, wal₁]
    rfl
  refine inv.grow wal (congrArg (· ++ [_]) flushed.records) flushed.nextLsn ?_ lsns room rfl ?_ released
  · have upper := (d.wal.takeLsn.getPage_extends evicted).flushedBound inv.bound
    exact upper.trans (by simp [WAL.push])
  · intro loc' length' bytes' is
    rw [effect] at is
    obtain ⟨rfl, rfl, _⟩ : loc = loc' ∧ writeLength = length' ∧ _ = bytes' := by simpa using is
    exact inside.page

/-- One CLR of a rollback. -/
theorem compensate (inv : Backs durable n pins s d) (free : s.Free) {r : InMemoryWALRecord} {header : SetRecord}
    (inside : header.loc % pageSize + header.length ≤ pageSize) (room : s.lsnsTaken + 1 < 2 ^ 32) :
    ∃ evicted s', (s.takeLsn.push (compensation d.wal.nextLsn r header)).applyRecord (compensation d.wal.nextLsn r header) = (true, s') ∧
      Backs durable n pins s' (Database.applyRecord { d with wal := d.wal.takeLsn.push (compensation d.wal.nextLsn r header) } evicted
        (compensation d.wal.nextLsn r header)) ∧ s'.pool.poolSize = s.pool.poolSize := by
  have effect : effectOf (compensation d.wal.nextLsn r header) = some (header.loc, header.length, _) := rfl
  generalize lsn : compensation d.wal.nextLsn r header = clr at effect ⊢
  have wal₀ : (s.takeLsn.push clr).wal = d.wal.takeLsn.push clr := by
    change s.wal.takeLsn.push clr = _
    rw [inv.wal]
  have roomy := room
  rw [inv.taken] at roomy
  have sequenced : (d.wal.takeLsn.push clr).Sequenced := inv.sequenced.grow (by rw [← lsn]; rfl) rfl rfl roomy
  have bound : (d.wal.takeLsn.push clr).unflushedRecordIndex ≤ (d.wal.takeLsn.push clr).records.length :=
    inv.bound.trans (by simp [WAL.push, WAL.takeLsn])
  have pushed : Applied durable n d.wal.records pins (s.takeLsn.push clr) := inv.applied.congr rfl rfl le_rfl
  obtain ⟨evicted, s', done, wal', _, applied, size⟩ := pushed.applyRecord (by rw [wal₀]; exact List.prefix_append _ _)
    (by rw [wal₀]; exact sequenced.inOrder n) (by rw [wal₀]; exact bound) effect inside (Or.inr (free : (s.takeLsn.push clr).Free))
  have flushed := (d.wal.takeLsn.push clr).getPage_sameButFile evicted
  have kept := (s.takeLsn.push clr).applyRecord_sameRecords clr
  rw [done] at kept
  rw [wal₀] at wal'
  have grown := inv.grow wal' flushed.records flushed.nextLsn (((d.wal.takeLsn.push clr).getPage_extends evicted).flushedBound bound)
    kept.lsnsTaken room (by rw [← lsn]; rfl) (fun loc' length' bytes' is => by
      rw [effect] at is
      obtain ⟨rfl, rfl, _⟩ : header.loc = loc' ∧ header.length = length' ∧ _ = bytes' := by simpa using is
      exact inside) applied
  refine ⟨evicted, s', done, ?_, size⟩
  rw [← lsn] at grown ⊢
  exact grown

theorem free_iff (inv : Backs durable n pins s d) : s.Free ↔ ∃ i, i < s.pool.poolSize ∧ pins i = 0 := by
  simp only [Free, inv.applied.linked.refcount]

theorem writeClrs_cons {r clr : InMemoryWALRecord} {rest : List InMemoryWALRecord} {w : WAL} {applied : Bool}
    (created : createCompensationRecord s.wal r = .ok (clr, w)) (done : (s.takeLsn.push clr).applyRecord clr = (applied, s')) :
    s.writeClrs (r :: rest) = if applied then s'.writeClrs rest else (false, s') := by
  cases applied with
  | true => simp only [PagedWal.writeClrs, created, done, if_true]
  | false => simp only [PagedWal.writeClrs, created, done, Bool.false_eq_true, if_false]

theorem writeClrs (inv : Backs durable n pins s d) (undo : List InMemoryWALRecord) (free : s.Free)
    (sets : ∀ r ∈ undo, ∃ header, r.body = .set header ∧ header.loc % pageSize + header.length ≤ pageSize)
    (room : (s.writeClrs undo).2.lsnsTaken < 2 ^ 32) :
    ∃ evicted d' s', s.writeClrs undo = (true, s') ∧ Database.writeClrs d undo evicted = .ok d' ∧ Backs durable n pins s' d' := by
  induction undo generalizing s d with
  | nil => exact ⟨fun _ => none, d, s, rfl, rfl, inv⟩
  | cons r rest ih =>
    obtain ⟨header, body, inside⟩ := sets r List.mem_cons_self
    have created := createCompensationRecord_set d.wal body
    have created' : createCompensationRecord s.wal r = .ok (compensation d.wal.nextLsn r header, d.wal.takeLsn) := by
      rw [inv.wal]
      exact created
    have spent : s.lsnsTaken + 1 ≤ (s.writeClrs (r :: rest)).2.lsnsTaken := by
      have kept := (s.takeLsn.push (compensation d.wal.nextLsn r header)).applyRecord_sameRecords (compensation d.wal.nextLsn r header)
      cases done : (s.takeLsn.push (compensation d.wal.nextLsn r header)).applyRecord (compensation d.wal.nextLsn r header) with
      | mk applied t =>
        rw [done] at kept
        rw [writeClrs_cons created' done]
        split
        · exact kept.lsnsTaken.ge.trans (show Keeps 0 _ _ from .writeClrs t rest).spent
        · exact kept.lsnsTaken.ge
    obtain ⟨evicted, s₁, done, next, size⟩ := inv.compensate (r := r) free inside (spent.trans_lt room)
    have unfolded : s.writeClrs (r :: rest) = s₁.writeClrs rest := by
      rw [writeClrs_cons created' done, if_pos rfl]
    rw [unfolded] at room
    have free₁ : s₁.Free := by
      rw [next.free_iff, size, ← inv.free_iff]
      exact free
    obtain ⟨later, d', s', run, result, final⟩ := ih next free₁ (fun r' member => sets r' (List.mem_cons_of_mem _ member)) room
    refine ⟨fun n => n.casesOn evicted later, d', s', unfolded.trans run, ?_, final⟩
    rw [Database.writeClrs, created]
    exact result

theorem abort_of {txnId : Nat} {undone : Bool} (wal : s.wal = d.wal)
    (done : (s.pushMark txnId .abortBegin).writeClrs (d.abortUndo txnId) = (undone, s')) :
    s.abort txnId = if undone then { s'.pushMark txnId .abortEnd with
      wal := { (s'.pushMark txnId .abortEnd).wal with activeTransactions := (s'.pushMark txnId .abortEnd).wal.activeTransactions - 1 } }
    else s' := by
  have marked : (s.pushMark txnId .abortBegin).wal = (d.pushMark txnId .abortBegin).wal := by
    change s.wal.pushMark txnId .abortBegin = d.wal.pushMark txnId .abortBegin
    rw [wal]
  have undo : toUndo txnId ((s.pushMark txnId .abortBegin).wal.records.drop
      (undoStart (s.pushMark txnId .abortBegin).wal.records txnId)) = d.abortUndo txnId :=
    congrArg (fun w : WAL => toUndo txnId (w.records.drop (undoStart w.records txnId))) marked
  cases undone with
  | true => simp only [PagedWal.abort, undo, done, if_true]
  | false => simp only [PagedWal.abort, undo, done, Bool.false_eq_true, if_false]

theorem abort (inv : Backs durable n pins s d) (free : s.Free) {txnId : Nat} (room : (s.abort txnId).lsnsTaken < 2 ^ 32) :
    ∃ evicted d', d.abort txnId evicted = .ok d' ∧ Backs durable n pins (s.abort txnId) d' := by
  have spent : ((s.pushMark txnId .abortBegin).writeClrs (d.abortUndo txnId)).2.lsnsTaken ≤ (s.abort txnId).lsnsTaken := by
    cases done : (s.pushMark txnId .abortBegin).writeClrs (d.abortUndo txnId) with
    | mk undone t =>
      rw [abort_of inv.wal done]
      split
      · exact Nat.le_succ _
      · exact le_rfl
  have roomUndo := spent.trans_lt room
  have roomMark := (show Keeps 0 _ _ from .writeClrs (s.pushMark txnId .abortBegin) (d.abortUndo txnId)).spent.trans_lt roomUndo
  obtain ⟨evicted, d', s', run, result, next⟩ := (inv.pushMark txnId .abortBegin rfl roomMark).writeClrs
    (d.abortUndo txnId) (free : (s.pushMark txnId .abortBegin).Free) (fun r member => by
      obtain ⟨header, body⟩ := InMemoryWALRecord.isSet_iff.mp (abortUndo_isSet member)
      refine ⟨header, body, inv.inPage r (mem_abortUndo member) header.loc header.length
        ((r.data.drop header.oldValueLen).take header.newValueLen) ?_⟩
      simp only [effectOf, body]) roomUndo
  have unfolded := abort_of inv.wal run
  rw [if_pos rfl] at unfolded
  rw [unfolded] at room ⊢
  have ended := next.pushMark txnId .abortEnd rfl room
  have wal : (s'.pushMark txnId .abortEnd).wal = (d'.pushMark txnId .abortEnd).wal := ended.wal
  rw [wal]
  refine ⟨evicted, _, ?_, ended.withWal _ rfl rfl le_rfl ended.bound⟩
  have undone : Database.writeClrs (d.pushMark txnId .abortBegin) (toUndo txnId ((d.pushMark txnId .abortBegin).wal.records.drop
      (undoStart (d.pushMark txnId .abortBegin).wal.records txnId))) evicted = .ok d' := result
  simp only [Database.abort, undone]

theorem commit (inv : Backs durable n pins s d) {txnId : Nat} (room : s.lsnsTaken + 1 < 2 ^ 32) :
    Backs durable n pins (s.commit txnId) (d.commit txnId) := by
  have marked := inv.pushMark txnId .commit rfl room
  have wal : (s.pushMark txnId .commit).wal = (d.pushMark txnId .commit).wal := marked.wal
  unfold PagedWal.commit
  dsimp only
  rw [wal]
  exact marked.withWal _ rfl rfl marked.bound le_rfl

theorem begin (inv : Backs durable n pins s d) (running : d.wal.checkpointPending = false) (room : s.begin.lsnsTaken < 2 ^ 32) :
    ∃ d', d.begin = some (d.wal.nextLsn, d') ∧ Backs durable n pins s.begin d' := by
  have begun := inv.withWal { d.wal with
    activeTransactions := d.wal.activeTransactions + 1
    nextTxnId := (d.wal.nextTxnId + 1) % 2 ^ 32 } rfl rfl le_rfl inv.bound
  have unfolded : s.begin = ({ s with wal := { d.wal with
      activeTransactions := d.wal.activeTransactions + 1
      nextTxnId := (d.wal.nextTxnId + 1) % 2 ^ 32 } } : PagedWal).pushMark d.wal.nextTxnId .begin := by
    unfold PagedWal.begin
    rw [inv.wal, if_neg (by rw [running]; exact Bool.false_ne_true)]
  rw [unfolded] at room ⊢
  refine ⟨_, ?_, begun.pushMark d.wal.nextTxnId .begin rfl room⟩
  unfold Database.begin
  rw [if_neg (by rw [running]; exact Bool.false_ne_true)]
  rfl

/-- `get_page` of a client, also if it throws. -/
theorem retain (inv : Backs durable n pins s d) (fileIndex : Nat) (adviseEviction : Bool) :
    ∃ evicted pins', Backs durable n pins' (s.retain fileIndex adviseEviction).2 { d with wal := d.wal.getPage evicted } := by
  cases retained : s.retain fileIndex adviseEviction with
  | mk slot s' =>
    cases slot with
    | none =>
      have same : s' = s := by
        unfold PagedWal.retain at retained
        split at retained
        · exact (congrArg Prod.snd retained).symm
        · cases retained
      rw [same]
      exact ⟨none, pins, inv⟩
    | some i =>
      obtain ⟨evicted, wal, _, held, _⟩ := inv.applied.retain (inv.wal ▸ List.prefix_refl _)
        (by rw [inv.wal]; exact inv.sequenced.inOrder n) (by rw [inv.wal]; exact inv.bound) retained
      have kept := s.retain_sameRecords fileIndex adviseEviction
      rw [retained] at kept
      rw [inv.wal] at wal
      have flushed := d.wal.getPage_sameButFile evicted
      refine ⟨evicted, Function.update pins i (pins i + 1), wal, ?_, ?_, ⟨?_, ?_⟩, (d.wal.getPage_extends evicted).flushedBound inv.bound, ?_, ?_⟩
      all_goals dsimp only
      all_goals rw [flushed.records]
      · exact kept.lsnsTaken.trans inv.taken
      · exact inv.pages
      · rw [flushed.nextLsn]
        exact inv.sequenced.nextLsn
      · exact inv.sequenced.lsns
      · exact inv.inPage
      · exact held

theorem release (inv : Backs durable n pins s d) {i : Nat} (pinned : 0 < (s.pool.metadata i).refcount) :
    Backs durable n (Function.update pins i (pins i - 1)) (s.release i) d := by
  rw [inv.applied.linked.refcount] at pinned
  obtain ⟨released, wal, _⟩ := inv.applied.release pinned
  exact ⟨wal.trans inv.wal, (release_sameRecords s i).lsnsTaken.trans inv.taken, inv.pages, inv.sequenced, inv.bound, inv.inPage, released⟩

theorem shown (inv : Backs durable n pins s d) : s.shown = d.pages := by
  funext a
  have within := Nat.mod_lt a (by decide : 0 < pageSize)
  have byte : contentOf (redo (d.wal.records.drop n) durable) (a / pageSize) (a % pageSize) = d.pages a := by
    rw [contentOf, Nat.div_add_mod', inv.pages]
  rw [← byte, PagedWal.shown]
  split
  · rename_i i at_
    exact inv.applied.content.resident _ i at_ _ within
  · rename_i unmapped
    have clean := inv.applied.content.clean (a / pageSize) (fun i at_ => absurd (unmapped.symm.trans at_) (by simp)) _ within
    change s.file (a / pageSize * pageSize + a % pageSize) = _ at clean
    rw [Nat.div_add_mod'] at clean
    exact clean

/-- `checkpoint_internal` leaves all pages in the data file. -/
theorem checkpoint (inv : Backs durable n pins s d) : Backs d.pages d.wal.records.length pins s.checkpoint d.checkpointInternal := by
  obtain ⟨_, wal, lsns⟩ := s.flushAll_pooled
  have flushed := inv.applied.flushAll
  rw [← inv.pages] at flushed
  have same : s.flushAll.wal = d.wal := wal.trans inv.wal
  unfold PagedWal.checkpoint
  dsimp only
  rw [same]
  refine ⟨rfl, lsns.trans inv.taken, ?_, ⟨inv.sequenced.nextLsn, inv.sequenced.lsns⟩, inv.bound, inv.inPage, flushed.congr rfl rfl ?_⟩
  · change d.pages = redo (d.wal.records.drop d.wal.records.length) d.pages
    rw [List.drop_length]
    rfl
  · rw [same]

end Backs

end PagedWal

end DiskMap
