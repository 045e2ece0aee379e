import DiskMap.MapSessions

namespace DiskMap
open ByteMemory Database GuardedRun

/-- `DiskMap::DiskMap` on files that exist: the WAL recovers and checkpoints, then the magic string is checked. -/
def reopen (iteration : SetIteration) (files : Database) (evictedRedo evictedUndo : Nat → Option Nat) : Except String Session :=
  match recover iteration files evictedRedo evictedUndo with
  | .error message => .error message
  | .ok d => if slice d.pages 0 8 = magic then .ok (Session.restarted d) else .error "Invalid diskmap file"

/-- What the constructor leaves in the pages of a new file. -/
def Created (m pages : Mem) : Prop := ∃ t, construct { mem := m } = .done () t ∧ t.mem = pages

namespace Versions

/-- The constructor has created the files, and its transaction is the only one that commits. -/
def Creates (m : Mem) (v : Versions) (op : WalOp) : Prop :=
  v.Serial op ∧ ∀ txnId, op = .commit txnId → v.committed = [] ∧ Created m v.session.db.pages

/-- A step of the constructor is under way, or none is. -/
def Creating (m : Mem) (v v' : Versions) : Prop :=
  v' = v ∨ ∃ op, v.Creates m op ∧ op ≠ .checkpoint ∧ v.step op = some v'

variable {m : Mem} {start : Session} {v v' : Versions}

theorem creates_committed (before : v.committed = [] ∨ ∃ pages, Created m pages ∧ v.committed = [pages]) {op : WalOp}
    (creates : v.Creates m op) (run : v.step op = some v') : v'.committed = [] ∨ ∃ pages, Created m pages ∧ v'.committed = [pages] := by
  obtain ⟨_, ⟨⟨txnId, rfl⟩, committed⟩ | ⟨_, committed⟩⟩ := step_session run
  · obtain ⟨none, created⟩ := creates.2 txnId rfl
    rw [none] at committed
    exact Or.inr ⟨_, created, committed⟩
  · rw [committed]
    exact before

theorem Creating.during (creating : v.Creating m v') : v.During v' := by
  rcases creating with same | ⟨op, creates, other, run⟩
  · exact Or.inl same
  · exact Or.inr ⟨op, creates.1, other, run⟩

theorem reaches_committed (reach : Reaches step (Creates m) (Versions.start start) v) (creating : v.Creating m v') :
    v'.committed = [] ∨ ∃ pages, Created m pages ∧ v'.committed = [pages] := by
  have before : v.committed = [] ∨ ∃ pages, Created m pages ∧ v.committed = [pages] :=
    reach.invariant (Or.inl rfl) fun _ _ _ holds creates run => creates_committed holds creates run
  rcases creating with rfl | ⟨op, creates, _, run⟩
  · exact before
  · exact creates_committed before creates run

end Versions

theorem initializeFpl_samePage {t t' : Tx} (ended : initializeFpl (maxOrder + 1) t = .done () t') (none : t.freeListed = []) {page : Nat}
    (low : 1 ≤ page) : SamePage t.mem t'.mem page := by
  obtain ⟨m', ended', same, _⟩ := initializeFpl_run (le_refl (maxOrder + 1)) none (MetaIs.refl t.mem)
  obtain ⟨_, rfl⟩ := Outcome.done.inj (ended.symm.trans ended')
  exact same page low

/-- The constructor writes in the meta page only, and the magic string last. -/
theorem Created.metaPage {m pages : Mem} (created : Created m pages) :
    slice pages 0 8 = magic ∧ ∀ page, 1 ≤ page → SamePage m pages page := by
  obtain ⟨t, ended, rfl⟩ := created
  have whole : (construct { mem := m }).Ends fun _ t' => t' = t := .intro ended rfl
  obtain ⟨_, _, count, first⟩ := whole.of_bind
  obtain ⟨_, _, next, second⟩ := first.of_bind
  obtain ⟨_, before, lists, _, _, written, rfl⟩ := second.of_bind
  rw [writeInt_run] at count next
  rw [writePage_run] at written
  obtain ⟨_, rfl⟩ := Outcome.done.inj count
  obtain ⟨_, rfl⟩ := Outcome.done.inj next
  obtain ⟨_, rfl⟩ := Outcome.done.inj written
  refine ⟨slice_overwrite_self before.mem 0 magic, fun page low => ?_⟩
  have last : 0 + magic.length ≤ pageSize := by decide
  have first : MetaPage.kvEntryCountOffset + 8 ≤ pageSize := by decide
  have second : MetaPage.nextFreePageOffset + 8 ≤ pageSize := by decide
  have fields := (meta_samePage m first (leBytes 8 0) low).trans (meta_samePage _ second (leBytes 8 (maxOrder + 3)) low)
  exact (fields.trans (initializeFpl_samePage lists rfl low)).trans (meta_samePage before.mem last magic low)

theorem Created.isMap {m pages : Mem} (zero : ∀ page, ZeroPage m page) (created : Created m pages) :
    ∃ t, t.mem = pages ∧ IsMap t Contents.none := by
  obtain ⟨t, ended, same⟩ := created
  obtain ⟨_, t', ended', wf, _⟩ := construct_wellFormed fun page _ => zero page
  obtain ⟨_, rfl⟩ := Outcome.done.inj (ended.symm.trans ended')
  exact ⟨t, same, _, _, wf, rfl⟩

theorem blank_noMagic {m : Mem} (zero : ∀ page, ZeroPage m page) : slice m 0 8 ≠ magic := by
  intro same
  have first := slice_eq_iff.mp (show slice m 0 magic.length = magic from same) 0 (by decide)
  rw [show m (0 + 0) = 0 from zero 0 0 (by decide)] at first
  exact absurd first (by decide)

/-- A crash while the file is being created, or after that, leaves a file that is refused, or a new map. -/
theorem creation_atomic {m : Mem} (zero : ∀ page, ZeroPage m page) {v v' : Versions}
    (reach : Reaches Versions.step (Versions.Creates m) (Versions.start (Session.fresh m)) v) (creating : v.Creating m v')
    (left : LsnsLeft (Session.fresh m) v'.session) (crash : Crash v.session v'.session) (harmless : crash.TornHarmless)
    (room : RecoveryLsnsLeft crash.survivors) (iteration : SetIteration) (evictedRedo evictedUndo : Nat → Option Nat) :
    (v.committed = [] ∧ reopen iteration crash.reopened evictedRedo evictedUndo = .error "Invalid diskmap file") ∨
      (v'.committed ≠ [] ∧ ∃ session, reopen iteration crash.reopened evictedRedo evictedUndo = .ok session ∧
        MapLives Contents.none session []) := by
  have serial : Reaches Versions.step Versions.Serial (Versions.start (Session.fresh m)) v := reach.mono fun _ _ creates => creates.1
  obtain ⟨d, run, lower, upper, version⟩ :=
    recover_version (Session.fresh_ready m) serial creating.during left crash harmless iteration evictedRedo evictedUndo
  obtain ⟨isolated, between⟩ := creating.during.isolated (Session.fresh_ready m) serial left
  obtain ⟨ready, _⟩ := Crash.restarted (Session.fresh_ready m) isolated between left crash room run
  generalize crash.version (Session.fresh m) = k at lower upper version
  cases k with
  | zero =>
    left
    have pages : m = d.pages := Option.some.inj version
    refine ⟨List.length_eq_zero_iff.mp (Nat.le_zero.mp lower), ?_⟩
    simp only [reopen, run]
    rw [if_neg]
    exact pages ▸ blank_noMagic zero
  | succ k =>
    right
    rcases Versions.reaches_committed reach creating with none | ⟨pages, created, one⟩
    · simp [none] at upper
    · rw [one] at version upper ⊢
      cases Nat.le_zero.mp (Nat.le_of_succ_le_succ upper)
      have same : pages = d.pages := Option.some.inj version
      rw [same] at created
      obtain ⟨t, mem, is⟩ := created.isMap zero
      refine ⟨by simp, Session.restarted d, ?_, .first ready mem is⟩
      simp only [reopen, run]
      rw [if_pos created.metaPage.1]

namespace Versions

/-- One write of the meta page can stand for those of the constructor. -/
def inOneWrite (m : Mem) (bytes : List UInt8) : Versions :=
  [.begin, .set 0 0 pageSize bytes none, .commit 0].foldl (fun v op => (v.step op).getD v) (Versions.start (Session.fresh m))

theorem inOneWrite_reaches {m pages : Mem} (created : Created m pages) :
    Reaches step (Creates m) (Versions.start (Session.fresh m)) (inOneWrite m (slice pages 0 pageSize)) := by
  have bytes : (slice pages 0 pageSize).length = pageSize := slice_length _ _ _
  have inside : InsidePage 0 pageSize (slice pages 0 pageSize) := by
    refine ⟨?_, ?_, bytes.le⟩ <;> decide
  have same : overwrite m 0 pageSize (slice pages 0 pageSize) = pages := by
    funext a
    by_cases first : a < pageSize
    · rw [overwrite_inside (Nat.zero_le a) (by omega), slice_getD pages 0 (by omega), Nat.sub_zero, Nat.zero_add]
    · have other := created.metaPage.2 (a / pageSize) (Nat.div_pos (Nat.not_lt.mp first) (by decide)) _ (Nat.mod_lt a (by decide : 0 < pageSize))
      rw [Nat.div_add_mod'] at other
      rw [overwrite_outside (Or.inr (by omega)), other]
  have start : Reaches step (Creates m) (Versions.start (Session.fresh m)) (Versions.start (Session.fresh m)) := .init
  have first := start.call .begin rfl ⟨rfl, by simp⟩
  have second := first.call (.set 0 0 pageSize (slice pages 0 pageSize) none) rfl ⟨⟨List.mem_singleton_self 0, inside⟩, by simp⟩
  refine second.call (.commit 0) rfl ⟨List.mem_singleton_self 0, fun _ _ => ⟨rfl, ?_⟩⟩
  change Created m ((setRecord _ 0 0 pageSize (slice pages 0 pageSize)).applyTo m)
  rw [setRecord_writes _ 0 inside, same]
  exact created

end Versions

theorem creation_atomic_committed : ∃ (v : Versions) (crash : Crash v.session v.session), v.committed ≠ [] ∧
    ((v.committed = [] ∧ reopen .asInserted crash.reopened quiet quiet = .error "Invalid diskmap file") ∨
      (v.committed ≠ [] ∧ ∃ session, reopen .asInserted crash.reopened quiet quiet = .ok session ∧
        MapLives Contents.none session [])) := by
  obtain ⟨_, t, ended, _⟩ := construct_wellFormed (m := fun _ => 0) fun _ _ _ _ => rfl
  have reach := Versions.inOneWrite_reaches ⟨t, ended, rfl⟩
  obtain ⟨v, is⟩ : ∃ v, v = Versions.inOneWrite (fun _ => 0) (slice t.mem 0 pageSize) := ⟨_, rfl⟩
  have records : ∃ r, v.session.db.wal.records = [mark 0 0 .begin, r, mark 2 0 .commit] ∧ r.txnId = 0 ∧ r.lsn = 1 :=
    is ▸ ⟨_, rfl, rfl, rfl⟩
  have flushed : v.session.db.wal.unflushedRecordIndex = 3 := is ▸ rfl
  have durable : v.session.durableRecords = 0 := is ▸ rfl
  have logStart : v.session.logStart = 0 := is ▸ rfl
  have committed : v.committed ≠ [] := is ▸ List.cons_ne_nil _ _
  rw [← is] at reach
  obtain ⟨r, whole, txnId, lsn⟩ := records
  have length : v.session.db.wal.records.length = 3 := by rw [whole]; rfl
  refine ⟨v, Crash.plain v.session (by omega) (by omega), committed,
    creation_atomic (fun _ _ _ => rfl) reach (Or.inl rfl) ?_ _ (Or.inl ?_) ?_ .asInserted quiet quiet⟩
  · unfold LsnsLeft
    rw [length]
    decide
  · exact durable.le.trans (Nat.zero_le _)
  · have survivors : (Crash.plain v.session (by omega) (by omega)).survivors = [mark 0 0 .begin, r, mark 2 0 .commit] := by
      change (v.session.db.wal.records.take v.session.db.wal.unflushedRecordIndex).drop v.session.logStart = _
      rw [logStart, flushed, whole]
      rfl
    have finished : unfinished [mark 0 0 .begin, r, mark 2 0 .commit] = [] := by
      rw [unfinished, List.filter_eq_nil_iff]
      intro r' member
      have same : r'.txnId = 0 := by
        simp only [List.mem_cons, List.not_mem_nil, or_false] at member
        rcases member with rfl | rfl | rfl
        · rfl
        · exact txnId
        · rfl
      simp [same, finishedTxns, mark, InMemoryWALRecord.withChecksum]
    have none : recoveryRecords [mark 0 0 .begin, r, mark 2 0 .commit] = 0 := by
      simp [recoveryRecords, recoverUndo, abortedTxns, finished]
    rw [survivors]
    refine ⟨?_, fun r' member => ?_⟩
    · rw [none]
      decide
    · rw [none]
      simp only [List.mem_cons, List.not_mem_nil, or_false] at member
      rcases member with rfl | rfl | rfl
      · decide
      · rw [lsn]
        decide
      · decide

end DiskMap
