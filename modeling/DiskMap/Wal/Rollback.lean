import DiskMap.Wal.Bookkeeping

namespace DiskMap
open ByteMemory Database GuardedRun

/-- A session, and for each transaction the values that the bytes it has set had before its
first set of them. -/
structure Tracked where
  session : Session
  before : Nat → Nat → Option UInt8

namespace Tracked

def start (s : Session) : Tracked := ⟨s, fun _ _ => none⟩

def noteBefore (t : Tracked) : WalOp → Nat → Nat → Option UInt8
  | .set txnId loc writeLength _ _ => fun id a =>
    if id = txnId ∧ loc ≤ a ∧ a < loc + writeLength then (t.before id a).or (some (t.session.db.pages a))
    else t.before id a
  | _ => t.before

def step (t : Tracked) (op : WalOp) : Option Tracked :=
  (t.session.step op).map fun s => ⟨s, t.noteBefore op⟩

/-- Transactions set no byte that another one sets. -/
def DisjointCall (t : Tracked) : WalOp → Prop
  | .set txnId loc writeLength data _ => txnId ∈ t.session.openTxns ∧ InsidePage loc writeLength data ∧
      ∀ a, loc ≤ a → a < loc + writeLength → ∀ id, id ≠ txnId → t.before id a = none
  | op => OpenCall t.session op

/-- What an abort has to do to the pages. -/
def Restored (t : Tracked) (txnId : Nat) (d : Database) : Prop :=
  (∀ a v, t.before txnId a = some v → d.pages a = v) ∧
    ∀ a id, id ≠ txnId → t.before id a ≠ none → d.pages a = t.session.db.pages a

/-- The SET records of the transaction that lie before the place where the search of `abort`
starts, which is behind the first BEGIN record with its id. -/
def missed (t : Tracked) (txnId : Nat) : List InMemoryWALRecord :=
  (t.session.db.wal.records.take (undoStart t.session.db.wal.records txnId)).filter (setBy txnId)

/-- There are none, or they have left each byte as it was before the transaction. -/
def MissedHarmless (t : Tracked) (txnId : Nat) : Prop :=
  ∀ a w, lastNew (t.missed txnId) a = some w → t.before txnId a = some w

end Tracked

/-- What holds of the SET records of the open transactions, if no two transactions set the same
byte, even after rollbacks that have gone wrong. -/
structure RollbackInvariant (t : Tracked) : Prop where
  unborn : ∀ id a, t.session.db.wal.nextLsn ≤ id → t.before id a = none
  apart : ∀ id id' a, t.before id a ≠ none → t.before id' a ≠ none → id = id'
  touched : ∀ id ∈ t.session.openTxns, ∀ r ∈ t.session.db.wal.records, setBy id r → ∀ a, r.newByte a ≠ none →
    t.before id a ≠ none
  old : ∀ id ∈ t.session.openTxns, ∀ a front back v, t.session.db.wal.records.filter (setBy id) = front ++ back →
    firstOld back a = some v → (lastNew front a).or (t.before id a) = some v
  current : ∀ id ∈ t.session.openTxns, ∀ a v, t.before id a = some v →
    t.session.db.pages a = (lastNew (t.session.db.wal.records.filter (setBy id)) a).getD v

namespace RollbackInvariant
variable {begun : Session} {t t' : Tracked}

/-- Records without a SET, which touch no byte of a transaction that stays open. -/
theorem append (books : Bookkeeping begun t.session) (inv : RollbackInvariant t) {add : List InMemoryWALRecord}
    (appends : t.session.Appends add t'.session) (before : t'.before = t.before)
    (later : t.session.db.wal.nextLsn ≤ t'.session.db.wal.nextLsn) (noSets : ∀ r ∈ add, isSet r = false)
    (opens : ∀ id ∈ t'.session.openTxns, id ∈ t.session.openTxns ∨ id = t.session.db.wal.nextLsn)
    (quiet : ∀ id ∈ t'.session.openTxns, ∀ a, t.before id a ≠ none → ∀ r ∈ add, r.newByte a = none) :
    RollbackInvariant t' := by
  have same : ∀ id, t'.session.db.wal.records.filter (setBy id) = t.session.db.wal.records.filter (setBy id) := by
    intro id
    have nothing : add.filter (setBy id) = [] := by
      rw [List.filter_eq_nil_iff]
      intro r member byId
      have none_ := noSets r member
      rw [(setBy_iff.mp byId).1] at none_
      cases none_
    rw [appends.records, List.filter_append, nothing, List.append_nil]
  have unset : t.session.db.wal.records.filter (setBy t.session.db.wal.nextLsn) = [] := by
    rw [List.filter_eq_nil_iff]
    intro r member byId
    have bound := books.ordered r member
    have own := (setBy_iff.mp byId).2
    omega
  have pages : ∀ id ∈ t'.session.openTxns, ∀ a, t.before id a ≠ none →
      t'.session.db.pages a = t.session.db.pages a := by
    intro id opened a set
    rw [appends.pages, redo_byte, lastNew_eq_none.mpr (quiet id opened a set), Option.getD_none]
  refine ⟨?_, ?_, ?_, ?_, ?_⟩
  · intro id a bound
    rw [before]
    exact inv.unborn id a (later.trans bound)
  · rw [before]
    exact inv.apart
  · rw [before, appends.records]
    intro id opened r member byId a touch
    rcases List.mem_append.mp member with old | added
    · rcases opens id opened with open_ | rfl
      · exact inv.touched id open_ r old byId a touch
      · have inside := List.mem_filter.mpr ⟨old, byId⟩
        rw [unset] at inside
        cases inside
    · have none_ := noSets r added
      rw [(setBy_iff.mp byId).1] at none_
      cases none_
  · rw [before]
    intro id opened a front back v split old
    rw [same] at split
    rcases opens id opened with open_ | rfl
    · exact inv.old id open_ a front back v split old
    · rw [unset] at split
      obtain ⟨_, rfl⟩ := List.append_eq_nil_iff.mp split.symm
      cases old
  · rw [before]
    intro id opened a v set
    rw [same, pages id opened a (by simp [set])]
    rcases opens id opened with open_ | rfl
    · exact inv.current id open_ a v set
    · rw [inv.unborn _ a le_rfl] at set
      cases set

/-- A rollback touches only bytes that the transaction has set. -/
theorem abortRecords_touch (inv : RollbackInvariant t) {txnId last : Nat} (opened : txnId ∈ t.session.openTxns)
    {r : InMemoryWALRecord} (member : r ∈ t.session.abortRecords txnId last) {a : Nat} (touch : r.newByte a ≠ none) :
    t.before txnId a ≠ none := by
  rcases Session.mem_abortRecords member with ⟨_, _, rfl, rfl | rfl⟩ | ⟨r', undone, s, lsn, body, _, rfl⟩
  · exact absurd rfl touch
  · exact absurd rfl touch
  · obtain ⟨inside, byId⟩ := mem_toUndo undone
    rw [compensation_newByte lsn body, Ne, InMemoryWALRecord.oldByte_eq_none_iff (setBy_iff.mp byId).1] at touch
    rcases List.mem_append.mp (List.mem_of_mem_drop inside) with old | new
    · exact inv.touched txnId opened r' old byId a touch
    · rw [List.mem_singleton.mp new] at byId
      cases (setBy_iff.mp byId).1

section
variable {txnId loc writeLength : Nat} {data : List UInt8} {evicted : Option Nat}

theorem noteBefore_other {op : WalOp} (other : ∀ loc writeLength data evicted, op ≠ .set txnId loc writeLength data evicted)
    (a : Nat) : t.noteBefore op txnId a = t.before txnId a := by
  cases op with
  | set id loc writeLength data evicted =>
    refine if_neg fun same => ?_
    exact other loc writeLength data evicted (by rw [same.1])
  | _ => rfl

theorem noteBefore_outside {a : Nat} (outside : ¬ (loc ≤ a ∧ a < loc + writeLength)) (id : Nat) :
    t.noteBefore (.set txnId loc writeLength data evicted) id a = t.before id a :=
  if_neg fun same => outside same.2

theorem noteBefore_inside {a : Nat} (lower : loc ≤ a) (upper : a < loc + writeLength) :
    t.noteBefore (.set txnId loc writeLength data evicted) txnId a =
      (t.before txnId a).or (some (t.session.db.pages a)) :=
  if_pos ⟨rfl, lower, upper⟩

theorem noteBefore_mono {op : WalOp} {id a : Nat} {v : UInt8} (known : t.before id a = some v) :
    t.noteBefore op id a = some v := by
  cases op with
  | set txnId loc writeLength data evicted =>
    simp only [Tracked.noteBefore]
    split
    · rw [known, Option.some_or]
    · exact known
  | _ => exact known

/-- The SET records of the transaction itself, one more. -/
theorem set_own (inv : RollbackInvariant t) (call : t.DisjointCall (.set txnId loc writeLength data evicted)) {a : Nat}
    {front back : List InMemoryWALRecord} {v : UInt8}
    (split : t.session.db.wal.records.filter (setBy txnId) ++ [t.session.db.setRecord txnId loc writeLength data] =
      front ++ back) (old : firstOld back a = some v) :
    (lastNew front a).or (t.noteBefore (.set txnId loc writeLength data evicted) txnId a) = some v := by
  obtain ⟨opened, inside, _⟩ := call
  rcases List.eq_nil_or_concat back with rfl | ⟨back', last, rfl⟩
  · cases old
  rw [List.concat_eq_append, ← List.append_assoc] at split
  obtain ⟨whole, same⟩ := List.append_inj' split rfl
  cases List.singleton_inj.mp same
  rw [List.concat_eq_append, firstOld_append] at old
  cases earlier : firstOld back' a with
  | some w =>
    rw [earlier] at old
    have known := inv.old txnId opened a front back' w whole earlier
    rw [← show w = v from Option.some.inj old]
    cases front_ : lastNew front a with
    | some u => simpa [front_] using known
    | none =>
      rw [front_, Option.none_or] at known
      rw [Option.none_or, noteBefore_mono known]
  | none =>
    rw [earlier, Option.none_or] at old
    have last : (t.session.db.setRecord txnId loc writeLength data).oldByte a = some v := by
      simpa [firstOld] using old
    have touch : (t.session.db.setRecord txnId loc writeLength data).newByte a ≠ none := by
      rw [Ne, ← InMemoryWALRecord.oldByte_eq_none_iff setRecord_isSet, last]
      simp
    obtain ⟨lower, upper⟩ := (setRecord_touches inside).mp touch
    have untouched : lastNew back' a = none := by
      rw [lastNew_eq_none]
      intro r member
      have byId : setBy txnId r := (List.mem_filter.mp (whole ▸ List.mem_append_right front member)).2
      rw [← InMemoryWALRecord.oldByte_eq_none_iff (setBy_iff.mp byId).1]
      exact firstOld_eq_none.mp earlier r member
    have value : lastNew (t.session.db.wal.records.filter (setBy txnId)) a = lastNew front a := by
      rw [whole, lastNew_append, untouched, Option.none_or]
    rw [setRecord_old inside last, noteBefore_inside lower upper]
    cases known : t.before txnId a with
    | some u =>
      rw [inv.current txnId opened a u known, value]
      cases lastNew front a <;> rfl
    | none =>
      have nothing : lastNew front a = none := by
        rw [← value, lastNew_eq_none]
        intro r member
        by_contra touch'
        obtain ⟨inside', byId⟩ := List.mem_filter.mp member
        exact inv.touched txnId opened r inside' byId a touch' known
      rw [nothing]
      rfl

theorem set (books : Bookkeeping begun t.session) (inv : RollbackInvariant t)
    (call : t.DisjointCall (.set txnId loc writeLength data evicted)) {s : Session}
    (appends : t.session.Appends [t.session.db.setRecord txnId loc writeLength data] s)
    (later : t.session.db.wal.nextLsn ≤ s.db.wal.nextLsn) (opens : s.openTxns = t.session.openTxns) :
    RollbackInvariant ⟨s, t.noteBefore (.set txnId loc writeLength data evicted)⟩ := by
  obtain ⟨opened, inside, disjoint⟩ := id call
  have other : ∀ id, id ≠ txnId → ∀ a, t.noteBefore (.set txnId loc writeLength data evicted) id a = t.before id a :=
    fun id different a => noteBefore_other (fun _ _ _ _ same => different (WalOp.set.inj same).1.symm) a
  have own : ∀ id, s.db.wal.records.filter (setBy id) = t.session.db.wal.records.filter (setBy id) ++
      if id = txnId then [t.session.db.setRecord txnId loc writeLength data] else [] := by
    intro id
    rw [appends.records, List.filter_append]
    congr 1
    by_cases mine : id = txnId
    · have byId : setBy id (t.session.db.setRecord txnId loc writeLength data) :=
        setBy_iff.mpr ⟨setRecord_isSet, mine.symm⟩
      rw [if_pos mine, List.filter_cons, if_pos byId, List.filter_nil]
    · have byOther : ¬ setBy id (t.session.db.setRecord txnId loc writeLength data) := fun byId =>
        mine (setBy_iff.mp byId).2.symm
      rw [if_neg mine, List.filter_cons, if_neg byOther, List.filter_nil]
  refine ⟨?_, ?_, ?_, ?_, ?_⟩
  · intro id a bound
    have lower := (books.openIds txnId opened).2
    have unborn := inv.unborn id a (later.trans bound)
    rwa [← other id (by rintro rfl; exact absurd (later.trans bound) (Nat.not_le.mpr lower)) a] at unborn
  · intro id id' a known known'
    simp only at known known'
    by_cases range : loc ≤ a ∧ a < loc + writeLength
    · have mine : ∀ id, t.noteBefore (.set txnId loc writeLength data evicted) id a ≠ none → id = txnId := by
        intro id known
        by_contra different
        exact known (by rw [other id different, disjoint a range.1 range.2 id different])
      rw [mine id known, mine id' known']
    · rw [noteBefore_outside range] at known known'
      exact inv.apart id id' a known known'
  · simp only [opens, appends.records]
    intro id opened' r member byId a touch
    rcases List.mem_append.mp member with old | new
    · obtain ⟨v, known⟩ := Option.ne_none_iff_exists'.mp (inv.touched id opened' r old byId a touch)
      rw [noteBefore_mono known]
      simp
    · rw [List.mem_singleton.mp new] at byId touch
      obtain ⟨lower, upper⟩ := (setRecord_touches inside).mp touch
      have mine : txnId = id := (setBy_iff.mp byId).2
      subst mine
      rw [noteBefore_inside lower upper]
      cases t.before txnId a <;> simp
  · simp only [opens, own]
    intro id opened' a front back v split old
    by_cases mine : id = txnId
    · subst mine
      rw [if_pos rfl] at split
      exact inv.set_own call split old
    · rw [if_neg mine, List.append_nil] at split
      rw [other id mine]
      exact inv.old id opened' a front back v split old
  · simp only [opens, own, appends.pages]
    intro id opened' a v known
    have applied : redo [t.session.db.setRecord txnId loc writeLength data] t.session.db.pages a =
        ((t.session.db.setRecord txnId loc writeLength data).newByte a).getD (t.session.db.pages a) :=
      (t.session.db.setRecord txnId loc writeLength data).applyTo_byte t.session.db.pages a
    rw [applied]
    by_cases range : loc ≤ a ∧ a < loc + writeLength
    · by_cases mine : id = txnId
      · subst mine
        have touch : (t.session.db.setRecord id loc writeLength data).newByte a ≠ none := (setRecord_touches inside).mpr range
        obtain ⟨w, new⟩ := Option.ne_none_iff_exists'.mp touch
        rw [if_pos rfl, lastNew_snoc, new]
        rfl
      · rw [other id mine, disjoint a range.1 range.2 id mine] at known
        cases known
    · have untouched : (t.session.db.setRecord txnId loc writeLength data).newByte a = none := by
        by_contra touch
        exact range ((setRecord_touches inside).mp touch)
      rw [noteBefore_outside range] at known
      rw [untouched, Option.getD_none, inv.current id opened' a v known]
      by_cases mine : id = txnId
      · rw [if_pos mine, lastNew_snoc, untouched, Option.none_or]
      · rw [if_neg mine, List.append_nil]

end

theorem step (books : Bookkeeping begun t.session) (inv : RollbackInvariant t) {op : WalOp} (call : t.DisjointCall op)
    (run : t.step op = some t') (left : LsnsLeft begun t'.session) : RollbackInvariant t' := by
  obtain ⟨s, done, rfl⟩ := Option.map_eq_some_iff.mp run
  obtain ⟨add, appends, effect⟩ := Session.step_appends done
  have later : t.session.db.wal.nextLsn ≤ s.db.wal.nextLsn := by
    rw [(books.appended_lsn appends left).1]
    exact Nat.le_add_right _ _
  cases effect with
  | begin opens =>
    refine inv.append books appends rfl later (by simp [mark, InMemoryWALRecord.withChecksum, isSet]) ?_ ?_
    · intro id member
      change id ∈ s.openTxns at member
      rw [opens] at member
      exact (List.mem_cons.mp member).symm
    · intro _ _ _ _ r member
      rw [List.mem_singleton.mp member]
      rfl
  | set opens => exact inv.set books call appends later opens
  | commit opens =>
    refine inv.append books appends rfl later (by simp [mark, InMemoryWALRecord.withChecksum, isSet]) ?_ ?_
    · intro id member
      change id ∈ s.openTxns at member
      rw [opens] at member
      exact Or.inl (List.mem_of_mem_erase member)
    · intro _ _ _ _ r member
      rw [List.mem_singleton.mp member]
      rfl
  | @abort _ txnId _ last opens =>
    refine inv.append books appends rfl later ?_ ?_ ?_
    · intro r member
      rcases Session.mem_abortRecords member with ⟨_, _, rfl, rfl | rfl⟩ | ⟨_, _, _, _, _, _, rfl⟩ <;> rfl
    · intro id member
      change id ∈ s.openTxns at member
      rw [opens] at member
      exact Or.inl (List.mem_of_mem_erase member)
    · intro id member a known r inside
      change id ∈ s.openTxns at member
      rw [opens] at member
      by_contra touch
      have mine := inv.apart id txnId a known (inv.abortRecords_touch call inside touch)
      exact (books.nodup.mem_erase_iff.mp member).1 mine
  | other kind opens =>
    refine inv.append books appends ?_ later (by simp) ?_ (by simp)
    · rcases kind with rfl | rfl | ⟨_, rfl⟩ <;> rfl
    · intro id member
      change id ∈ s.openTxns at member
      rw [opens] at member
      exact Or.inl member

end RollbackInvariant

namespace Tracked

theorem DisjointCall.openCall {t : Tracked} {op : WalOp} (call : t.DisjointCall op) : OpenCall t.session op := by
  cases op with
  | set txnId loc writeLength data evicted => exact call.1
  | _ => exact call

/-- The invariants hold in every state of an interleaving of transactions on disjoint bytes. -/
theorem reaches {begun : Session} (ready : Ready begun) {t : Tracked}
    (reach : Reaches step DisjointCall (start begun) t) (left : LsnsLeft begun t.session) :
    Bookkeeping begun t.session ∧ RollbackInvariant t := by
  refine reach.invariant_within (P := fun t => Bookkeeping begun t.session ∧ RollbackInvariant t)
    (W := fun t => LsnsLeft begun t.session) left (fun _ => ⟨ready.bookkeeping, ?_⟩) ?_ ?_
  · have none_ := ready.noTxns
    exact ⟨fun _ _ _ => rfl, fun _ _ _ known => absurd rfl known, by simp [start, none_], by simp [start, none_],
      by simp [start, none_]⟩
  · intro t op t' _ run later
    obtain ⟨s, done, rfl⟩ := Option.map_eq_some_iff.mp run
    exact later.before (Session.step_records_length done)
  · rintro t op t' ⟨books, inv⟩ later call run
    have next := inv.step books call run later
    obtain ⟨s, done, rfl⟩ := Option.map_eq_some_iff.mp run
    exact ⟨books.step call.openCall done later, next⟩

/-- What the rollback makes of a byte that the transaction has set. -/
theorem abort_byte {begun : Session} {t : Tracked} (books : Bookkeeping begun t.session) (inv : RollbackInvariant t)
    {txnId : Nat} (opened : txnId ∈ t.session.openTxns) (evicted : Nat → Option Nat) :
    ∃ d last, t.session.db.abort txnId evicted = .ok d ∧
      d.pages = redo (t.session.abortRecords txnId last) t.session.db.pages ∧
      ∀ a v, t.before txnId a = some v → d.pages a = (lastNew (t.missed txnId) a).getD v := by
  obtain ⟨d, last, run, grows⟩ := t.session.db.abort_extends txnId evicted
  refine ⟨_, last, run, grows.pages, fun a v known => ?_⟩
  let undone := (t.session.db.wal.records.drop (undoStart t.session.db.wal.records txnId)).filter (setBy txnId)
  have undo : t.session.db.abortUndo txnId = undone.reverse :=
    abortUndo_eq_drop fun r member own => books.noClr r member (own ▸ opened)
  have split : t.session.db.wal.records.filter (setBy txnId) = t.missed txnId ++ undone := by
    conv_lhs => rw [← List.take_append_drop (undoStart t.session.db.wal.records txnId) t.session.db.wal.records]
    rw [List.filter_append]
    rfl
  have isSets : ∀ r ∈ undone, isSet r := fun r member => (setBy_iff.mp (List.mem_filter.mp member).2).1
  have value : d.pages a = (firstOld undone a).getD (t.session.db.pages a) := by
    have marks : ∀ lsn body, lastNew [mark lsn txnId body] a = (mark lsn txnId body).newByte a := fun lsn body => by
      simp [lastNew]
    rw [grows.pages, redo_byte, lastNew_append, lastNew_append, undo, lastNew_compensations_reverse _ _ isSets,
      marks, marks]
    simp [mark, InMemoryWALRecord.withChecksum, InMemoryWALRecord.newByte]
  change d.pages a = _
  rw [value]
  cases old : firstOld undone a with
  | some w =>
    have known' := inv.old txnId opened a _ _ w split old
    rw [known] at known'
    cases missed : lastNew (t.missed txnId) a with
    | some u =>
      rw [missed] at known'
      exact (Option.some.inj known').symm
    | none =>
      rw [missed] at known'
      exact (Option.some.inj known').symm
  | none =>
    have untouched : lastNew undone a = none := by
      rw [lastNew_eq_none]
      intro r member
      rw [← InMemoryWALRecord.oldByte_eq_none_iff (isSets r member)]
      exact firstOld_eq_none.mp old r member
    rw [Option.getD_none, inv.current txnId opened a v known, split, lastNew_append, untouched, Option.none_or]

/-- An abort in an interleaving of transactions on disjoint bytes does what it has to, exactly
when the search for what to undo misses no SET record that matters. -/
theorem abort_restored_iff {begun : Session} (ready : Ready begun) {t : Tracked}
    (reach : Reaches step DisjointCall (start begun) t) (left : LsnsLeft begun t.session) {txnId : Nat}
    (opened : txnId ∈ t.session.openTxns) (evicted : Nat → Option Nat) :
    ∃ d, t.session.db.abort txnId evicted = .ok d ∧ (t.Restored txnId d ↔ t.MissedHarmless txnId) := by
  obtain ⟨books, inv⟩ := reaches ready reach left
  obtain ⟨d, last, run, pages, bytes⟩ := abort_byte books inv opened evicted
  refine ⟨d, run, ?_, ?_⟩
  · rintro ⟨restored, _⟩ a w missed
    have set : t.before txnId a ≠ none := by
      by_contra unset
      have untouched : lastNew (t.missed txnId) a = none := by
        rw [lastNew_eq_none]
        intro r member
        by_contra touch
        obtain ⟨inside, byId⟩ := List.mem_filter.mp member
        exact inv.touched txnId opened r (List.mem_of_mem_take inside) byId a touch unset
      rw [untouched] at missed
      cases missed
    obtain ⟨v, known⟩ := Option.ne_none_iff_exists'.mp set
    rw [known, ← restored a v known, bytes a v known, missed, Option.getD_some]
  · refine fun harmless => ⟨fun a v known => ?_, fun a id different known => ?_⟩
    · rw [bytes a v known]
      cases missed : lastNew (t.missed txnId) a with
      | none => rfl
      | some w =>
        rw [harmless a w missed] at known
        exact Option.some.inj known
    · rw [pages, redo_byte, lastNew_eq_none.mpr fun r member => ?_, Option.getD_none]
      by_contra touch
      exact different (inv.apart id txnId a known (inv.abortRecords_touch opened member touch))

/-- The second transaction has the id 2 and a BEGIN record with the id 1. It sets a byte before
the third one begins, whose BEGIN record has the id 2. -/
def misled : Tracked :=
  (run step (fun _ _ => True) (start .empty) [.begin, .commit 0, .begin, .set 2 0 1 [1] none, .begin]).getD
    (start .empty)

theorem misled_reaches : Reaches step DisjointCall (start .empty) misled := by
  have first := (@Reaches.init _ _ step DisjointCall (start .empty)).call .begin rfl trivial
  have second := first.call (.commit 0) rfl List.mem_cons_self
  have third := second.call .begin rfl trivial
  have fourth := third.call (.set 2 0 1 [1] none) rfl ?_
  · exact fourth.call .begin rfl trivial
  · exact ⟨List.mem_cons_self, ⟨by decide, by decide, by decide⟩, fun _ _ _ _ _ => rfl⟩

/-- The first transaction has set a byte. -/
def firstSets : Tracked := (run step (fun _ _ => True) (start .empty) [.begin, .set 0 0 1 [1] none]).getD (start .empty)

theorem firstSets_reaches : Reaches step DisjointCall (start .empty) firstSets := by
  refine ((@Reaches.init _ _ step DisjointCall (start .empty)).call .begin rfl trivial).call (.set 0 0 1 [1] none) rfl ?_
  exact ⟨List.mem_cons_self, ⟨by decide, by decide, by decide⟩, fun _ _ _ _ _ => rfl⟩

/-- The byte is as before when the first transaction aborts, and for the second one of the others it depends on the search. -/
theorem abort_restored_iff_misled :
    (∃ d, firstSets.session.db.abort 0 quiet = .ok d ∧ firstSets.Restored 0 d) ∧
      ∃ d, misled.session.db.abort 2 quiet = .ok d ∧ (misled.Restored 2 d ↔ misled.MissedHarmless 2) := by
  refine ⟨?_, abort_restored_iff (Session.fresh_ready _) misled_reaches (by decide) (by decide) quiet⟩
  obtain ⟨d, run, restored⟩ := abort_restored_iff (Session.fresh_ready _) firstSets_reaches (by decide) (show 0 ∈ _ by decide) quiet
  refine ⟨d, run, restored.mpr fun a w missed => ?_⟩
  rw [show firstSets.missed 0 = [] by decide] at missed
  cases missed

theorem abort_misled_not_restored :
    ¬ ∀ (begun : Session) (t : Tracked), Ready begun → Reaches step DisjointCall (start begun) t →
      LsnsLeft begun t.session → ∀ txnId ∈ t.session.openTxns, ∀ evicted,
      ∃ d, t.session.db.abort txnId evicted = .ok d ∧ t.Restored txnId d := by
  intro claim
  have ready := Session.fresh_ready fun _ => 0
  obtain ⟨books, inv⟩ := reaches ready misled_reaches (by decide)
  have opened : 2 ∈ misled.session.openTxns := by decide
  obtain ⟨d, run, restored, _⟩ := claim _ misled ready misled_reaches (by decide) 2 opened quiet
  obtain ⟨d', _, run', _, bytes⟩ := abort_byte books inv opened quiet
  cases Except.ok.inj (run.symm.trans run')
  have before : misled.before 2 0 = some 0 := by decide
  have kept : lastNew (misled.missed 2) 0 = some 1 := by decide
  have found := bytes 0 0 before
  rw [restored 0 0 before, kept] at found
  cases found

end Tracked

end DiskMap
