import DiskMap.Map.MapRuns
import DiskMap.Wal.SetAndUndo
import DiskMap.Wal.Versions

namespace DiskMap
open ByteMemory Database GuardedRun DiskMap.Tree

/-- The pages that the transaction sees are a map with the contents. -/
def IsMap (t : Tx) (c : Contents) : Prop := ∃ tree lists, WellFormed tree lists t ∧ tree.contents = c

inductive MapOp
  | begin
  /-- `PageHandle::write`, as a call makes it. -/
  | write (page offset length : Nat) (bytes : List UInt8) (evicted : Option Nat)
  /-- A call of the open transaction returns. -/
  | returns (beyond : Mem) (call : Call)
  | commit
  | abort (evicted : Nat → Option Nat)
  | evict (pageLsn : Nat)
  | requestCheckpoint
  | checkpoint

/-- A map in a session of the WAL: as the last commit has left it, as the calls of the open transaction have left it that
have returned, and with the writes made since. `calls` are the ones of the open transaction, and `committed` those of
each transaction that has committed. -/
structure MapSession where
  session : Session
  stored : Tx
  current : Tx
  working : Tx
  calls : List Call
  committed : List (List Call)

namespace MapSession

def start (session : Session) (t : Tx) : MapSession where
  session
  stored := t
  current := t
  working := t
  calls := []
  committed := []

/-- What an operation does in the WAL. -/
def walOp (s : MapSession) : MapOp → Option WalOp
  | .begin => some .begin
  | .write page offset length bytes evicted =>
    s.session.openTxns.head?.map fun txnId => .set txnId (page * pageSize + offset) length bytes evicted
  | .returns _ _ => none
  | .commit => s.session.openTxns.head?.map .commit
  | .abort evicted => s.session.openTxns.head?.map fun txnId => .abort txnId evicted
  | .evict pageLsn => some (.evict pageLsn)
  | .requestCheckpoint => some .requestCheckpoint
  | .checkpoint => some .checkpoint

/-- What it does to the map. -/
def advance (s : MapSession) : MapOp → MapSession
  | .begin => { s with current := s.stored, working := s.stored, calls := [] }
  | .write page offset length bytes _ => { s with working := s.working.write page offset length bytes }
  | .commit => { s with stored := s.current, calls := [], committed := s.committed ++ [s.calls] }
  | .abort _ => { s with current := s.stored, working := s.stored, calls := [] }
  | _ => s

def step (s : MapSession) (op : MapOp) : Option MapSession :=
  match op with
  | .returns beyond call =>
    match call.run beyond s.current with
    | .done _ t => some { s with current := t, working := t, calls := s.calls ++ [call] }
    | _ => none
  | _ =>
    match s.walOp op with
    | some walOp => (s.session.step walOp).map fun session => { s.advance op with session }
    | none => none

/-- The contents after the transactions that have committed and the calls that have returned. -/
def contents (c : Contents) (s : MapSession) : Contents := c.after (s.committed.flatten ++ s.calls)

/-- One transaction at a time, of calls that the map they find admits. A call returns when its program's writes have been
made, and `commit` comes between two calls. -/
def Allowed (c : Contents) (s : MapSession) : MapOp → Prop
  | .begin => s.session.openTxns = []
  | .write page offset length bytes _ => InsidePage (page * pageSize + offset) length bytes
  | .returns beyond call => s.session.openTxns ≠ [] ∧
      (∃ tree lists, WellFormed tree lists s.current ∧ tree.contents = s.contents c ∧ call.Admissible beyond tree s.current) ∧
      ∀ r t, call.run beyond s.current = .done r t → s.working.mem = t.mem
  | .commit => s.working.mem = s.current.mem
  | _ => True

/-- An operation that leads from `s` to `s'` is under way, or none is. -/
def During (c : Contents) (s s' : MapSession) : Prop :=
  s' = s ∨ ∃ op, s.Allowed c op ∧ op ≠ .checkpoint ∧ s.step op = some s'

variable {c : Contents} {start : Session} {s s' : MapSession} {op : MapOp} {mems : List Mem}

/-- The WAL underneath: the pages after each commit are a map with the contents that its transaction leads to. -/
structure Simulates (c : Contents) (start : Session) (s : MapSession) (mems : List Mem) : Prop where
  reach : Reaches Versions.step Versions.Serial (Versions.start start) ⟨s.session, mems⟩
  count : mems.length = s.committed.length
  version : ∀ (k : Nat) m, (start.db.pages :: mems)[k]? = some m → ∃ t : Tx, t.mem = m ∧ IsMap t (c.after (s.committed.take k).flatten)
  last : (start.db.pages :: mems)[mems.length]? = some s.stored.mem
  stored : IsMap s.stored (c.after s.committed.flatten)
  current : IsMap s.current (s.contents c)
  working : s.session.openTxns ≠ [] → s.working.mem = s.session.db.pages

theorem Simulates.init {t : Tx} (is : IsMap t c) (pages : t.mem = start.db.pages) (idle : start.openTxns = []) :
    Simulates c start (MapSession.start start t) [] where
  reach := .init
  count := rfl
  version k m found := by
    cases k with
    | zero => exact ⟨t, pages.trans (Option.some.inj found), is⟩
    | succ k => simp at found
  last := congrArg some pages.symm
  stored := is
  current := is
  working opened := absurd idle opened

/-- What an operation of the map does in the WAL. -/
def Linked (op : MapOp) (v v' : Versions) : Prop :=
  v' = v ∨ ∃ walOp, v.Serial walOp ∧ (walOp = .checkpoint → op = .checkpoint) ∧ v.step walOp = some v'

theorem contents_append (c : Contents) (front : List Call) (call : Call) : c.after (front ++ [call]) = (c.after front).apply call := by
  rw [Contents.after, List.foldl_append]
  rfl

/-- A call that returns leaves the map that it is specified to leave, in the pages of the WAL. -/
theorem Simulates.returns (sim : Simulates c start s mems) {beyond : Mem} {call : Call} (allowed : s.Allowed c (.returns beyond call))
    (run : s.step (.returns beyond call) = some s') : Simulates c start s' mems ∧ s'.session = s.session := by
  obtain ⟨opened, ⟨tree, lists, wf, contents, admissible⟩, made⟩ := allowed
  rcases wf.call_fits admissible with ⟨r, t, ended, ⟨_, tree', lists', wf', contents', _⟩, _⟩ | ⟨never, _⟩
  · simp only [step, ended] at run
    cases Option.some.inj run
    refine ⟨⟨sim.reach, sim.count, sim.version, sim.last, sim.stored, ⟨tree', lists', wf', ?_⟩, fun _ => ?_⟩, rfl⟩
    · rw [contents', contents, MapSession.contents, MapSession.contents, ← List.append_assoc, contents_append]
    · exact (made r t ended).symm.trans (sim.working opened)
  · simp only [step, never] at run
    cases run

theorem step_wal (other : ∀ beyond call, op ≠ .returns beyond call) (run : s.step op = some s') :
    ∃ walOp session, s.walOp op = some walOp ∧ s.session.step walOp = some session ∧ s' = { s.advance op with session } := by
  unfold step at run
  split at run
  · exact absurd rfl (other _ _)
  · split at run
    · rename_i walOp is
      obtain ⟨session, done, same⟩ := Option.map_eq_some_iff.mp run
      exact ⟨walOp, session, is, done, same.symm⟩
    · cases run

/-- Everything but a commit keeps the map that is stored. -/
theorem Simulates.keep (sim : Simulates c start s mems) (s' : MapSession) {walOp : WalOp} (call : SerialCall s.session walOp)
    (other : ∀ txnId, walOp ≠ .commit txnId) (run : s.session.step walOp = some s'.session) (stored : s'.stored = s.stored)
    (committed : s'.committed = s.committed) (current : IsMap s'.current (s'.contents c))
    (working : s'.session.openTxns ≠ [] → s'.working.mem = s'.session.db.pages) :
    Simulates c start s' mems ∧ Versions.step ⟨s.session, mems⟩ walOp = some ⟨s'.session, mems⟩ := by
  have next : Versions.step ⟨s.session, mems⟩ walOp = some ⟨s'.session, mems⟩ := by
    simp only [Versions.step, run]
  refine ⟨⟨sim.reach.next call next, ?_, ?_, ?_, ?_, current, working⟩, next⟩
  · rw [committed]
    exact sim.count
  · rw [committed]
    exact sim.version
  · rw [stored]
    exact sim.last
  · rw [stored, committed]
    exact sim.stored

theorem erase_only {l : List Nat} (single : l.length ≤ 1) {txnId : Nat} (opened : txnId ∈ l) : l.erase txnId = [] := by
  obtain ⟨one, shape⟩ := List.length_eq_one_iff.mp (single.antisymm (List.length_pos_of_mem opened))
  rw [shape, List.mem_singleton] at opened
  rw [shape, opened, List.erase_cons_head]

/-- A commit stores the map that the calls have made. -/
theorem Simulates.commit (sim : Simulates c start s mems) {txnId : Nat} (opened : txnId ∈ s.session.openTxns)
    (only : s.session.openTxns.length ≤ 1) (made : s.working.mem = s.current.mem) {session : Session}
    (run : s.session.step (.commit txnId) = some session) :
    Simulates c start { s.advance .commit with session } (mems ++ [s.session.db.pages]) ∧
      Versions.step ⟨s.session, mems⟩ (.commit txnId) = some ⟨session, mems ++ [s.session.db.pages]⟩ := by
  have next : Versions.step ⟨s.session, mems⟩ (.commit txnId) = some ⟨session, mems ++ [s.session.db.pages]⟩ := by
    simp only [Versions.step, run]
  have pages : s.current.mem = s.session.db.pages := made.symm.trans (sim.working (List.ne_nil_of_mem opened))
  have whole : (s.committed ++ [s.calls]).flatten = s.committed.flatten ++ s.calls := by simp
  have last : (start.db.pages :: (mems ++ [s.session.db.pages]))[mems.length + 1]? = some s.session.db.pages := by simp
  have stored : IsMap s.current (c.after (s.committed ++ [s.calls]).flatten) := by
    rw [whole]
    exact sim.current
  refine ⟨⟨sim.reach.next (show SerialCall s.session (.commit txnId) from opened) next, ?_, fun k m found => ?_, ?_, stored, ?_, fun more => ?_⟩, next⟩
  · change (mems ++ [s.session.db.pages]).length = (s.committed ++ [s.calls]).length
    rw [List.length_append, List.length_append, sim.count]
    rfl
  · change ∃ t : Tx, t.mem = m ∧ IsMap t (c.after ((s.committed ++ [s.calls]).take k).flatten)
    by_cases old : k < (start.db.pages :: mems).length
    · rw [← List.cons_append, List.getElem?_append_left old] at found
      rw [List.length_cons, sim.count] at old
      rw [List.take_append_of_le_length (by omega)]
      exact sim.version k m found
    · have within := (List.getElem?_eq_some_iff.mp found).1
      simp only [List.length_cons, List.length_append, List.length_nil] at within old
      have newest : k = mems.length + 1 := by omega
      rw [newest, last] at found
      rw [List.take_of_length_le (by rw [newest, List.length_append, sim.count]; rfl)]
      exact ⟨s.current, pages.trans (Option.some.inj found), stored⟩
  · rw [List.length_append]
    exact last.trans (congrArg some pages.symm)
  · change IsMap s.current (c.after ((s.committed ++ [s.calls]).flatten ++ []))
    rw [List.append_nil]
    exact stored
  · obtain ⟨add, _, effect⟩ := Session.step_appends run
    refine absurd ?_ more
    cases effect with
    | commit opens => exact opens.trans (erase_only only opened)
    | other kind => simp at kind

theorem mem_of_head {l : List Nat} {walOp : WalOp} {f : Nat → WalOp} (is : l.head?.map f = some walOp) :
    ∃ txnId, txnId ∈ l ∧ f txnId = walOp := by
  obtain ⟨txnId, first, same⟩ := Option.map_eq_some_iff.mp is
  exact ⟨txnId, List.mem_of_mem_head? first, same⟩

theorem serialCall {walOp : WalOp} (allowed : s.Allowed c op) (is : s.walOp op = some walOp) : SerialCall s.session walOp := by
  cases op with
  | begin =>
    cases Option.some.inj is
    exact allowed
  | write page offset length bytes evicted =>
    obtain ⟨txnId, opened, rfl⟩ := mem_of_head is
    exact ⟨opened, allowed⟩
  | returns beyond call => cases is
  | commit =>
    obtain ⟨txnId, opened, rfl⟩ := mem_of_head is
    exact opened
  | abort evicted =>
    obtain ⟨txnId, opened, rfl⟩ := mem_of_head is
    exact opened
  | evict pageLsn =>
    cases Option.some.inj is
    trivial
  | requestCheckpoint =>
    cases Option.some.inj is
    trivial
  | checkpoint =>
    cases Option.some.inj is
    trivial

/-- Flushes and checkpoints do nothing to the map. -/
theorem Simulates.aside (sim : Simulates c start s mems) {walOp : WalOp} {session : Session}
    (kind : walOp = .requestCheckpoint ∨ walOp = .checkpoint ∨ ∃ pageLsn, walOp = .evict pageLsn) (serial : SerialCall s.session walOp)
    (run : s.session.step walOp = some session) : Simulates c start { s with session } mems ∧
      Versions.step ⟨s.session, mems⟩ walOp = some ⟨session, mems⟩ := by
  have other : ∀ txnId, walOp ≠ .commit txnId := by
    rintro txnId rfl
    simp at kind
  obtain ⟨add, appends, effect⟩ := Session.step_appends run
  refine sim.keep { s with session } serial other run rfl rfl sim.current ?_
  cases effect with
  | other _ opens => exact fun more => (sim.working (opens ▸ more)).trans appends.pages.symm
  | begin | set | commit | abort => simp at kind

/-- Each operation of the map is one of the WAL, or a call that returns. -/
theorem Simulates.step (sim : Simulates c start s mems) (inv : SessionInvariant start s.session) (order : SerialOrder s.session)
    (tracks : Versions.Tracks start ⟨s.session, mems⟩) (allowed : s.Allowed c op) (run : s.step op = some s') :
    ∃ mems', Simulates c start s' mems' ∧ Linked op ⟨s.session, mems⟩ ⟨s'.session, mems'⟩ := by
  by_cases call : ∃ beyond call, op = .returns beyond call
  · obtain ⟨beyond, call, rfl⟩ := call
    obtain ⟨next, same⟩ := sim.returns allowed run
    exact ⟨mems, next, Or.inl (by rw [same])⟩
  obtain ⟨walOp, session, is, done, rfl⟩ := step_wal (fun beyond call_ same => call ⟨beyond, call_, same⟩) run
  have serial := serialCall allowed is
  obtain ⟨add, appends, effect⟩ := Session.step_appends done
  have stored : IsMap s.stored (c.after (s.committed.flatten ++ [])) := by
    rw [List.append_nil]
    exact sim.stored
  cases op with
  | returns beyond call_ => exact absurd ⟨beyond, call_, rfl⟩ call
  | begin =>
    cases Option.some.inj is
    have begun : s.stored.mem = s.session.db.pages :=
      Option.some.inj (sim.last.symm.trans (tracks.idle inv allowed))
    have pages : session.db.pages = s.session.db.pages := by
      cases effect with
      | begin => exact appends.pages
      | other kind => simp at kind
    obtain ⟨next, linked⟩ := sim.keep { s.advance .begin with session } serial (by simp) done rfl rfl stored
      fun _ => begun.trans pages.symm
    exact ⟨mems, next, Or.inr ⟨_, serial, by simp, linked⟩⟩
  | write page offset length bytes evicted =>
    obtain ⟨txnId, opened, rfl⟩ := mem_of_head is
    -- the record that the WAL applies writes what the handle is given
    have pages : session.db.pages = overwrite s.session.db.pages (page * pageSize + offset) length bytes := by
      cases effect with
      | set => exact appends.pages.trans (setRecord_writes s.session.db txnId allowed s.session.db.pages)
      | other kind => simp at kind
    have before := sim.working (List.ne_nil_of_mem opened)
    obtain ⟨next, linked⟩ := sim.keep { s.advance (.write page offset length bytes evicted) with session } serial
      (by simp) done rfl rfl sim.current fun _ => by
        change overwrite s.working.mem _ _ _ = _
        rw [before, pages]
    exact ⟨mems, next, Or.inr ⟨_, serial, by simp, linked⟩⟩
  | commit =>
    obtain ⟨txnId, opened, rfl⟩ := mem_of_head is
    obtain ⟨next, linked⟩ := sim.commit opened order.single allowed done
    exact ⟨_, next, Or.inr ⟨_, serial, by simp, linked⟩⟩
  | abort evicted =>
    obtain ⟨txnId, opened, rfl⟩ := mem_of_head is
    have closed : session.openTxns = [] := by
      cases effect with
      | abort opens => exact opens.trans (erase_only order.single opened)
      | other kind => simp at kind
    obtain ⟨next, linked⟩ := sim.keep { s.advance (.abort evicted) with session } serial (by simp) done rfl rfl stored
      fun more => absurd closed more
    exact ⟨mems, next, Or.inr ⟨_, serial, by simp, linked⟩⟩
  | evict pageLsn =>
    cases Option.some.inj is
    obtain ⟨next, linked⟩ := sim.aside (by simp) serial done
    exact ⟨mems, next, Or.inr ⟨_, serial, by simp, linked⟩⟩
  | requestCheckpoint =>
    cases Option.some.inj is
    obtain ⟨next, linked⟩ := sim.aside (by simp) serial done
    exact ⟨mems, next, Or.inr ⟨_, serial, by simp, linked⟩⟩
  | checkpoint =>
    cases Option.some.inj is
    obtain ⟨next, linked⟩ := sim.aside (by simp) serial done
    exact ⟨mems, next, Or.inr ⟨_, serial, fun _ => rfl, linked⟩⟩

theorem step_length (run : s.step op = some s') : s.session.db.wal.records.length ≤ s'.session.db.wal.records.length := by
  by_cases call : ∃ beyond call, op = .returns beyond call
  · obtain ⟨beyond, call, rfl⟩ := call
    unfold step at run
    dsimp only at run
    split at run
    · cases Option.some.inj run
      exact le_rfl
    · cases run
  · obtain ⟨walOp, session, _, done, rfl⟩ := step_wal (fun beyond call_ same => call ⟨beyond, call_, same⟩) run
    exact Session.step_records_length done

theorem Simulates.invariants (sim : Simulates c start s mems) (ready : Ready start) (left : LsnsLeft start s.session) :
    SessionInvariant start s.session ∧ SerialOrder s.session ∧ Versions.Tracks start ⟨s.session, mems⟩ := by
  obtain ⟨isolated, order⟩ := SerialOrder.reaches ready (Versions.reaches_session sim.reach) left
  exact ⟨ready.reaches isolated left, order, Versions.Tracks.reaches ready sim.reach left⟩

theorem simulates {t : Tx} (ready : Ready start) (is : IsMap t c) (pages : t.mem = start.db.pages)
    (reach : Reaches step (Allowed c) (MapSession.start start t) s) (left : LsnsLeft start s.session) :
    ∃ mems, Simulates c start s mems := by
  induction reach with
  | init => exact ⟨[], .init is pages ready.noTxns⟩
  | next _ allowed run ih =>
    have before := left.before (step_length run)
    obtain ⟨mems, sim⟩ := ih before
    obtain ⟨inv, order, tracks⟩ := sim.invariants ready before
    obtain ⟨mems', next, _⟩ := sim.step inv order tracks allowed run
    exact ⟨mems', next⟩

/-- Between two transactions the pages are the map that is stored. -/
theorem idle_map {t : Tx} (ready : Ready start) (is : IsMap t c) (pages : t.mem = start.db.pages)
    (reach : Reaches step (Allowed c) (MapSession.start start t) s) (left : LsnsLeft start s.session) (idle : s.session.openTxns = []) :
    s.stored.mem = s.session.db.pages ∧ IsMap s.stored (c.after s.committed.flatten) := by
  obtain ⟨mems, sim⟩ := simulates ready is pages reach left
  obtain ⟨inv, _, tracks⟩ := sim.invariants ready left
  exact ⟨Option.some.inj (sim.last.symm.trans (tracks.idle inv idle)), sim.stored⟩

theorem During.versions {t : Tx} (during : s.During c s') (ready : Ready start) (is : IsMap t c) (pages : t.mem = start.db.pages)
    (reach : Reaches step (Allowed c) (MapSession.start start t) s) (left : LsnsLeft start s'.session) :
    ∃ mems mems', Simulates c start s mems ∧ Simulates c start s' mems' ∧
      Versions.During ⟨s.session, mems⟩ ⟨s'.session, mems'⟩ := by
  rcases during with rfl | ⟨op, allowed, other, run⟩
  · obtain ⟨mems, sim⟩ := simulates ready is pages reach left
    exact ⟨mems, mems, sim, sim, Or.inl rfl⟩
  · have before := left.before (step_length run)
    obtain ⟨mems, sim⟩ := simulates ready is pages reach before
    obtain ⟨inv, order, tracks⟩ := sim.invariants ready before
    obtain ⟨mems', sim', linked⟩ := sim.step inv order tracks allowed run
    refine ⟨mems, mems', sim, sim', linked.imp_right ?_⟩
    rintro ⟨walOp, serial, only, done⟩
    exact ⟨walOp, serial, fun same => other (only same), done⟩

/-- The recovery from a crash finds the map that the first transactions have left: all that have committed, and perhaps
the one whose commit was under way. -/
theorem recovered {t : Tx} (ready : Ready start) (is : IsMap t c) (pages : t.mem = start.db.pages)
    (reach : Reaches step (Allowed c) (MapSession.start start t) s) (during : s.During c s') (left : LsnsLeft start s'.session)
    (crash : Crash s.session s'.session) (harmless : crash.TornHarmless) (iteration : SetIteration)
    (evictedRedo evictedUndo : Nat → Option Nat) :
    ∃ d, recover iteration crash.reopened evictedRedo evictedUndo = .ok d ∧
      s.committed.length ≤ crash.version start ∧ crash.version start ≤ s'.committed.length ∧
      ∃ t', t'.mem = d.pages ∧ IsMap t' (c.after (s'.committed.take (crash.version start)).flatten) := by
  obtain ⟨mems, mems', sim, sim', under⟩ := during.versions ready is pages reach left
  obtain ⟨d, run, lower, upper, version⟩ :=
    recover_version ready sim.reach under left crash harmless iteration evictedRedo evictedUndo
  refine ⟨d, run, ?_, ?_, sim'.version _ _ version⟩
  · rw [← sim.count]
    exact lower
  · rw [← sim'.count]
    exact upper

end MapSession

/-- Lives of a database with a map in it: each ends in a crash, from which the next process recovers. The transactions are
those that the recoveries have found. -/
inductive MapLives (c : Contents) : Session → List (List Call) → Prop
  | first {start t} : Ready start → t.mem = start.db.pages → IsMap t c → MapLives c start []
  | restart {start done t s s' crash iteration evictedRedo evictedUndo d} : MapLives c start done →
      t.mem = start.db.pages → IsMap t (c.after done.flatten) →
      Reaches MapSession.step (MapSession.Allowed (c.after done.flatten)) (.start start t) s →
      s.During (c.after done.flatten) s' → LsnsLeft start s'.session → @Crash.TornHarmless s.session s'.session crash →
      RecoveryLsnsLeft crash.survivors → recover iteration crash.reopened evictedRedo evictedUndo = .ok d →
      MapLives c (Session.restarted d) (done ++ s'.committed.take (crash.version start))

theorem after_append (c : Contents) (front back : List (List Call)) :
    c.after (front ++ back).flatten = (c.after front.flatten).after back.flatten := by
  rw [List.flatten_append]
  exact List.foldl_append

/-- Each life begins with the map of the transactions that have been recovered. -/
theorem MapLives.holds {c : Contents} {start : Session} {done : List (List Call)} (lives : MapLives c start done) :
    Ready start ∧ ∃ t, t.mem = start.db.pages ∧ IsMap t (c.after done.flatten) := by
  induction lives with
  | @first start t ready pages is => exact ⟨ready, t, pages, is⟩
  | @restart start done t s s' crash iteration evictedRedo evictedUndo d _ pages is reach during left harmless room run ih =>
    obtain ⟨mems, mems', sim, _, under⟩ := during.versions ih.1 is pages reach left
    obtain ⟨isolated, between⟩ := under.isolated ih.1 sim.reach left
    obtain ⟨next, _⟩ := Crash.restarted ih.1 isolated between left crash room run
    obtain ⟨d', run', _, _, t', mem, is'⟩ :=
      MapSession.recovered ih.1 is pages reach during left crash harmless iteration evictedRedo evictedUndo
    cases Except.ok.inj (run'.symm.trans run)
    refine ⟨next, t', mem, ?_⟩
    rw [after_append]
    exact is'

/-- However many crashes and recoveries lie behind a database, the recovery from the next crash finds the map that the calls
of the committed transactions lead to, of each transaction all or none, and the readers show it. -/
theorem map_survives_crashes {c : Contents} {start : Session} {done : List (List Call)} {t : Tx} {s s' : MapSession}
    (lives : MapLives c start done) (pages : t.mem = start.db.pages) (is : IsMap t (c.after done.flatten))
    (reach : Reaches MapSession.step (MapSession.Allowed (c.after done.flatten)) (.start start t) s)
    (during : s.During (c.after done.flatten) s') (left : LsnsLeft start s'.session) (crash : Crash s.session s'.session)
    (harmless : crash.TornHarmless) (iteration : SetIteration) (evictedRedo evictedUndo : Nat → Option Nat) :
    ∃ d, recover iteration crash.reopened evictedRedo evictedUndo = .ok d ∧
      ∃ k t', s.committed.length ≤ k ∧ k ≤ s'.committed.length ∧ t'.mem = d.pages ∧
        IsMap t' (c.after (done ++ s'.committed.take k).flatten) ∧ Shows (c.after (done ++ s'.committed.take k).flatten) t' := by
  obtain ⟨d, run, lower, upper, t', mem, is'⟩ :=
    MapSession.recovered lives.holds.1 is pages reach during left crash harmless iteration evictedRedo evictedUndo
  rw [← after_append] at is'
  refine ⟨d, run, crash.version start, t', lower, upper, mem, is', ?_⟩
  obtain ⟨tree, lists, wf, contents⟩ := is'
  rw [← contents]
  exact wf.shows

section
variable {c : Contents} {s : MapSession} {txnId : Nat} {rest : List Nat}

theorem MapSession.write_step (opened : s.session.openTxns = txnId :: rest) (page offset length : Nat) (bytes : List UInt8) :
    s.step (.write page offset length bytes none) = some { s with
      working := s.working.write page offset length bytes
      session := { s.session with db := s.session.db.set txnId (page * pageSize + offset) length bytes none } } := by
  have is : s.walOp (.write page offset length bytes none) = some (.set txnId (page * pageSize + offset) length bytes none) := by
    simp [walOp, opened]
  simp only [step, is]
  rfl

/-- The steps of calls. -/
def MapSession.Calls (c : Contents) (s : MapSession) (op : MapOp) : Prop :=
  s.Allowed c op ∧ ((∃ page offset length bytes evicted, op = .write page offset length bytes evicted) ∨
    ∃ beyond call, op = .returns beyond call)

theorem MapSession.commit_step (opened : s.session.openTxns = txnId :: rest) : s.step .commit = some { s.advance .commit with
    session := { s.session with db := s.session.db.commit txnId, openTxns := s.session.openTxns.erase txnId } } := by
  have is : s.walOp .commit = some (.commit txnId) := by simp [walOp, opened]
  simp only [step, is]
  rfl

/-- Writes of whole pages lead to any pages that differ in the first ones only. -/
theorem MapSession.writes_lead (opened : s.session.openTxns = txnId :: rest) (m : Mem) {n : Nat} (bound : n ≤ maxPages) :
    ∃ session working, Reaches MapSession.step (MapSession.Calls c) s { s with session, working } ∧
      session.openTxns = txnId :: rest ∧ session.db.wal.records.length = s.session.db.wal.records.length + n ∧
      working.mem = fun a => if a < n * pageSize then m a else s.working.mem a := by
  induction n with
  | zero => exact ⟨s.session, s.working, .init, opened, rfl, funext fun a => by rw [if_neg (by omega)]⟩
  | succ n ih =>
    obtain ⟨session, working, reach, opened', records, mem⟩ := ih (by omega)
    have next := write_step (s := { s with session, working }) opened' n 0 pageSize (slice m (n * pageSize) pageSize)
    have allowed : MapSession.Calls c { s with session, working } (.write n 0 pageSize (slice m (n * pageSize) pageSize) none) := by
      refine ⟨⟨?_, ?_, (slice_length _ _ _).le⟩, Or.inl ⟨_, _, _, _, _, rfl⟩⟩
      · rw [Nat.add_zero, Nat.mul_mod_left, Nat.zero_add]
      · unfold maxPages at bound
        unfold pageSize
        omega
    refine ⟨_, _, reach.next allowed next, opened', ?_, ?_⟩
    · have grows := session.db.set_extends txnId (n * pageSize + 0) pageSize (slice m (n * pageSize) pageSize) none
      rw [grows.wal.records, List.length_append, records]
      rfl
    · funext a
      change overwrite working.mem (n * pageSize + 0) pageSize _ a = _
      rw [Nat.add_zero, Nat.succ_mul]
      by_cases inside : n * pageSize ≤ a ∧ a < n * pageSize + pageSize
      · rw [overwrite_inside inside.1 inside.2, if_pos inside.2, slice_getD m _ (by omega), Nat.add_sub_cancel' inside.1]
      · rw [overwrite_outside (by omega), mem]
        dsimp only
        by_cases before : a < n * pageSize
        · rw [if_pos before, if_pos (by omega)]
        · rw [if_neg before, if_neg (by omega)]

/-- Every call that the map admits can be made: some writes lead to the pages that its program leaves. -/
theorem MapSession.call_possible {tree : Tree} {lists : Nat → FreeList} {beyond : Mem} {call : Call}
    (opened : s.session.openTxns = txnId :: rest) (made : s.working.mem = s.current.mem) (wf : WellFormed tree lists s.current)
    (contents : tree.contents = s.contents c) (admissible : call.Admissible beyond tree s.current)
    (room : MetaPage.nextFreePage s.current.mem + call.cost (tree.contents call.key) ≤ maxPages) :
    ∃ session t n, Reaches MapSession.step (MapSession.Calls c) s
        { s with session, current := t, working := t, calls := s.calls ++ [call] } ∧
      session.openTxns = txnId :: rest ∧ session.db.wal.records.length = s.session.db.wal.records.length + n ∧
      n ≤ MetaPage.nextFreePage s.current.mem + call.cost (tree.contents call.key) := by
  obtain ⟨r, t, ended, ⟨_, tree', lists', wf', _, _⟩, le⟩ :=
    (wf.call_fits admissible).resolve_right fun stuck => Nat.not_lt.mpr room stuck.2
  have grown : max (MetaPage.nextFreePage s.current.mem) (MetaPage.nextFreePage t.mem) ≤
      MetaPage.nextFreePage s.current.mem + call.cost (tree.contents call.key) := max_le (Nat.le_add_right _ _) le
  obtain ⟨session, working, reach, opened', records, mem⟩ := writes_lead (c := c) opened t.mem (grown.trans room)
  have same : working.mem = t.mem := by
    rw [mem]
    funext a
    split
    · rfl
    · rename_i far
      -- neither map has anything behind its last page
      have page : max (MetaPage.nextFreePage s.current.mem) (MetaPage.nextFreePage t.mem) ≤ a / pageSize :=
        (Nat.le_div_iff_mul_le (by decide)).mpr (Nat.not_lt.mp far)
      have zero := wf.space.fresh _ ((le_max_left _ _).trans page) _ (Nat.mod_lt a (by decide : 0 < pageSize))
      have zero' := wf'.space.fresh _ ((le_max_right _ _).trans page) _ (Nat.mod_lt a (by decide : 0 < pageSize))
      rw [Nat.div_add_mod'] at zero zero'
      rw [made, zero, zero']
  have allowed : MapSession.Calls c { s with session, working } (.returns beyond call) := by
    refine ⟨⟨fun none => ?_, ⟨tree, lists, wf, contents, admissible⟩, fun r' t' ended' => ?_⟩, Or.inr ⟨_, _, rfl⟩⟩
    · rw [show session.openTxns = [] from none] at opened'
      cases opened'
    · obtain ⟨_, rfl⟩ := Outcome.done.inj (ended.symm.trans ended')
      exact same
  have returns : MapSession.step { s with session, working } (.returns beyond call) =
      some { s with session, current := t, working := t, calls := s.calls ++ [call] } := by
    simp only [step, ended]
  exact ⟨session, t, _, reach.next allowed returns, opened', records, grown⟩

/-- A transaction has begun in a new map. -/
def MapSession.begun (t : Tx) : MapSession :=
  ((MapSession.start (Session.fresh t.mem) t).step .begin).getD (MapSession.start (Session.fresh t.mem) t)

theorem MapSession.append_called : ∃ t session t', IsMap t Contents.none ∧ Reaches MapSession.step (MapSession.Calls Contents.none) (begun t)
      { begun t with session, current := t', working := t', calls := [.append [97] [1, 2]] } ∧
    session.openTxns = [0] ∧ session.db.wal.records.length + 1 < 2 ^ 32 := by
  obtain ⟨_, t, _, wf, next⟩ := construct_wellFormed (m := fun _ => 0) fun _ _ _ _ => rfl
  have safe : SafeRun (node rootPage noChildren).contents shortLived := shortLived_safe
  obtain ⟨session, t', n, reach, opened, records, few⟩ :=
    MapSession.call_possible (s := begun t) (c := Contents.none) rfl rfl wf rfl (safe.1.admissible wf fun _ => 0)
      (by
        change MetaPage.nextFreePage t.mem + _ ≤ _
        rw [next]
        decide)
  refine ⟨t, session, t', ⟨_, _, wf, rfl⟩, reach, opened, ?_⟩
  change n ≤ MetaPage.nextFreePage t.mem + _ at few
  rw [next] at few
  rw [records, show (begun t).session.db.wal.records.length = 1 from rfl]
  refine (Nat.add_le_add_right (Nat.add_le_add_left few _) 1).trans_lt ?_
  decide

end

/-- A transaction that appends to a new map commits, and the process crashes. -/
theorem map_survives_crashes_append : ∃ (t : Tx) (s : MapSession) (crash : Crash s.session s.session),
    IsMap t Contents.none ∧ s.committed = [[.append [97] [1, 2]]] ∧ ∃ d, recover .asInserted crash.reopened quiet quiet = .ok d ∧
      ∃ k t', s.committed.length ≤ k ∧ k ≤ s.committed.length ∧ t'.mem = d.pages ∧
        IsMap t' (Contents.none.after ([] ++ s.committed.take k).flatten) ∧
        Shows (Contents.none.after ([] ++ s.committed.take k).flatten) t' := by
  obtain ⟨t, session, t', is, called, opened, small⟩ := MapSession.append_called
  have begun : Reaches MapSession.step (MapSession.Allowed Contents.none) (.start (Session.fresh t.mem) t) (.begun t) :=
    Reaches.init.call MapOp.begin rfl rfl
  have reach := (begun.trans (called.mono fun _ _ calls => calls.1)).call MapOp.commit (MapSession.commit_step opened) rfl
  generalize committed : ({ session with db := session.db.commit 0, openTxns := session.openTxns.erase 0 } : Session) = after at reach
  have length : after.db.wal.records.length = session.db.wal.records.length + 1 := by
    rw [← committed]
    exact List.length_append
  have flushed : after.db.wal.unflushedRecordIndex = after.db.wal.records.length := by
    rw [← committed]
    rfl
  have left : LsnsLeft (Session.fresh t.mem) after := by
    unfold LsnsLeft
    rw [length]
    exact (Nat.zero_add _).trans_lt small
  obtain ⟨mems, sim⟩ := MapSession.simulates (Session.fresh_ready t.mem) is rfl reach left
  have inv := (sim.invariants (Session.fresh_ready t.mem) left).1
  exact ⟨t, _, Crash.plain after flushed.le inv.durableUpper, is, rfl,
    map_survives_crashes (.first (Session.fresh_ready t.mem) rfl is) rfl is reach (Or.inl rfl) left _ (Or.inl (inv.durableUpper.trans flushed.ge))
      .asInserted quiet quiet⟩

end DiskMap
