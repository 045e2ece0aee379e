import DiskMap.Wal.SessionInvariant

namespace DiskMap
open ByteMemory Database GuardedRun

/-- The counters and the records of a WAL hold what their fields can hold. -/
structure WAL.Typed (w : WAL) : Prop where
  nextLsn : w.nextLsn < 2 ^ 32
  nextTxnId : w.nextTxnId < 2 ^ 32
  records : ∀ r ∈ w.records, r.Valid

/-- Calls with any 32-bit transaction id, whether that transaction is open or not. -/
def TypedCall (_ : Session) : WalOp → Prop
  | .set txnId loc writeLength data _ => txnId < 2 ^ 32 ∧ InsidePage loc writeLength data
  | .commit txnId => txnId < 2 ^ 32
  | .abort txnId _ => txnId < 2 ^ 32
  | _ => True

namespace WAL

/-- The flushes that write the chunks of a list of records, one after another. -/
def flushChunks (w : WAL) : List (List InMemoryWALRecord) → WAL
  | [] => w
  | chunk :: rest => flushChunks { w with records := w.records ++ chunk }.flush rest

theorem pwrite_behind (front tail bytes : List UInt8) :
    pwrite (front ++ tail) front.length bytes = front ++ bytes ++ tail.drop bytes.length := by
  simp [pwrite, List.drop_append]

/-- The chunks stand behind each other, and what was in the file behind them is still there. -/
theorem flushChunks_log {w : WAL} {front tail : List UInt8} (chunks : List (List InMemoryWALRecord))
    (absorbed : w.unflushedRecordIndex = w.records.length) (position : w.logPos = front.length)
    (file : w.log = front ++ tail) : ∃ rest, (w.flushChunks chunks).log = front ++ (encodeAll chunks.flatten ++ rest) := by
  induction chunks generalizing w front tail with
  | nil => exact ⟨tail, file⟩
  | cons chunk later ih =>
    have pending : (w.records ++ chunk).drop w.unflushedRecordIndex = chunk := by
      rw [absorbed, List.drop_left]
    obtain ⟨rest, log⟩ := @ih { w with records := w.records ++ chunk }.flush (front ++ encodeAll chunk)
      (tail.drop (encodeAll chunk).length) rfl
      (by simp only [flush, pending, position, List.length_append])
      (by simp only [flush, pending, position, file, pwrite_behind])
    refine ⟨rest, ?_⟩
    rw [flushChunks, log, List.flatten_cons, encodeAll_append, List.append_assoc, List.append_assoc]

end WAL

/-- What a call appends is valid, also when the counters wrap around. -/
theorem Session.step_typed {s s' : Session} {op : WalOp} (typed : s.db.wal.Typed) (call : TypedCall s op)
    (run : s.step op = some s') :
    s'.db.wal.Typed ∧ ∃ add, s'.db.wal.records = s.db.wal.records ++ add ∧ ∀ r ∈ add, r.Valid := by
  obtain ⟨add, appends, effect⟩ := Session.step_appends run
  have nextLsn : s'.db.wal.nextLsn < 2 ^ 32 := by
    rw [appends.nextLsn typed.nextLsn]
    exact Nat.mod_lt _ (by decide)
  have lsn : ∀ r ∈ add, r.lsn < 2 ^ 32 := by
    intro r member
    have listed : r.lsn ∈ add.map InMemoryWALRecord.lsn := List.mem_map_of_mem member
    rw [appends.lsns typed.nextLsn, List.mem_map] at listed
    obtain ⟨i, _, value⟩ := listed
    rw [← value]
    exact Nat.mod_lt _ (by decide)
  suffices both : s'.db.wal.nextTxnId < 2 ^ 32 ∧ ∀ r ∈ add, r.Valid by
    refine ⟨⟨nextLsn, both.1, fun r member => ?_⟩, add, appends.records, both.2⟩
    rw [appends.records] at member
    exact (List.mem_append.mp member).elim (typed.records r) (both.2 r)
  cases effect with
  | begin _ _ ids =>
    refine ⟨by rw [ids]; exact Nat.mod_lt _ (by decide), fun r member => ?_⟩
    rw [List.mem_singleton.mp member]
    exact SessionInvariant.mark_valid typed.nextLsn typed.nextTxnId trivial rfl
  | set _ _ ids =>
    refine ⟨by rw [ids]; exact typed.nextTxnId, fun r member => ?_⟩
    rw [List.mem_singleton.mp member]
    exact setRecord_valid call.2 typed.nextLsn call.1
  | commit _ _ ids =>
    refine ⟨by rw [ids]; exact typed.nextTxnId, fun r member => ?_⟩
    rw [List.mem_singleton.mp member]
    exact SessionInvariant.mark_valid typed.nextLsn call trivial rfl
  | abort _ _ ids =>
    refine ⟨by rw [ids]; exact typed.nextTxnId, fun r member => ?_⟩
    have small := lsn r member
    rcases mem_abortRecords member with ⟨_, body, rfl, kind⟩ | ⟨r', undone, _, _, body, bound, rfl⟩
    · rcases kind with rfl | rfl <;> exact SessionInvariant.mark_valid small call trivial rfl
    · exact compensation_valid bound (typed.records r' (mem_abortUndo undone)) body
  | other _ _ _ ids => exact ⟨by rw [ids]; exact typed.nextTxnId, by simp⟩

/-- The records that a session creates, at any point of any run. -/
theorem Session.reaches_typed {start s : Session} (typed : start.db.wal.Typed) (reach : Reaches Session.step TypedCall start s) :
    s.db.wal.Typed ∧ ∀ r ∈ newRecords start s, r.Valid := by
  have whole : s.db.wal.Typed ∧ ∃ new, s.db.wal.records = start.db.wal.records ++ new ∧ ∀ r ∈ new, r.Valid := by
    refine reach.invariant
      (P := fun s => s.db.wal.Typed ∧ ∃ new, s.db.wal.records = start.db.wal.records ++ new ∧ ∀ r ∈ new, r.Valid)
      ⟨typed, [], by simp, by simp⟩ fun before _ _ ⟨known, new, shape, valid⟩ call run => ?_
    obtain ⟨next, add, records, added⟩ := Session.step_typed known call run
    refine ⟨next, new ++ add, by rw [records, shape, List.append_assoc], fun r member => ?_⟩
    exact (List.mem_append.mp member).elim (valid r) (added r)
  obtain ⟨known, new, shape, valid⟩ := whole
  refine ⟨known, ?_⟩
  rw [newRecords, shape, List.drop_left]
  exact valid

/-- However the records of a session are cut into flushes, and whatever stands behind them in the
log file, the load loop finds them first. -/
theorem loadRecords_flushChunks {start s : Session} {w : WAL} {chunks : List (List InMemoryWALRecord)}
    (typed : start.db.wal.Typed) (reach : Reaches Session.step TypedCall start s)
    (cut : chunks.flatten = newRecords start s) (absorbed : w.unflushedRecordIndex = w.records.length)
    (truncated : w.logPos = 0) (junk : List UInt8) :
    ∃ rest, (loadRecords ((w.flushChunks chunks).log ++ junk) 0).1 = newRecords start s ++ rest := by
  obtain ⟨tail, log⟩ := @WAL.flushChunks_log w [] w.log chunks absorbed truncated rfl
  have valid := (Session.reaches_typed typed reach).2
  have loaded := loadRecords_append valid [] (tail ++ junk)
  rw [List.nil_append, List.length_nil] at loaded
  rw [log, cut, List.nil_append, List.append_assoc, loaded]
  exact ⟨_, rfl⟩

instance (s : Session) : (op : WalOp) → Decidable (TypedCall s op)
  | .set txnId loc writeLength data _ => inferInstanceAs (Decidable (txnId < 2 ^ 32 ∧ InsidePage loc writeLength data))
  | .commit txnId => inferInstanceAs (Decidable (txnId < 2 ^ 32))
  | .abort txnId _ => inferInstanceAs (Decidable (txnId < 2 ^ 32))
  | .begin | .evict _ | .requestCheckpoint | .checkpoint => isTrue trivial

/-- A rollback between two commits, one of them with an id that no transaction has. -/
def mixedRun : List WalOp :=
  [.begin, .set 0 4090 4 [1, 2, 0, 3] none, .commit 0, .begin, .set 3 4091 2 [] none, .abort 3 quiet, .commit 99]

theorem loadRecords_flushChunks_mixed :
    ∃ rest, (loadRecords ((WAL.flushChunks { log := [0, 255] }
        [(newRecords Session.empty ((run Session.step TypedCall Session.empty mixedRun).getD Session.empty)).take 4,
          (newRecords Session.empty ((run Session.step TypedCall Session.empty mixedRun).getD Session.empty)).drop 4]).log ++
            [7, 7, 7]) 0).1 =
      newRecords Session.empty ((run Session.step TypedCall Session.empty mixedRun).getD Session.empty) ++ rest :=
  loadRecords_flushChunks ⟨by decide, by decide, by simp [Session.empty, Session.fresh]⟩
    (.of_isSome (by decide +kernel)) (by simp) rfl rfl [7, 7, 7]

end DiskMap
