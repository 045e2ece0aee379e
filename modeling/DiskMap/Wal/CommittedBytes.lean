import DiskMap.Wal.Isolation

namespace DiskMap
open ByteMemory Database

/-- What holds of one byte after every history of isolated transactions: at most one unfinished
transaction has set it, the first old value that one has stored is the committed value, and
while there is none the byte itself has the committed value. -/
structure ByteInvariant (init : Mem) (a : Nat) (records : List InMemoryWALRecord) (ids : List Nat)
    (phase : Option Nat) : Prop where
  nodup : ids.Nodup
  phaseOpen : ∀ id, phase = some id → id ∈ ids
  unfinished : ∀ id ∈ ids, id ∉ finishedTxns records
  owned : ∀ r ∈ records, isSet r → r.txnId ∈ ids ∨ r.txnId ∈ finishedTxns records
  exclusive : ∀ id ∈ ids, ∀ id' ∈ ids, SetsByte records id a → SetsByte records id' a → id = id'
  last : ∀ id ∈ ids, phase ≠ some id → SetsByte records id a →
    ∃ front r back, records = front ++ r :: back ∧ setBy id r ∧ r.newByte a ≠ none ∧
      ∀ r' ∈ back, r'.newByte a = none
  dirty : ∀ id ∈ ids, ∀ v, txnOld records id a = some v → v = lastCommitted init records a
  clean : (∀ id ∈ ids, ¬ SetsByte records id a) → redo records init a = lastCommitted init records a

namespace ByteInvariant
variable {init : Mem} {a : Nat} {records : List InMemoryWALRecord} {ids : List Nat} {phase : Option Nat}
  {r : InMemoryWALRecord}

theorem last_snoc (inv : ByteInvariant init a records ids phase) (quiet : r.newByte a = none) {id : Nat}
    (opened : id ∈ ids) (idle : phase ≠ some id) (set : SetsByte records id a) :
    ∃ front r' back, records ++ [r] = front ++ r' :: back ∧ setBy id r' ∧ r'.newByte a ≠ none ∧
      ∀ r'' ∈ back, r''.newByte a = none := by
  obtain ⟨front, r', back, shape, found, touch, after⟩ := inv.last id opened idle set
  refine ⟨front, r', back ++ [r], by simp [shape], found, touch, ?_⟩
  intro r'' member
  rcases List.mem_append.mp member with old | new
  · exact after r'' old
  · rw [List.mem_singleton.mp new]
    exact quiet

theorem redo_snoc_quiet (quiet : r.newByte a = none) : redo (records ++ [r]) init a = redo records init a := by
  rw [redo_byte, redo_byte, lastNew_snoc, quiet, Option.none_or]

theorem quiet_of_body (notSet : ∀ s, r.body ≠ .set s) (notClr : ∀ c, r.body ≠ .clr c) : r.newByte a = none := by
  rcases r with ⟨_, _, _, body, _⟩
  cases body <;> simp_all [InMemoryWALRecord.newByte]

theorem begin (inv : ByteInvariant init a records ids none) (mark : r.body = .begin) (fresh : r.lsn ∉ ids)
    (unused : ∀ r' ∈ records, isSet r' ∨ r'.body = .commit ∨ r'.body = .abortEnd → r'.txnId ≠ r.lsn) :
    ByteInvariant init a (records ++ [r]) (r.lsn :: ids) none := by
  have other : isSet r = false := not_isSet_of_body (by simp [mark])
  have quiet : r.newByte a = none := quiet_of_body (by simp [mark]) (by simp [mark])
  have finished : finishedTxns (records ++ [r]) = finishedTxns records := by simp [finishedTxns_snoc, mark]
  have same := @lastCommitted_snoc init records r (by simp [mark]) (by simp [other]) a
  have unset : ¬ SetsByte records r.lsn a := by
    rintro ⟨r', member, found, _⟩
    exact unused r' member (Or.inl (setBy_iff.mp found).1) (setBy_iff.mp found).2
  have newUnfinished : r.lsn ∉ finishedTxns records := by
    simp only [finishedTxns, List.mem_map, List.mem_filter, Bool.or_eq_true, beq_iff_eq, not_exists]
    rintro r' ⟨⟨member, finish⟩, id⟩
    exact unused r' member (Or.inr finish) id
  refine ⟨List.nodup_cons.mpr ⟨fresh, inv.nodup⟩, by simp, ?_, ?_, ?_, ?_, ?_, ?_⟩
  · rw [finished]
    intro id member
    rcases List.mem_cons.mp member with rfl | old
    · exact newUnfinished
    · exact inv.unfinished id old
  · rw [finished]
    intro r' member set
    rcases List.mem_append.mp member with old | new
    · exact (inv.owned r' old set).imp_left (List.mem_cons_of_mem _)
    · rw [List.mem_singleton.mp new, other] at set
      cases set
  · simp only [setsByte_snoc_other other]
    intro id member id' member' set set'
    rcases List.mem_cons.mp member with rfl | old
    · exact absurd set unset
    rcases List.mem_cons.mp member' with rfl | old'
    · exact absurd set' unset
    exact inv.exclusive id old id' old' set set'
  · simp only [setsByte_snoc_other other]
    intro id member idle set
    rcases List.mem_cons.mp member with rfl | old
    · exact absurd set unset
    · exact inv.last_snoc quiet old idle set
  · simp only [txnOld_snoc_other other, same]
    intro id member v old
    rcases List.mem_cons.mp member with rfl | earlier
    · rw [txnOld_eq_none_iff.mpr unset] at old
      cases old
    · exact inv.dirty id earlier v old
  · simp only [setsByte_snoc_other other, redo_snoc_quiet quiet, same]
    intro nobody
    exact inv.clean fun id member => nobody id (List.mem_cons_of_mem _ member)

theorem set (inv : ByteInvariant init a records ids none) (isSet : Database.isSet r) (opened : r.txnId ∈ ids)
    (old : ∀ v, r.oldByte a = some v → v = redo records init a)
    (apart : r.newByte a ≠ none → ∀ id ∈ ids, id ≠ r.txnId → ¬ SetsByte records id a) :
    ByteInvariant init a (records ++ [r]) ids none := by
  obtain ⟨s, body⟩ := InMemoryWALRecord.isSet_iff.mp isSet
  have finished : finishedTxns (records ++ [r]) = finishedTxns records := by simp [finishedTxns_snoc, body]
  have uncommitted : r.txnId ∉ committedTxns records := fun member =>
    inv.unfinished r.txnId opened (committed_finished member)
  have same := @lastCommitted_snoc init records r (by simp [body])
    (fun _ => uncommitted) a
  have own : setBy r.txnId r := setBy_iff.mpr ⟨isSet, rfl⟩
  refine ⟨inv.nodup, by simp, by rw [finished]; exact inv.unfinished, ?_, ?_, ?_, ?_, ?_⟩
  · rw [finished]
    intro r' member set
    rcases List.mem_append.mp member with earlier | new
    · exact inv.owned r' earlier set
    · rw [List.mem_singleton.mp new]
      exact Or.inl opened
  · intro id member id' member' set set'
    rw [setsByte_snoc] at set set'
    rcases set with set | ⟨byId, touch⟩ <;> rcases set' with set' | ⟨byId', touch'⟩
    · exact inv.exclusive id member id' member' set set'
    · by_contra different
      exact apart touch' id member (fun same => different (same.trans (setBy_iff.mp byId').2)) set
    · by_contra different
      exact apart touch id' member' (fun same => different ((setBy_iff.mp byId).2.symm.trans same.symm)) set'
    · exact (setBy_iff.mp byId).2.symm.trans (setBy_iff.mp byId').2
  · intro id member idle set
    by_cases touch : r.newByte a = none
    · rw [setsByte_snoc] at set
      rcases set with set | ⟨_, touch'⟩
      · exact inv.last_snoc touch member idle set
      · exact absurd touch touch'
    · have mine : id = r.txnId := by
        by_contra different
        rw [setsByte_snoc] at set
        rcases set with set | ⟨byId, _⟩
        · exact apart touch id member different set
        · exact different (setBy_iff.mp byId).2.symm
      subst mine
      exact ⟨records, r, [], rfl, own, touch, by simp⟩
  · rw [same]
    intro id member v value
    simp only [txnOld, List.filter_append, firstOld_append] at value
    by_cases earlier : SetsByte records id a
    · obtain ⟨w, first⟩ := Option.ne_none_iff_exists'.mp fun none => txnOld_eq_none_iff.mp none earlier
      rw [show firstOld (records.filter (setBy id)) a = some w from first, Option.some_or] at value
      cases Option.some.inj value
      exact inv.dirty id member _ first
    · rw [show firstOld (records.filter (setBy id)) a = none from txnOld_eq_none_iff.mpr earlier,
        Option.none_or] at value
      by_cases byId : setBy id r
      · have atOld : r.oldByte a = some v := by simpa [firstOld, byId] using value
        have touch : r.newByte a ≠ none := by
          rw [Ne, ← InMemoryWALRecord.oldByte_eq_none_iff isSet, atOld]
          simp
        rw [old v atOld]
        refine inv.clean fun id' member' set' => ?_
        by_cases mine : id' = r.txnId
        · exact earlier (by rw [← (setBy_iff.mp byId).2, ← mine]; exact set')
        · exact apart touch id' member' mine set'
      · simp [firstOld, byId] at value
  · intro nobody
    have untouched : r.newByte a = none := by
      by_contra touch
      exact nobody r.txnId opened (setsByte_snoc.mpr (Or.inr ⟨own, touch⟩))
    rw [redo_snoc_quiet untouched, same]
    exact inv.clean fun id member set => nobody id member (setsByte_snoc.mpr (Or.inl set))

theorem commit (inv : ByteInvariant init a records ids none) (mark : r.body = .commit) (opened : r.txnId ∈ ids) :
    ByteInvariant init a (records ++ [r]) (ids.erase r.txnId) none := by
  have other : isSet r = false := not_isSet_of_body (by simp [mark])
  have quiet : r.newByte a = none := quiet_of_body (by simp [mark]) (by simp [mark])
  have finished : finishedTxns (records ++ [r]) = finishedTxns records ++ [r.txnId] := by
    simp [finishedTxns_snoc, mark]
  have remains : ∀ id, id ∈ ids.erase r.txnId ↔ id ≠ r.txnId ∧ id ∈ ids := fun id => inv.nodup.mem_erase_iff
  -- a transaction that set the byte did so last, so that committing it commits the current value
  have committed : SetsByte records r.txnId a →
      lastCommitted init (records ++ [r]) a = redo records init a := by
    intro set
    obtain ⟨front, r', back, shape, byId, touch, after⟩ := inv.last r.txnId opened (by simp) set
    simp only [lastCommitted, List.filter_append, List.filter_cons, other, Bool.false_and, Bool.false_eq_true,
      if_false, List.filter_nil, List.append_nil]
    have mine : r.txnId ∈ committedTxns (records ++ [r]) := by simp [committedTxns_snoc, mark]
    generalize committedTxns (records ++ [r]) = done at mine ⊢
    rw [redo_byte, shape, lastNew_of_last touch after, lastNew_filter_of_last _ touch after]
    simp [setBy_iff.mp byId, mine]
  have kept : ¬ SetsByte records r.txnId a →
      lastCommitted init (records ++ [r]) a = lastCommitted init records a := by
    intro unset
    simp only [lastCommitted, List.filter_append, List.filter_cons, other, Bool.false_and, Bool.false_eq_true,
      if_false, List.filter_nil, List.append_nil]
    refine congrArg (fun v => Option.getD v (init a)) (lastNew_filter_congr fun r' member touch => ?_)
    by_cases set : isSet r'
    · have others : r'.txnId ≠ r.txnId := fun same =>
        unset ⟨r', member, setBy_iff.mpr ⟨set, same⟩, touch⟩
      simp [committedTxns_snoc, mark, others]
    · simp [set]
  refine ⟨inv.nodup.erase _, by simp, ?_, ?_, ?_, ?_, ?_, ?_⟩
  · rw [finished]
    intro id member
    obtain ⟨different, old⟩ := (remains id).mp member
    simpa [different] using inv.unfinished id old
  · rw [finished]
    intro r' member set
    rcases List.mem_append.mp member with earlier | new
    · by_cases same : r'.txnId = r.txnId
      · exact Or.inr (by simp [same])
      · exact (inv.owned r' earlier set).imp (fun inside => (remains _).mpr ⟨same, inside⟩)
          (List.mem_append_left _)
    · rw [List.mem_singleton.mp new, other] at set
      cases set
  · simp only [setsByte_snoc_other other]
    intro id member id' member'
    exact inv.exclusive id ((remains id).mp member).2 id' ((remains id').mp member').2
  · simp only [setsByte_snoc_other other]
    intro id member idle set
    exact inv.last_snoc quiet ((remains id).mp member).2 idle set
  · simp only [txnOld_snoc_other other]
    intro id member v old
    obtain ⟨different, inside⟩ := (remains id).mp member
    have set : SetsByte records id a := by
      by_contra unset
      rw [txnOld_eq_none_iff.mpr unset] at old
      cases old
    rw [kept fun mine => different (inv.exclusive id inside r.txnId opened set mine)]
    exact inv.dirty id inside v old
  · simp only [setsByte_snoc_other other, redo_snoc_quiet quiet]
    intro nobody
    by_cases set : SetsByte records r.txnId a
    · exact (committed set).symm
    · rw [kept set]
      refine inv.clean fun id member set' => ?_
      by_cases mine : id = r.txnId
      · exact set (mine ▸ set')
      · exact nobody id ((remains id).mpr ⟨mine, member⟩) set'

theorem abortBegin (inv : ByteInvariant init a records ids none) (mark : r.body = .abortBegin)
    (opened : r.txnId ∈ ids) : ByteInvariant init a (records ++ [r]) ids (some r.txnId) := by
  have other : isSet r = false := not_isSet_of_body (by simp [mark])
  have quiet : r.newByte a = none := quiet_of_body (by simp [mark]) (by simp [mark])
  have finished : finishedTxns (records ++ [r]) = finishedTxns records := by simp [finishedTxns_snoc, mark]
  have same := @lastCommitted_snoc init records r (by simp [mark]) (by simp [other]) a
  refine ⟨inv.nodup, ?_, by rw [finished]; exact inv.unfinished, ?_, ?_, ?_, ?_, ?_⟩
  · intro id same
    rw [← Option.some.inj same]
    exact opened
  · rw [finished]
    intro r' member set
    rcases List.mem_append.mp member with earlier | new
    · exact inv.owned r' earlier set
    · rw [List.mem_singleton.mp new, other] at set
      cases set
  · simpa only [setsByte_snoc_other other] using inv.exclusive
  · simp only [setsByte_snoc_other other]
    intro id member _ set
    exact inv.last_snoc quiet member (by simp) set
  · simpa only [txnOld_snoc_other other, same] using inv.dirty
  · simpa only [setsByte_snoc_other other, redo_snoc_quiet quiet, same] using inv.clean

theorem clr (inv : ByteInvariant init a records ids (some r.txnId)) {c : CompensationRecord} (mark : r.body = .clr c)
    (inside : r.newByte a ≠ none → SetsByte records r.txnId a) :
    ByteInvariant init a (records ++ [r]) ids (some r.txnId) := by
  have other : isSet r = false := not_isSet_of_body (by simp [mark])
  have opened : r.txnId ∈ ids := inv.phaseOpen _ rfl
  have finished : finishedTxns (records ++ [r]) = finishedTxns records := by simp [finishedTxns_snoc, mark]
  have same := @lastCommitted_snoc init records r (by simp [mark]) (by simp [other]) a
  refine ⟨inv.nodup, inv.phaseOpen, by rw [finished]; exact inv.unfinished, ?_, ?_, ?_, ?_, ?_⟩
  · rw [finished]
    intro r' member set
    rcases List.mem_append.mp member with earlier | new
    · exact inv.owned r' earlier set
    · rw [List.mem_singleton.mp new, other] at set
      cases set
  · simpa only [setsByte_snoc_other other] using inv.exclusive
  · simp only [setsByte_snoc_other other]
    intro id member idle set
    have quiet : r.newByte a = none := by
      by_contra touch
      exact idle (congrArg some (inv.exclusive r.txnId opened id member (inside touch) set))
    exact inv.last_snoc quiet member idle set
  · simpa only [txnOld_snoc_other other, same] using inv.dirty
  · simp only [setsByte_snoc_other other, same]
    intro nobody
    have quiet : r.newByte a = none := by
      by_contra touch
      exact nobody r.txnId opened (inside touch)
    rw [redo_snoc_quiet quiet]
    exact inv.clean nobody

theorem abortEnd (inv : ByteInvariant init a records ids (some r.txnId)) (mark : r.body = .abortEnd)
    (restored : ∀ v, txnOld records r.txnId a = some v → redo records init a = v) :
    ByteInvariant init a (records ++ [r]) (ids.erase r.txnId) none := by
  have other : isSet r = false := not_isSet_of_body (by simp [mark])
  have quiet : r.newByte a = none := quiet_of_body (by simp [mark]) (by simp [mark])
  have opened : r.txnId ∈ ids := inv.phaseOpen _ rfl
  have finished : finishedTxns (records ++ [r]) = finishedTxns records ++ [r.txnId] := by
    simp [finishedTxns_snoc, mark]
  have same := @lastCommitted_snoc init records r (by simp [mark]) (by simp [other]) a
  have remains : ∀ id, id ∈ ids.erase r.txnId ↔ id ≠ r.txnId ∧ id ∈ ids := fun id => inv.nodup.mem_erase_iff
  refine ⟨inv.nodup.erase _, by simp, ?_, ?_, ?_, ?_, ?_, ?_⟩
  · rw [finished]
    intro id member
    obtain ⟨different, old⟩ := (remains id).mp member
    simpa [different] using inv.unfinished id old
  · rw [finished]
    intro r' member set
    rcases List.mem_append.mp member with earlier | new
    · by_cases mine : r'.txnId = r.txnId
      · exact Or.inr (by simp [mine])
      · exact (inv.owned r' earlier set).imp (fun inside => (remains _).mpr ⟨mine, inside⟩)
          (List.mem_append_left _)
    · rw [List.mem_singleton.mp new, other] at set
      cases set
  · simp only [setsByte_snoc_other other]
    intro id member id' member'
    exact inv.exclusive id ((remains id).mp member).2 id' ((remains id').mp member').2
  · simp only [setsByte_snoc_other other]
    intro id member _ set
    obtain ⟨different, inside⟩ := (remains id).mp member
    exact inv.last_snoc quiet inside (fun phase => different (Option.some.inj phase).symm) set
  · simp only [txnOld_snoc_other other, same]
    intro id member
    exact inv.dirty id ((remains id).mp member).2
  · simp only [setsByte_snoc_other other, redo_snoc_quiet quiet, same]
    intro nobody
    by_cases set : SetsByte records r.txnId a
    · obtain ⟨v, old⟩ := Option.ne_none_iff_exists'.mp fun none => txnOld_eq_none_iff.mp none set
      rw [restored v old, inv.dirty r.txnId opened v old]
    · refine inv.clean fun id member set' => ?_
      by_cases mine : id = r.txnId
      · exact set (mine ▸ set')
      · exact nobody id ((remains id).mpr ⟨mine, member⟩) set'

end ByteInvariant

theorem Isolated.byteInvariant {init : Mem} {records : List InMemoryWALRecord} {ids : List Nat} {phase : Option Nat}
    (log : Isolated init records ids phase) (a : Nat) : ByteInvariant init a records ids phase := by
  induction log with
  | nil =>
    refine ⟨List.nodup_nil, by simp, by simp, by simp, by simp, by simp, by simp, fun _ => ?_⟩
    simp [redo, lastCommitted, lastNew]
  | begin _ mark fresh unused ih => exact ih.begin mark fresh unused
  | set _ isSet opened old apart ih => exact ih.set isSet opened (old a) (apart a)
  | commit _ mark opened ih => exact ih.commit mark opened
  | abortBegin _ mark opened ih => exact ih.abortBegin mark opened
  | clr _ mark inside ih => exact ih.clr mark (inside a)
  | abortEnd _ mark restored ih => exact ih.abortEnd mark (restored a)

/-- No transaction sets anything after it has finished. -/
def Settled (records : List InMemoryWALRecord) : Prop :=
  ∀ front r back, records = front ++ r :: back → isSet r → r.txnId ∉ finishedTxns front

theorem Settled.snoc {records : List InMemoryWALRecord} {r : InMemoryWALRecord} (settled : Settled records)
    (last : isSet r → r.txnId ∉ finishedTxns records) : Settled (records ++ [r]) := by
  intro front r' back shape set
  rcases List.eq_nil_or_concat back with rfl | ⟨back', last', rfl⟩
  · obtain ⟨rfl, same⟩ := List.append_inj' shape rfl
    cases List.singleton_inj.mp same
    exact last set
  · rw [List.concat_eq_append, ← List.cons_append, ← List.append_assoc] at shape
    exact settled front r' back' (List.append_inj' shape rfl).1 set

theorem Settled.append {records new : List InMemoryWALRecord} (settled : Settled records)
    (noSets : ∀ r ∈ new, isSet r = false) : Settled (records ++ new) := by
  induction new using List.reverseRecOn with
  | nil => simpa using settled
  | append_singleton front r ih =>
    rw [← List.append_assoc]
    refine (ih fun r' member => noSets r' (List.mem_append_left _ member)).snoc fun set => ?_
    rw [noSets r (by simp)] at set
    cases set

theorem Isolated.settled {init : Mem} {records : List InMemoryWALRecord} {ids : List Nat} {phase : Option Nat}
    (log : Isolated init records ids phase) : Settled records := by
  induction log with
  | nil =>
    intro front r back shape
    simp at shape
  | begin _ mark _ _ ih => exact ih.snoc fun set => by simp [isSet, mark] at set
  | set previous _ opened _ _ ih => exact ih.snoc fun _ => (previous.byteInvariant 0).unfinished _ opened
  | commit _ mark _ ih => exact ih.snoc fun set => by simp [isSet, mark] at set
  | abortBegin _ mark _ ih => exact ih.snoc fun set => by simp [isSet, mark] at set
  | clr _ mark _ ih => exact ih.snoc fun set => by simp [isSet, mark] at set
  | abortEnd _ mark _ ih => exact ih.snoc fun set => by simp [isSet, mark] at set

/-- Every transaction carries the LSN of a record of the sequence. -/
theorem Isolated.begun {init : Mem} {records : List InMemoryWALRecord} {ids : List Nat} {phase : Option Nat}
    (log : Isolated init records ids phase) : (∀ id ∈ ids, ∃ r ∈ records, r.lsn = id) ∧
      ∀ r ∈ records, isSet r → ∃ r' ∈ records, r'.lsn = r.txnId := by
  have keep : ∀ {front : List InMemoryWALRecord} {r : InMemoryWALRecord} {ids ids' : List Nat},
      ((∀ id ∈ ids, ∃ r' ∈ front, r'.lsn = id) ∧ ∀ r' ∈ front, isSet r' → ∃ r'' ∈ front, r''.lsn = r'.txnId) →
      (∀ id ∈ ids', id ∈ ids ∨ id = r.lsn) → (isSet r → r.txnId ∈ ids) →
      (∀ id ∈ ids', ∃ r' ∈ front ++ [r], r'.lsn = id) ∧
        ∀ r' ∈ front ++ [r], isSet r' → ∃ r'' ∈ front ++ [r], r''.lsn = r'.txnId := by
    rintro front r ids ids' ⟨opened, sets⟩ sub last
    refine ⟨fun id member => ?_, fun r' member set => ?_⟩
    · rcases sub id member with old | rfl
      · obtain ⟨r', inside, lsn⟩ := opened id old
        exact ⟨r', List.mem_append_left _ inside, lsn⟩
      · exact ⟨r, by simp, rfl⟩
    · rcases List.mem_append.mp member with old | new
      · obtain ⟨r'', inside, lsn⟩ := sets r' old set
        exact ⟨r'', List.mem_append_left _ inside, lsn⟩
      · rw [List.mem_singleton.mp new] at set ⊢
        obtain ⟨r'', inside, lsn⟩ := opened _ (last set)
        exact ⟨r'', List.mem_append_left _ inside, lsn⟩
  induction log with
  | nil => simp
  | begin _ mark _ _ ih =>
    exact keep ih (fun id member => (List.mem_cons.mp member).symm) fun set => by simp [isSet, mark] at set
  | set _ _ opened _ _ ih => exact keep ih (fun id member => Or.inl member) fun _ => opened
  | commit _ mark _ ih =>
    exact keep ih (fun id member => Or.inl (List.mem_of_mem_erase member)) fun set => by simp [isSet, mark] at set
  | abortBegin _ mark _ ih => exact keep ih (fun id member => Or.inl member) fun set => by simp [isSet, mark] at set
  | clr _ mark _ ih => exact keep ih (fun id member => Or.inl member) fun set => by simp [isSet, mark] at set
  | abortEnd _ mark _ ih =>
    exact keep ih (fun id member => Or.inl (List.mem_of_mem_erase member)) fun set => by simp [isSet, mark] at set

end DiskMap
