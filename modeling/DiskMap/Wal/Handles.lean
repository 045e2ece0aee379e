import DiskMap.Wal.Bookkeeping

namespace DiskMap
open ByteMemory Database GuardedRun

inductive TransactionState
  | uncommitted
  | committed
  | aborted
  deriving DecidableEq, Repr

/-- `WAL::RWTransaction`. `walLayer` is false once the object has been moved from, and `begun`
tells which call of `begin` the object stems from. -/
structure RWTransaction where
  walLayer : Bool
  txnId : Nat
  state : TransactionState
  begun : Nat
  deriving DecidableEq, Repr

/-- The objects of a program by name, and the transaction ids that its page handles carry. Of the
transactions that have begun, `unfinished` are the ones neither committed nor aborted. -/
structure Handles where
  db : Database
  objects : Nat → Option RWTransaction
  pageHandles : List Nat
  begins : Nat
  unfinished : List Nat

inductive HandleOp
  | begin (name : Nat)
  | getPage (name : Nat)
  | write (txnId loc writeLength : Nat) (data : List UInt8) (evicted : Option Nat)
  | commit (name : Nat)
  | abort (name : Nat) (evicted : Nat → Option Nat)
  | moveConstruct (name source : Nat)
  | moveAssign (name source : Nat)
  | destroy (name : Nat) (evicted : Nat → Option Nat)
  | evict (pageLsn : Nat)
  | requestCheckpoint
  | checkpoint

namespace Handles

def start (d : Database) : Handles where
  db := d
  objects _ := none
  pageHandles := []
  begins := 0
  unfinished := []

def put (h : Handles) (name : Nat) (object : Option RWTransaction) : Handles :=
  { h with objects := Function.update h.objects name object }

def finish (h : Handles) (d : Database) (begun : Nat) : Handles :=
  { h with db := d, unfinished := h.unfinished.erase begun }

/-- `none` where the program has no such object or the call goes through a null `wal_layer`. -/
def step (h : Handles) : HandleOp → Option Handles
  | .begin name =>
    match h.objects name, h.db.begin with
    | none, some (txnId, db) =>
      some <| put { h with db, begins := h.begins + 1, unfinished := h.begins :: h.unfinished } name
        (some { walLayer := true, txnId, state := .uncommitted, begun := h.begins })
    | _, _ => none
  | .getPage name =>
    match h.objects name with
    | some object =>
      -- an exception where the transaction is finished
      if object.state ≠ .uncommitted then some h
      else if object.walLayer then some { h with pageHandles := object.txnId :: h.pageHandles } else none
    | none => none
  | .write txnId loc writeLength data evicted =>
    if txnId ∈ h.pageHandles then some { h with db := h.db.set txnId loc writeLength data evicted } else none
  | .commit name =>
    match h.objects name with
    | some object =>
      if object.walLayer then
        some <| (h.finish (h.db.commit object.txnId) object.begun).put name (some { object with state := .committed })
      else none
    | none => none
  | .abort name evicted =>
    match h.objects name with
    | some object =>
      if object.walLayer then
        match h.db.abort object.txnId evicted with
        | .ok db => some <| (h.finish db object.begun).put name (some { object with state := .aborted })
        | .error _ => none
      else none
    | none => none
  | .moveConstruct name source =>
    match h.objects name, h.objects source with
    | none, some object => some <| (h.put source (some { object with walLayer := false })).put name (some object)
    | _, _ => none
  | .moveAssign name source =>
    match h.objects name, h.objects source with
    | some _, some object =>
      if name = source then some h
      else some <| (h.put source (some { object with walLayer := false })).put name (some object)
    | _, _ => none
  | .destroy name evicted =>
    match h.objects name with
    | some object =>
      if object.state = .uncommitted ∧ object.walLayer then
        match h.db.abort object.txnId evicted with
        | .ok db => some <| (h.finish db object.begun).put name none
        | .error _ => none
      else some <| h.put name none
    | none => none
  | .evict pageLsn => some { h with db := { h.db with wal := h.db.wal.flushUpTo pageLsn } }
  | .requestCheckpoint => some { h with db := { h.db with wal := { h.db.wal with checkpointPending := true } } }
  | .checkpoint =>
    if h.db.wal.checkpointPending ∧ h.db.wal.activeTransactions ≤ 0 then some { h with db := h.db.checkpointInternal }
    else none

/-- `commit` and `abort` are called on unfinished transactions only. -/
def OnUnfinished (h : Handles) : HandleOp → Prop
  | .commit name => ∀ object, h.objects name = some object → object.state = .uncommitted
  | .abort name _ => ∀ object, h.objects name = some object → object.state = .uncommitted
  | _ => True

/-- The counter of the WAL is the number of unfinished transactions. -/
def Counts (h : Handles) : Prop :=
  h.db.wal.activeTransactions = h.unfinished.length

/-- The object can still finish its transaction. -/
def Holds (h : Handles) (name begun : Nat) : Prop :=
  ∃ object, h.objects name = some object ∧ object.walLayer ∧ object.state = .uncommitted ∧ object.begun = begun

/-- At most one object can finish a transaction, and the transaction is unfinished then. -/
structure Owned (h : Handles) : Prop where
  nodup : h.unfinished.Nodup
  earlier : ∀ begun ∈ h.unfinished, begun < h.begins
  born : ∀ name object, h.objects name = some object → object.begun < h.begins
  unfinished : ∀ name begun, h.Holds name begun → begun ∈ h.unfinished
  unique : ∀ name name' begun, h.Holds name begun → h.Holds name' begun → name = name'
  finished : ∀ name object, h.objects name = some object → object.state ≠ .uncommitted → object.begun ∉ h.unfinished

variable {h h' : Handles} {name begun : Nat} {o : Option RWTransaction}

theorem put_same : (h.put name o).objects name = o := Function.update_self _ _ _

theorem put_other {other : Nat} (different : other ≠ name) : (h.put name o).objects other = h.objects other :=
  Function.update_of_ne different _ _

theorem holds_put_other {other : Nat} (different : other ≠ name) :
    (h.put name o).Holds other begun ↔ h.Holds other begun := by
  unfold Holds
  rw [put_other different]

/-- An object is constructed, assigned or destroyed. -/
theorem Owned.put (own : Owned h)
    (holds : ∀ object, o = some object → object.walLayer → object.state = .uncommitted →
      object.begun ∈ h.unfinished ∧ ∀ other, other ≠ name → ¬ h.Holds other object.begun)
    (finished : ∀ object, o = some object → object.state ≠ .uncommitted → object.begun ∉ h.unfinished)
    (born : ∀ object, o = some object → object.begun < h.begins) : Owned (h.put name o) := by
  have mine : ∀ begun, (h.put name o).Holds name begun →
      begun ∈ h.unfinished ∧ ∀ other, other ≠ name → ¬ h.Holds other begun := by
    rintro begun ⟨object, found, layer, state, rfl⟩
    rw [put_same] at found
    exact holds object found layer state
  refine ⟨own.nodup, own.earlier, ?_, ?_, ?_, ?_⟩
  · intro n object found
    by_cases same : n = name
    · subst same
      rw [put_same] at found
      exact born object found
    · rw [put_other same] at found
      exact own.born n object found
  · intro n b held
    by_cases same : n = name
    · subst same
      exact (mine b held).1
    · exact own.unfinished n b ((holds_put_other same).mp held)
  · intro n n' b held held'
    by_cases same : n = name <;> by_cases same' : n' = name
    · rw [same, same']
    · subst same
      exact absurd ((holds_put_other same').mp held') ((mine b held).2 n' same')
    · subst same'
      exact absurd ((holds_put_other same).mp held) ((mine b held').2 n same)
    · exact own.unique n n' b ((holds_put_other same).mp held) ((holds_put_other same').mp held')
  · intro n object found state
    by_cases same : n = name
    · subst same
      rw [put_same] at found
      exact finished object found state
    · rw [put_other same] at found
      exact own.finished n object found state

/-- The object that holds a transaction finishes it. -/
theorem Owned.finish (own : Owned h) (holds : h.Holds name begun) {d : Database}
    (released : ∀ object, o = some object → object.state ≠ .uncommitted ∧ object.begun = begun) :
    Owned ((h.finish d begun).put name o) := by
  have mine := own.unfinished name begun holds
  refine ⟨own.nodup.erase _, fun b member => own.earlier b (List.mem_of_mem_erase member), ?_, ?_, ?_, ?_⟩
  · intro n object found
    by_cases same : n = name
    · subst same
      rw [put_same] at found
      rw [(released object found).2]
      exact own.earlier begun mine
    · rw [put_other same] at found
      exact own.born n object found
  · intro n b held
    by_cases same : n = name
    · subst same
      obtain ⟨object, found, _, state, _⟩ := held
      rw [put_same] at found
      exact absurd state (released object found).1
    · have before : h.Holds n b := (holds_put_other same).mp held
      refine (own.nodup.mem_erase_iff).mpr ⟨fun mine => ?_, own.unfinished n b before⟩
      subst mine
      exact same (own.unique n name b before holds)
  · intro n n' b held held'
    by_cases same : n = name <;> by_cases same' : n' = name
    · rw [same, same']
    · subst same
      obtain ⟨object, found, _, state, _⟩ := held
      rw [put_same] at found
      exact absurd state (released object found).1
    · subst same'
      obtain ⟨object, found, _, state, _⟩ := held'
      rw [put_same] at found
      exact absurd state (released object found).1
    · exact own.unique n n' b ((holds_put_other same).mp held) ((holds_put_other same').mp held')
  · intro n object found state member
    have inside := own.nodup.mem_erase_iff.mp member
    by_cases same : n = name
    · subst same
      rw [put_same] at found
      exact inside.1 (released object found).2
    · rw [put_other same] at found
      exact own.finished n object found state inside.2

theorem abort_active {d d' : Database} {txnId : Nat} {evicted : Nat → Option Nat}
    (run : d.abort txnId evicted = .ok d') : d'.wal.activeTransactions = d.wal.activeTransactions - 1 := by
  obtain ⟨d'', _, returned, grows⟩ := d.abort_extends txnId evicted
  cases Except.ok.inj (run.symm.trans returned)
  exact congrArg (· - 1) grows.wal.activeTransactions

theorem Counts.finish (counts : Counts h) (own : Owned h) (holds : h.Holds name begun) {d : Database}
    (active : d.wal.activeTransactions = h.db.wal.activeTransactions - 1) : Counts ((h.finish d begun).put name o) := by
  have member := own.unfinished name begun holds
  have erased := List.length_erase_of_mem member
  have nonempty := List.length_pos_of_mem member
  change d.wal.activeTransactions = (h.unfinished.erase begun).length
  unfold Counts at counts
  omega

/-- Nothing has changed but pages and log. -/
theorem Owned.congr (own : Owned h) (objects : h'.objects = h.objects) (begins : h'.begins = h.begins)
    (unfinished : h'.unfinished = h.unfinished) : Owned h' := by
  have held : ∀ n b, h'.Holds n b ↔ h.Holds n b := fun n b => by rw [Holds, objects, Holds]
  refine ⟨?_, ?_, ?_, ?_, ?_, ?_⟩
  · rw [unfinished]
    exact own.nodup
  · rw [unfinished, begins]
    exact own.earlier
  · rw [objects, begins]
    exact own.born
  · simp only [held, unfinished]
    exact own.unfinished
  · simp only [held]
    exact own.unique
  · rw [objects, unfinished]
    exact own.finished

theorem Owned.begin (own : Owned h) (d : Database) (txnId : Nat) :
    Owned (Handles.put { h with db := d, begins := h.begins + 1, unfinished := h.begins :: h.unfinished } name
      (some { walLayer := true, txnId, state := .uncommitted, begun := h.begins })) := by
  have fresh : h.begins ∉ h.unfinished := fun member => Nat.lt_irrefl _ (own.earlier _ member)
  have grown : Owned ({ h with db := d, begins := h.begins + 1, unfinished := h.begins :: h.unfinished } : Handles) := by
    refine ⟨List.nodup_cons.mpr ⟨fresh, own.nodup⟩, fun b member => ?_,
      fun n object found => (own.born n object found).trans (Nat.lt_succ_self _),
      fun n b held => List.mem_cons_of_mem _ (own.unfinished n b held), own.unique, fun n object found state member => ?_⟩
    · rcases List.mem_cons.mp member with rfl | old
      · exact Nat.lt_succ_self _
      · exact (own.earlier b old).trans (Nat.lt_succ_self _)
    · rcases List.mem_cons.mp member with same | old
      · exact Nat.lt_irrefl _ (same ▸ own.born n object found)
      · exact own.finished n object found state old
  refine grown.put ?_ ?_ ?_
  · rintro object made _ _
    cases Option.some.inj made
    refine ⟨List.mem_cons_self, fun other _ held => fresh (own.unfinished other _ held)⟩
  · rintro object made state
    cases Option.some.inj made
    exact absurd rfl state
  · rintro object made
    cases Option.some.inj made
    exact Nat.lt_succ_self _

/-- The object moves: its source can finish nothing any more. -/
theorem Owned.move (own : Owned h) {source : Nat} {object : RWTransaction} (found : h.objects source = some object)
    (different : name ≠ source) :
    Owned ((h.put source (some { object with walLayer := false })).put name (some object)) := by
  have left : Owned (h.put source (some { object with walLayer := false })) := by
    refine own.put ?_ ?_ ?_
    · rintro _ made layer
      cases Option.some.inj made
      cases layer
    · rintro _ made state
      cases Option.some.inj made
      exact own.finished source object found state
    · rintro _ made
      cases Option.some.inj made
      exact own.born source object found
  refine left.put ?_ ?_ ?_
  · rintro _ made layer state
    cases Option.some.inj made
    have held : h.Holds source object.begun := ⟨object, found, layer, state, rfl⟩
    refine ⟨own.unfinished source _ held, fun other different' held' => ?_⟩
    by_cases same : other = source
    · subst same
      obtain ⟨object', found', layer', _⟩ := held'
      rw [put_same] at found'
      cases Option.some.inj found'
      cases layer'
    · exact same (own.unique other source _ ((holds_put_other same).mp held') held)
  · rintro _ made state
    cases Option.some.inj made
    exact own.finished source object found state
  · rintro _ made
    cases Option.some.inj made
    exact own.born source object found

/-- Every call on an unfinished transaction, and every other use of the objects, keeps the count. -/
theorem step_counts (counts : Counts h) (own : Owned h) {op : HandleOp} (admitted : h.OnUnfinished op)
    (run : h.step op = some h') : Counts h' ∧ Owned h' := by
  cases op with
  | begin name =>
    simp only [step] at run
    split at run
    · rename_i free began
      cases Option.some.inj run
      unfold Database.begin at began
      split at began
      · cases began
      cases Option.some.inj began
      refine ⟨?_, own.begin _ _⟩
      unfold Counts at counts ⊢
      simp only [put, WAL.pushMark, WAL.push, WAL.takeLsn, List.length_cons]
      omega
    · cases run
  | getPage name =>
    simp only [step] at run
    split at run
    · split at run
      · cases Option.some.inj run
        exact ⟨counts, own⟩
      · split at run
        · cases Option.some.inj run
          exact ⟨counts, own.congr rfl rfl rfl⟩
        · cases run
    · cases run
  | write txnId loc writeLength data evicted =>
    simp only [step] at run
    split at run
    · cases Option.some.inj run
      exact ⟨(h.db.set_extends txnId loc writeLength data evicted).wal.activeTransactions.trans counts,
        own.congr rfl rfl rfl⟩
    · cases run
  | commit name =>
    simp only [step] at run
    split at run
    · rename_i object found
      split at run
      · rename_i layer
        cases Option.some.inj run
        have holds : h.Holds name object.begun := ⟨object, found, layer, admitted object found, rfl⟩
        refine ⟨counts.finish own holds rfl, own.finish holds ?_⟩
        rintro _ made
        cases Option.some.inj made
        exact ⟨by simp, rfl⟩
      · cases run
    · cases run
  | abort name evicted =>
    simp only [step] at run
    split at run
    · rename_i object found
      split at run
      · rename_i layer
        split at run
        · rename_i d returned
          cases Option.some.inj run
          have holds : h.Holds name object.begun := ⟨object, found, layer, admitted object found, rfl⟩
          refine ⟨counts.finish own holds (abort_active returned), own.finish holds ?_⟩
          rintro _ made
          cases Option.some.inj made
          exact ⟨by simp, rfl⟩
        · cases run
      · cases run
    · cases run
  | moveConstruct name source =>
    simp only [step] at run
    split at run
    · rename_i object free found
      cases Option.some.inj run
      refine ⟨counts, own.move found ?_⟩
      rintro rfl
      rw [free] at found
      cases found
    · cases run
  | moveAssign name source =>
    simp only [step] at run
    split at run
    · rename_i old object _ found
      split at run
      · cases Option.some.inj run
        exact ⟨counts, own⟩
      · rename_i different
        cases Option.some.inj run
        exact ⟨counts, own.move found different⟩
    · cases run
  | destroy name evicted =>
    simp only [step] at run
    split at run
    · rename_i object found
      split at run
      · rename_i kind
        split at run
        · rename_i d returned
          cases Option.some.inj run
          have holds : h.Holds name object.begun := ⟨object, found, kind.2, kind.1, rfl⟩
          exact ⟨counts.finish own holds (abort_active returned), own.finish holds (by simp)⟩
        · cases run
      · cases Option.some.inj run
        exact ⟨counts, own.put (by simp) (by simp) (by simp)⟩
    · cases run
  | evict pageLsn =>
    cases Option.some.inj run
    exact ⟨(h.db.wal.flushUpTo_sameButFile pageLsn).activeTransactions.trans counts, own.congr rfl rfl rfl⟩
  | requestCheckpoint =>
    cases Option.some.inj run
    exact ⟨counts, own.congr rfl rfl rfl⟩
  | checkpoint =>
    simp only [step] at run
    split at run
    · cases Option.some.inj run
      exact ⟨counts, own.congr rfl rfl rfl⟩
    · cases run

/-- A call on a finished transaction takes it off the count a second time. -/
theorem step_miscounts (counts : Counts h) (own : Owned h) {op : HandleOp} (refused : ¬ h.OnUnfinished op)
    (run : h.step op = some h') : ¬ Counts h' := by
  have off : ∀ {name : Nat} {object : RWTransaction} {d : Database} {o : Option RWTransaction},
      h.objects name = some object → object.state ≠ .uncommitted →
      d.wal.activeTransactions = h.db.wal.activeTransactions - 1 → ¬ Counts ((h.finish d object.begun).put name o) := by
    intro name object d o found state active miscount
    have erased := List.erase_of_not_mem (own.finished name object found state)
    change d.wal.activeTransactions = (h.unfinished.erase object.begun).length at miscount
    rw [erased] at miscount
    unfold Counts at counts
    omega
  cases op with
  | commit name =>
    simp only [step] at run
    split at run
    · rename_i object found
      split at run
      · cases Option.some.inj run
        have state : object.state ≠ .uncommitted := fun state => refused fun object' found' => by
          rw [found] at found'
          cases Option.some.inj found'
          exact state
        exact off found state rfl
      · cases run
    · cases run
  | abort name evicted =>
    simp only [step] at run
    split at run
    · rename_i object found
      split at run
      · split at run
        · rename_i d returned
          cases Option.some.inj run
          have state : object.state ≠ .uncommitted := fun state => refused fun object' found' => by
            rw [found] at found'
            cases Option.some.inj found'
            exact state
          exact off found state (abort_active returned)
        · cases run
      · cases run
    · cases run
  | _ => exact absurd trivial refused

theorem owned_start (d : Database) : Owned (start d) :=
  ⟨List.nodup_nil, by simp [start], by simp [start], by simp [start, Holds], by simp [start, Holds], by simp [start]⟩

theorem reaches {d : Database} (idle : d.wal.activeTransactions = 0) (reach : Reaches step OnUnfinished (start d) h) :
    Counts h ∧ Owned h :=
  reach.invariant ⟨idle, owned_start d⟩ fun _ _ _ inv admitted run => step_counts inv.1 inv.2 admitted run

/-- While commit and abort are called on unfinished transactions only, the count is right and a
checkpoint meets no unfinished transaction. The first call on a finished one miscounts. -/
theorem active_counts_unfinished {d : Database} (idle : d.wal.activeTransactions = 0)
    (reach : Reaches step OnUnfinished (start d) h) : Counts h ∧
      (∀ h', h.step .checkpoint = some h' → h.unfinished = []) ∧
      ∀ op h', h.step op = some h' → (Counts h' ↔ h.OnUnfinished op) := by
  obtain ⟨counts, own⟩ := reaches idle reach
  refine ⟨counts, fun h' run => ?_, fun op h' run => ⟨fun counts' => ?_, fun admitted => ?_⟩⟩
  · simp only [step] at run
    split at run
    · rename_i waited
      have length : h.db.wal.activeTransactions = h.unfinished.length := counts
      exact List.eq_nil_of_length_eq_zero (by omega)
    · cases run
  · by_contra refused
    exact step_miscounts counts own refused run counts'
  · exact (step_counts counts own admitted run).1

instance (o : Option RWTransaction) : Decidable (∀ object, o = some object → object.state = .uncommitted) :=
  match o with
  | none => isTrue (by simp)
  | some object => decidable_of_iff (object.state = .uncommitted) (by simp)

instance (h : Handles) : (op : HandleOp) → Decidable (h.OnUnfinished op)
  | .commit name => inferInstanceAs (Decidable (∀ object, h.objects name = some object → _))
  | .abort name _ => inferInstanceAs (Decidable (∀ object, h.objects name = some object → _))
  | .begin _ | .getPage _ | .write .. | .moveConstruct .. | .moveAssign .. | .destroy .. | .evict _
  | .requestCheckpoint | .checkpoint => isTrue trivial

def emptyDatabase : Database := { wal := {}, pages := fun _ => 0 }

/-- A transaction commits, another one is moved and its old object destroyed. -/
def movedTransaction : Handles :=
  (run step OnUnfinished (start emptyDatabase) [.begin 0, .getPage 0, .write 0 0 1 [1] none, .commit 0, .begin 1,
    .moveConstruct 2 1, .destroy 1 quiet]).getD (start emptyDatabase)

theorem active_counts_unfinished_moved : Counts movedTransaction ∧
    (∀ h', movedTransaction.step .checkpoint = some h' → movedTransaction.unfinished = []) ∧
    ∀ op h', movedTransaction.step op = some h' → (Counts h' ↔ movedTransaction.OnUnfinished op) :=
  active_counts_unfinished rfl (.of_isSome (s := start emptyDatabase) (by decide))

/-- After a second commit, a checkpoint truncates the log under a transaction that has written. -/
theorem committed_twice_miscounts :
    ¬ ∀ (d : Database), d.wal.activeTransactions = 0 → ∀ h, Reaches step (fun _ _ => True) (start d) h →
      Counts h ∧ ∀ h', h.step .checkpoint = some h' → h.unfinished = [] := by
  intro claim
  let h := (run step (fun _ _ => True) (start emptyDatabase) [.begin 0, .commit 0, .commit 0, .begin 1, .getPage 1,
    .write 3 0 1 [1] none, .requestCheckpoint]).getD (start emptyDatabase)
  have reach : Reaches step (fun _ _ => True) (start emptyDatabase) h :=
    .of_isSome (by decide)
  have taken := (claim emptyDatabase rfl h reach).2 _ (rfl : h.step .checkpoint = some _)
  cases taken

end Handles

end DiskMap
