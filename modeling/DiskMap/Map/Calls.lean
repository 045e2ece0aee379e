import DiskMap.Map.WritePart
import Mathlib.Data.Set.Card

namespace DiskMap
open ByteMemory LeafNodeStartPage BigValue DiskMap.Tree

/-- What a map is for: a value for some of the keys. -/
abbrev Contents : Type := List UInt8 → Option (List UInt8)

/-- The calls with which a read-write transaction changes the map. -/
inductive Call
  | write (key buffer : List UInt8)
  | writePart (key : List UInt8) (offset : Nat) (buffer : List UInt8)
  | append (key buffer : List UInt8)
  | remove (key : List UInt8)

namespace Call

def key : Call → List UInt8
  | write key _ | writePart key _ _ | append key _ | remove key => key

/-- The value that the key has after the call. -/
def value (old : Option (List UInt8)) : Call → Option (List UInt8)
  | write _ buffer => some buffer
  | writePart _ offset buffer => some (partValue old offset buffer)
  | append _ buffer => some (old.getD [] ++ buffer)
  | remove _ => none

/-- Only `remove` returns something: whether it has found the key. -/
def result (old : Option (List UInt8)) : Call → Option Bool
  | remove _ => some old.isSome
  | _ => none

def run (beyond : Mem) : Call → TxProgram (Option Bool)
  | write key buffer => do
    DiskMap.write beyond key (some buffer)
    return none
  | writePart key offset buffer => do
    DiskMap.writePart beyond key offset (some buffer)
    return none
  | append key buffer => do
    DiskMap.append beyond key (some buffer)
    return none
  | remove key => do
    let found ← DiskMap.remove beyond key
    return some found

/-- So many pages are enough for a call. -/
def cost (old : Option (List UInt8)) (call : Call) : Nat :=
  match call.value old with
  | some v => writeCost (KVEntry.size ⟨call.key, v⟩)
  | none => 32

end Call

namespace Contents

def apply (c : Contents) (call : Call) : Contents := Function.update c call.key (call.value (c call.key))

/-- The contents after some calls. -/
def after (c : Contents) (calls : List Call) : Contents := calls.foldl apply c

def results : Contents → List Call → List (Option Bool)
  | _, [] => []
  | c, call :: more => call.result (c call.key) :: (c.apply call).results more

def cost : Contents → List Call → Nat
  | _, [] => 0
  | c, call :: more => call.cost (c call.key) + (c.apply call).cost more

end Contents

/-- What the digits of the keys lead to. -/
def Tree.contents (tree : Tree) : Contents := fun key => tree.lookup key 0

/-- What `remove` needs: no key with a zero byte is taken for another one, and a node that is raised has its entries where
they are found from its new place. -/
structure Removable (beyond : Mem) (tree : Tree) (t : Tx) (key : List UInt8) : Prop where
  unconfused : ¬ NulFree key → tree.bucketEntry key 0 ≠ 0 → findEntryInLeaf (data t.mem (tree.bucketEntry key 0) beyond) key = none
  found : ∀ sub depth, Raises tree key sub depth → ∀ e ∈ sub.entries, sub.lookup e.key depth = some e.value

/-- What the value of a key needs: a key without a zero byte and of a length that is allowed, a size for which the regions
are enough, and room for it in one leaf with the entries of the same hash. -/
structure Settable (tree : Tree) (key v : List UInt8) : Prop where
  noNul : NulFree key
  short : key.length ≤ maxKeyLength
  size : KVEntry.size ⟨key, v⟩ ≤ chainCapacity 30
  separable : Separable ⟨key, v⟩ (tree.others key)

/-- What a call needs of the map that it finds. -/
def Call.Admissible (beyond : Mem) (tree : Tree) (t : Tx) : Call → Prop
  | write key buffer => Settable tree key buffer ∧ ∀ v, tree.lookup key 0 = some v → Replaceable tree t key v buffer
  | writePart key offset buffer => Settable tree key (partValue (tree.lookup key 0) offset buffer) ∧ Writable tree key offset buffer
  | append key buffer => Settable tree key ((tree.lookup key 0).getD [] ++ buffer) ∧ Writable tree key appendOffset buffer
  | remove key => Removable beyond tree t key

variable {t t' : Tx} {lists : Nat → FreeList} {tree tree' : Tree} {key v buffer : List UInt8} {beyond : Mem} {call : Call} {calls : List Call}
  {c : Contents}

theorem partValue_end (old : Option (List UInt8)) (buffer : List UInt8) : partValue old appendOffset buffer = old.getD [] ++ buffer := by
  cases old with
  | none => exact partValue_append_none buffer
  | some v => exact partValue_append v buffer

/-- The map after a call. -/
def Steps (tree : Tree) (t : Tx) (call : Call) (t' : Tx) : Prop :=
  ∃ tree' lists', WellFormed tree' lists' t' ∧ tree'.contents = tree.contents.apply call ∧ t'.strayWrites = t.strayWrites

theorem Resorts.steps (call : Call) (resorts : Resorts tree t call.key v t') (wf : WellFormed tree lists t)
    (is : call.value (tree.lookup call.key 0) = some v) : Steps tree t call t' := by
  obtain ⟨tree', lists', wf', entries, stray⟩ := resorts.sets wf
  refine ⟨tree', lists', wf', funext fun key' => ?_, stray⟩
  have found := lookup_set wf.rep wf.placed wf'.rep wf'.placed entries key'
  rw [Contents.apply, Function.update_apply, show tree.contents call.key = tree.lookup call.key 0 from rfl, is]
  exact found

/-- `remove` takes away the entry of the key, and no other. -/
theorem WellFormed.remove_fits (wf : WellFormed tree lists t) (removable : Removable beyond tree t key) :
    Fits (MetaPage.nextFreePage t.mem + 32) (remove beyond key t) fun r t' => r = (tree.lookup key 0).isSome ∧
      ∃ tree' lists', WellFormed tree' lists' t' ∧ tree'.entries = tree.others key ∧ t'.strayWrites = t.strayWrites := by
  cases stored : tree.lookup key 0 with
  | none =>
    have none_ : tree.bucketEntry key 0 ≠ 0 → findEntryInLeaf (data t.mem (tree.bucketEntry key 0) beyond) key = none := fun leaf => by
      by_cases noNul : NulFree key
      · exact wf.rooted.leaf_absent noNul stored leaf beyond
      · exact removable.unconfused noNul leaf
    exact .intro (wf.rooted.remove_absent beyond none_) ⟨rfl, tree, lists, wf, (others_absent wf.rep wf.placed stored).symm, rfl⟩ (Nat.le_add_right _ _)
  | some v =>
    obtain ⟨b, rest, page, front, back, regions, s⟩ := wf.storedIn stored
    obtain rfl := s.tree
    refine (DiskMap.remove_fits wf s.follows s.offset beyond).mono le_rfl ?_
    rintro _ t' ⟨rfl, tree', lists', rooted', left, kv, stray⟩
    have entries := left.entries key v
    have nodup := entries_keys_nodup wf.rep wf.placed
    have placed := left.placed s.follows wf.placed fun sub depth raises =>
      placed_of_lookup (Multiset.nodup_of_le (Multiset.map_le_map raises.entries_le) nodup) (removable.found sub depth raises)
    have count := wf.kvEntryCount
    rw [entries, Multiset.card_cons, ← kv] at count
    exact ⟨rfl, tree', lists', ⟨rooted'.root, rooted'.rep, placed, rooted'.space, Nat.succ.inj count⟩,
      (others_stored wf.rep wf.placed entries).symm, stray⟩

/-- A call does to the map what it does to its contents. -/
theorem WellFormed.call_fits (wf : WellFormed tree lists t) (admissible : call.Admissible beyond tree t) :
    Fits (MetaPage.nextFreePage t.mem + call.cost (tree.contents call.key)) (call.run beyond t)
      fun r t' => r = call.result (tree.contents call.key) ∧ Steps tree t call t' := by
  have same : tree.contents call.key = tree.lookup call.key 0 := rfl
  rw [same]
  cases call with
  | write key buffer =>
    obtain ⟨settable, replaceable⟩ := admissible
    have fits := wf.write_fits settable.noNul settable.short settable.size (fun _ => settable.separable) replaceable beyond
    exact fits.bind le_rfl fun _ t' resorts le => .intro rfl ⟨rfl, Resorts.steps (.write key buffer) resorts wf rfl⟩ le
  | writePart key offset buffer =>
    obtain ⟨settable, writable⟩ := admissible
    have fits := wf.writePart_fits settable.noNul settable.short settable.size (fun _ => settable.separable) writable beyond
    exact fits.bind le_rfl fun _ t' resorts le => .intro rfl ⟨rfl, Resorts.steps (.writePart key offset buffer) resorts wf rfl⟩ le
  | append key buffer =>
    obtain ⟨settable, writable⟩ := admissible
    rw [← partValue_end] at settable
    have value : Call.value (tree.lookup key 0) (.append key buffer) = some (partValue (tree.lookup key 0) appendOffset buffer) :=
      congrArg some (partValue_end _ _).symm
    have fits := wf.writePart_fits settable.noNul settable.short settable.size (fun _ => settable.separable) writable beyond
    have cost : (Call.append key buffer).cost (tree.lookup key 0) = writeCost (KVEntry.size ⟨key, partValue (tree.lookup key 0) appendOffset buffer⟩) := by
      rw [Call.cost, value]
      rfl
    rw [show (Call.append key buffer).key = key from rfl, cost]
    exact fits.bind le_rfl fun _ t' resorts le => .intro rfl ⟨rfl, Resorts.steps (.append key buffer) resorts wf value⟩ le
  | remove key =>
    refine (wf.remove_fits admissible).bind le_rfl ?_
    rintro r t' ⟨is, tree', lists', wf', entries, stray⟩ le
    refine .intro rfl ⟨congrArg some is, tree', lists', wf', funext fun key' => ?_, stray⟩ le
    rw [Contents.apply, Function.update_apply]
    refine Option.ext fun w => ?_
    have found : tree'.contents key' = some w ↔ _ := lookup_iff wf'.rep wf'.placed
    rw [found, entries, Tree.others, Multiset.mem_filter]
    by_cases other : key' = key
    · rw [if_pos (show key' = Call.key (.remove key) from other)]
      refine ⟨fun member => absurd other member.2, fun is => ?_⟩
      cases is
    · rw [if_neg (show key' ≠ Call.key (.remove key) from other)]
      exact (and_iff_left other).trans (lookup_iff wf.rep wf.placed).symm

end DiskMap
