import DiskMap.Map.HashCollisions

namespace DiskMap
open ByteMemory MachineInts LeafNodeStartPage DiskMap.Tree

variable {t t' : Tx} {held : Multiset Nat} {lists : Nat → FreeList} {page parent index depth : Nat} {front back : List KVEntry}
  {key v new : List UInt8} {tree sub : Tree} {b : Branch} {rest : List Branch}

theorem replaceValue_eq (keys : WellKeyed (front ++ ⟨key, v⟩ :: back)) :
    replaceValue key new (front ++ ⟨key, v⟩ :: back) = front ++ ⟨key, new⟩ :: back := by
  have nodup := keys.nodup
  clear keys
  induction front with
  | nil => exact if_pos rfl
  | cons e front ih =>
    rw [List.cons_append, List.map_cons, List.nodup_cons] at nodup
    have other : e.key ≠ key := fun same => nodup.1 (by simp [same])
    rw [List.cons_append, replaceValue, if_neg other, ih nodup.2, List.cons_append]

/-- Nothing but zeros is left behind the new entries, or they do not fit into the page. -/
def LeavesZeros (old entries : List KVEntry) : Prop :=
  capacity < entriesSize entries ∨ ∀ b ∈ (encodeEntries old).drop (entriesSize entries), b = 0

theorem leavesZeros_longer (longer : v.length ≤ new.length) : LeavesZeros (front ++ ⟨key, v⟩ :: back) (front ++ ⟨key, new⟩ :: back) := by
  refine Or.inr fun byte member => absurd member ?_
  rw [List.drop_eq_nil_of_le ?_]
  · exact List.not_mem_nil
  · rw [encodeEntries_length, entriesSize_append, entriesSize_append, entriesSize_cons, entriesSize_cons, KVEntry.size, KVEntry.size]
    dsimp only
    omega

theorem entriesSize_middle (front back : List KVEntry) (key v : List UInt8) :
    entriesSize (front ++ ⟨key, v⟩ :: back) = entriesSize front + entriesSize back + key.length + 9 + v.length := by
  rw [entriesSize_append, entriesSize_cons, KVEntry.size]
  dsimp only
  omega

/-- What is written of a leaf of one page is the entries with the new value. -/
theorem updateEntry_run (at_ : LeafAt t.mem page (front ++ ⟨key, v⟩ :: back) []) (size : KVEntry.size ⟨key, new⟩ ≤ chainCapacity 30)
    (parent index depth : Nat) (beyond : Mem) :
    updateEntry beyond parent index depth page (entriesSize front) key new t =
      (if capacity < entriesSize (front ++ ⟨key, new⟩ :: back) then createSubtree parent index depth (front ++ ⟨key, new⟩ :: back)
        else updateValueTrivially page (entriesSize front) key new) t := by
  have single := at_.singlePage
  have small : chainCapacity 30 < 2 ^ 63 := by decide
  have fits : entriesSize (front ++ ⟨key, v⟩ :: back) ≤ capacity := single.fits
  have page64 : capacity < 2 ^ 63 := by decide
  rw [KVEntry.size] at size
  dsimp only at size
  have holds : Holds (data t.mem page beyond) 0 (capacity - 0) _ := at_.data_holds beyond
  obtain ⟨_, _, current, _⟩ := entry_stored_at holds at_.headersInside
  rw [Nat.zero_add] at current
  have newUsage : sub64 (entriesSize (front ++ ⟨key, v⟩ :: back) + new.length) v.length = entriesSize (front ++ ⟨key, new⟩ :: back) := by
    rw [entriesSize_middle] at fits
    rw [entriesSize_middle, entriesSize_middle, sub64_eq (by omega) (by omega)]
    omega
  rw [updateEntry, getPage_bind, single.next, if_neg (not_not.mpr rfl)]
  dsimp only
  rw [getPage_bind, current, getPage_bind, single.usage, newUsage]
  by_cases large : capacity < entriesSize (front ++ ⟨key, new⟩ :: back)
  · rw [if_pos large, if_pos large, getPage_bind, at_.copied beyond, replaceValue_eq at_.keys]
  · rw [if_neg large, if_neg large]

/-- `write_at_node` of a key that is in a leaf of one page. -/
theorem updateEntry_fits (hole : Hole lists held parent index (leaf page (front ++ ⟨key, v⟩ :: back) []) t)
    (storable : Storable (front ++ ⟨key, new⟩ :: back)) (splits : Splits (front ++ ⟨key, new⟩ :: back))
    (agree : Agree (depth + 1) (front ++ ⟨key, new⟩ :: back)) (zeros : LeavesZeros (front ++ ⟨key, v⟩ :: back) (front ++ ⟨key, new⟩ :: back))
    (beyond : Mem) :
    Fits (MetaPage.nextFreePage t.mem + writeCost (KVEntry.size ⟨key, new⟩))
      (updateEntry beyond parent index depth page (entriesSize front) key new t) fun _ t' => ∃ sub : Tree,
        sub.Sorts (depth + 1) (front ++ ⟨key, new⟩ :: back : List KVEntry) ∧ Regrown held parent index sub (MetaPage.kvEntryCount t.mem) t t' := by
  obtain ⟨nonzero, low, at_⟩ := hole.rep
  have single := at_.singlePage
  have fits : entriesSize (front ++ ⟨key, v⟩ :: back) ≤ capacity := single.fits
  rw [updateEntry_run at_ (storable.sizes ⟨key, new⟩ (List.mem_append_right _ List.mem_cons_self))]
  by_cases large : capacity < entriesSize (front ++ ⟨key, new⟩ :: back)
  · rw [if_pos large]
    rw [entriesSize_middle] at fits
    have cost := subtreeCost_insert depth ⟨key, new⟩ (show entriesSize front + entriesSize back ≤ capacity by omega)
    have room : capacity + 18 ≤ 2 * pageSize := by decide
    have count : (leaf page (front ++ ⟨key, v⟩ :: back) []).regionCount = 1 := rfl
    exact (createSubtree_fits hole storable (by simp) splits agree).mono (by unfold writeCost; omega) fun _ _ post => post
  · rw [if_neg large]
    obtain ⟨_, t', run, next', usage', count', content', wrote⟩ := updateValueTrivially_content single (Nat.not_lt.mp large)
    have exact_ : Holds t'.mem (page * pageSize + dataOffset) capacity (encodeEntries (front ++ ⟨key, new⟩ :: back)) := by
      refine (content'.append_iff ?_).mpr (zeros.resolve_left large)
      rw [List.length_drop, encodeEntries_length, encodeEntries_length]
      omega
    have page' : SinglePage t'.mem page (front ++ ⟨key, new⟩ :: back) := ⟨next', usage', count', Nat.not_lt.mp large, exact_⟩
    have rep' : (leaf page (front ++ ⟨key, new⟩ :: back) []).Rep t'.mem :=
      ⟨nonzero, low, .ofSinglePage page' (by simp) storable.keys storable.short⟩
    have pages : (leaf page (front ++ ⟨key, new⟩ :: back) []).pages = (leaf page (front ++ ⟨key, v⟩ :: back) []).pages := rfl
    have touched : Touched (leaf page (front ++ ⟨key, v⟩ :: back) []).pages t t' :=
      (Touched.ofWroteOnly wrote).mono fun p member => Multiset.mem_singleton.mp member ▸ start_mem page []
    obtain ⟨regrown, next⟩ := hole.touched touched pages rfl rep'
    exact .intro run ⟨leaf page _ [], ⟨trivial, rfl, trivial⟩, regrown⟩ (next.le.trans (Nat.le_add_right _ _))

end DiskMap
