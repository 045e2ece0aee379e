import DiskMap.Map.Tree
import DiskMap.Map.UpdateValue
import DiskMap.Map.WriteBigValue

namespace DiskMap
open ByteMemory LeafNodeStartPage Extents BigValue

/-- The entries go to a leaf of one page. -/
def createLeaf (entries : List KVEntry) : TxProgram Nat := do
  let page ← SpaceManager.allocate 0
  writeInt 8 page usageOffset (entriesSize entries)
  writeInt 2 page entryCountOffset entries.length
  writePage page (dataOffset + 0) (encodeEntries entries)
  return setMsb page 0

/-- An entry that is too long for one page. -/
def createBigLeaf (e : KVEntry) : TxProgram Nat := do
  let page ← SpaceManager.allocate 0
  writeInt 8 page usageOffset (e.key.length + 1 + 8 + e.value.length)
  writeInt 2 page entryCountOffset 1
  writePage page (dataOffset + 0) (e.key ++ [0] ++ leBytes 8 e.value.length)
  BigValue.write page (e.key.length + 1 + 8) 0 e.value
  return setMsb page 0

variable {m : Mem} {t t' : Tx} {held : Multiset Nat} {lists : Nat → FreeList} {page depth : Nat} {entries : List KVEntry}
  {bytes : List UInt8} {e : KVEntry}

theorem setMsb_leaf {page : Nat} (low : page < 2 ^ 63) : setMsb page 0 = page := by
  unfold setMsb
  omega

theorem setMsb_node {page : Nat} (low : page < 2 ^ 63) : setMsb page 1 = page + 2 ^ 63 := by
  unfold setMsb
  omega

/-- What is in a new leaf before its value goes to continuation regions. -/
def startLeaf (page usage count : Nat) (bytes : List UInt8) (t : Tx) : Tx :=
  ((t.write page usageOffset 8 (leBytes 8 usage)).write page entryCountOffset 2 (leBytes 2 count)).write page (dataOffset + 0)
    bytes.length bytes

theorem startLeaf_spec (zero : ZeroPage t.mem page) (usage count : Nat) (bytes : List UInt8) (small : usage < 2 ^ 64)
    (few : count < 2 ^ 16) (inside : bytes.length ≤ capacity) :
    Touched (leafPages page []) t (startLeaf page usage count bytes t) ∧ Chained (startLeaf page usage count bytes t).mem [page] ∧
      LeafNodeStartPage.usage (startLeaf page usage count bytes t).mem page = usage ∧
      LeafNodeStartPage.entryCount (startLeaf page usage count bytes t).mem page = count ∧
      Stores (startLeaf page usage count bytes t).mem (leafExtents page []) bytes := by
  have mine := start_mem page []
  have whole : dataOffset + capacity = pageSize := by decide
  obtain ⟨m₁, is₁⟩ : ∃ m₁, overwrite t.mem (page * pageSize + usageOffset) 8 (leBytes 8 usage) = m₁ := ⟨_, rfl⟩
  obtain ⟨m₂, is₂⟩ : ∃ m₂, overwrite m₁ (page * pageSize + entryCountOffset) 2 (leBytes 2 count) = m₂ := ⟨_, rfl⟩
  have mem : (startLeaf page usage count bytes t).mem = overwrite m₂ (page * pageSize + (dataOffset + 0)) bytes.length bytes := by
    rw [← is₂, ← is₁]
    rfl
  obtain ⟨next₁, usage₁, _, data₁⟩ := usage_write t.mem page small
  obtain ⟨next₃, usage₃, count₃⟩ := header_write m₂ page 0 bytes.length bytes
  have before : ∀ start, start + 8 ≤ entryCountOffset → leAt m₂ (page * pageSize + start) 8 = leAt m₁ (page * pageSize + start) 8 :=
    fun start apart => is₂ ▸ leAt_overwrite_outside (by omega)
  have count₂ : LeafNodeStartPage.entryCount m₂ page = count := by
    rw [LeafNodeStartPage.entryCount, ← is₂, leAt_overwrite_self]
    exact Nat.mod_eq_of_lt few
  have data₂ : ∀ i, i < capacity → m₂ (page * pageSize + dataOffset + i) = 0 := by
    intro i bound
    rw [← is₂, overwrite_outside (Or.inr (by unfold entryCountOffset dataOffset; omega)), ← is₁, data₁ i, Nat.add_assoc]
    exact zero _ (by omega)
  rw [is₁] at next₁ usage₁
  refine ⟨.trans (.trans (.write mine (by decide) _) (.write mine (by decide) _)) (.write mine (by omega) _),
    chained_cons.mpr ⟨?_, fun i p found => by cases found⟩, ?_, ?_, fun i inside' => ?_⟩
  · rw [mem]
    exact (next₃.trans (before nextOffset (by decide))).trans (next₁.trans (zero.leAt_eq (by decide)))
  · rw [mem]
    exact (usage₃.trans (before usageOffset (by decide))).trans usage₁
  · rw [mem]
    exact count₃.trans count₂
  · rw [leafExtents, List.zipIdx_nil, List.map_nil, total_cons, total_nil] at inside'
    dsimp only at inside'
    rw [leafExtents, locate_first (by omega), mem, Nat.add_zero]
    by_cases stored : i < bytes.length
    · rw [overwrite_inside (by omega) (by omega)]
      exact congrArg (bytes.getD · 0) (by omega)
    · rw [overwrite_outside (by omega), data₂ i (by omega), List.getD_eq_default _ _ (by omega)]

/-- What has been built in pages that were allocated for it. -/
structure Built (held : Multiset Nat) (depth : Nat) (entries : List KVEntry) (t : Tx) (result : Nat) (t' : Tx) : Prop where
  tree : ∃ sub : Tree, sub.entry = result ∧ sub.Rep t'.mem ∧ sub.Sorts depth entries ∧
    ∃ lists, Space lists (held + sub.pages) t'
  frame : Frame held t t'

theorem leafPages_nil (page : Nat) : leafPages page [] = Multiset.Ico page (page + 2 ^ 0) := by
  simp [leafPages, chainRegions, pagesOf]

theorem single_page (page : Nat) : leafPages page [] = {page} := by
  rw [leafPages_nil]
  refine (Multiset.Nodup.ext Multiset.nodup_Ico (Multiset.nodup_singleton page)).mpr fun p => ?_
  rw [Multiset.mem_Ico, Multiset.mem_singleton]
  omega

theorem allocated_leaf {t₁ : Tx} (allocated : Allocated lists held 0 t page t₁) :
    (∃ lists, Space lists (held + leafPages page []) t₁) ∧ ZeroPage t₁.mem page ∧ page ≠ 0 ∧ page < 2 ^ 63 := by
  obtain ⟨lists₁, space, _⟩ := allocated.space
  have mine : page ∈ held + Multiset.Ico page (page + 2 ^ 0) := Multiset.mem_add.mpr (Or.inr (Multiset.mem_Ico.mpr ⟨le_rfl, by omega⟩))
  have bounds := space.held_bounds mine
  have bound : MetaPage.nextFreePage t₁.mem ≤ 2 ^ 51 := space.bound
  rw [← leafPages_nil] at space
  exact ⟨⟨lists₁, space⟩, allocated.zero page le_rfl (by omega), by omega, by omega⟩

/-- Entries that can be stored in a leaf. -/
structure Storable (entries : List KVEntry) : Prop where
  keys : WellKeyed entries
  short : ∀ e ∈ entries, e.key.length ≤ maxKeyLength
  sizes : ∀ e ∈ entries, e.size ≤ chainCapacity 30

theorem createLeaf_fits (space : Space lists held t) (storable : Storable entries) (nonempty : entries ≠ [])
    (fits : entriesSize entries ≤ capacity) :
    Fits (MetaPage.nextFreePage t.mem + 1) (createLeaf entries t) (Built held depth entries t) := by
  have room : capacity < 2 ^ 16 := by decide
  refine (allocate_fits space (by omega)).bind le_rfl fun page t₁ allocated le => ?_
  obtain ⟨⟨lists₁, space₁⟩, zero, nonzero, low⟩ := allocated_leaf allocated
  obtain ⟨touched, chained, usage, count, stores⟩ := startLeaf_spec zero (entriesSize entries) entries.length
    (encodeEntries entries) (by omega) (entries_few fits) (by rw [encodeEntries_length]; exact fits)
  obtain ⟨space', next, _⟩ := space₁.touched touched fun p member => Or.inr (Multiset.mem_add.mpr (Or.inr member))
  rw [writeInt_bind, writeInt_bind, writePage_bind, Program.pure_run, setMsb_leaf low]
  refine .intro rfl ⟨⟨.leaf page entries [], rfl, ⟨nonzero, low, ?_⟩, ⟨trivial, rfl, trivial⟩, lists₁, space'⟩,
    allocated.frame.trans (touched.frame space₁)⟩ (next.le.trans le)
  exact
    { links := chained
      usage := usage
      entryCount := count
      fits := fits
      single := fun impossible => absurd rfl impossible
      few := Nat.zero_le _
      nonempty := nonempty
      keys := storable.keys
      short := storable.short
      content := stores }

theorem createBigLeaf_fits (space : Space lists held t) (storable : Storable [e]) (large : capacity < e.size) :
    Fits (MetaPage.nextFreePage t.mem + (1 + e.size / 512)) (createBigLeaf e t) (Built held depth [e] t) := by
  have short := storable.short e List.mem_cons_self
  have size := storable.sizes e List.mem_cons_self
  have small : chainCapacity 30 < 2 ^ 64 := by decide
  have is : e.size = e.key.length + 9 + e.value.length := rfl
  have head : (e.key ++ [0] ++ leBytes 8 e.value.length).length = e.key.length + 9 := by simp
  have inPage : startOffset (e.key.length + 9) .start < pageSize := by
    unfold maxKeyLength at short
    unfold startOffset dataOffset pageSize
    dsimp only
    omega
  have inside : e.key.length + 9 ≤ capacity := vo_le_capacity inPage
  refine (allocate_fits space (by omega)).bind (by omega) fun page t₁ allocated le => ?_
  obtain ⟨⟨lists₁, space₁⟩, zero, nonzero, low⟩ := allocated_leaf allocated
  obtain ⟨touched, chained, usage, count, stores⟩ := startLeaf_spec zero e.size 1 (e.key ++ [0] ++ leBytes 8 e.value.length)
    (by omega) (by omega) (by rw [head]; exact inside)
  obtain ⟨space₂, next₂, _⟩ := space₁.touched touched fun p member => Or.inr (Multiset.mem_add.mpr (Or.inr member))
  rw [writeInt_bind, writeInt_bind, writePage_bind]
  change Fits _ ((BigValue.write page (e.key.length + 9) 0 e.value >>= fun _ => pure (setMsb page 0))
    (startLeaf page e.size 1 (e.key ++ [0] ++ leBytes 8 e.value.length) t₁)) _
  refine (BigValue.write_fits inPage (before_twenty_pos inPage) space₂ chained (Nat.zero_le _) stores ?_ ?_).bind (by omega) ?_
  · rw [head]
    exact inside
  · rw [Nat.zero_add, ← is]
    exact size
  · rintro _ t₃ ⟨regions, n, few, requires, length, reshaped⟩ le'
    rw [Nat.zero_add, ← is] at requires le'
    rw [List.length_nil, Nat.zero_max] at length
    obtain ⟨lists₃, space₃⟩ := reshaped.space
    have bytes : splice (e.key ++ [0] ++ leBytes 8 e.value.length) (e.key.length + 9 + 0) e.value = encodeEntries [e] := by
      rw [Nat.add_zero, ← head, splice, Nat.sub_self, List.replicate_zero, List.append_nil, List.take_length,
        List.drop_eq_nil_of_le (Nat.le_add_right _ _)]
      simp [encodeEntries, KVEntry.encode]
    rw [bytes] at reshaped
    rw [Program.pure_run, setMsb_leaf low]
    refine .intro rfl ⟨⟨.leaf page [e] regions, rfl, ⟨nonzero, low, ?_⟩, ⟨trivial, rfl, trivial⟩, lists₃, space₃⟩,
      (allocated.frame.trans (touched.frame space₁)).trans reshaped.frame⟩ (by omega)
    have total : entriesSize [e] = e.size := by simp [entriesSize]
    exact
      { links := reshaped.chained
        usage := (reshaped.usage.trans usage).trans total.symm
        entryCount := reshaped.entryCount.trans count
        fits := by rw [total, length]; exact requires.enough
        single := fun _ => ⟨rfl, by rw [total]; exact large⟩
        few := by omega
        nonempty := List.cons_ne_nil _ _
        keys := storable.keys
        short := storable.short
        content := reshaped.stores }

end DiskMap
