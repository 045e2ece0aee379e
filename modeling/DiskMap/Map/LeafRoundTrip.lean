import DiskMap.Map.CopiedRanges
import DiskMap.Map.LeafIntegrity

namespace DiskMap
open ByteMemory LeafNodeStartPage

/-- How many bytes of the leaf `strncmp` reads: up to the first one that differs. -/
def strncmpReads (leaf : Mem) (pos : Nat) : List UInt8 → Nat
  | [] => 0
  | c :: rest => if leaf pos = c ∧ c ≠ 0 then 1 + strncmpReads leaf (pos + 1) rest else 1

/-- The ranges of bytes that the loop of `find_entry_in_leaf` reads, as their beginnings and lengths. -/
def searchRangesFrom (leaf : Mem) (key : List UInt8) : Nat → Nat → List (Nat × Nat)
  | 0, _ => []
  | fuel + 1, pos =>
    if capacity ≤ pos then []
    else if leaf pos = 0 then [(pos, 1)]
    else
      let keySize := strlen leaf pos (capacity - pos) + 1
      let compared := (pos, strncmpReads leaf pos key) :: if strncmpEqual leaf pos key then [(pos + key.length, 1)] else []
      if strncmpEqual leaf pos key ∧ leaf (pos + key.length) = 0 then (pos, 1) :: compared
      else
        (pos, 1) :: compared ++ (pos, keySize) :: (pos + keySize, 8) ::
          searchRangesFrom leaf key fuel (pos + keySize + 8 + leAt leaf (pos + keySize) 8)

/-- `find_entry_in_leaf` reads no byte behind the page. -/
def SearchInside (leaf : Mem) (key : List UInt8) : Prop :=
  ∀ range ∈ searchRangesFrom leaf key capacity 0, range.1 + range.2 ≤ capacity

section Search

variable {leaf : Mem} {pos : Nat} {k key : List UInt8} {entries : List KVEntry}

/-- Comparing does not go behind the NUL of a stored key. -/
theorem compared_inside (stored : slice leaf pos (k ++ [0]).length = k ++ [0]) (keyNoNul : 0 ∉ key) :
    strncmpReads leaf pos key ≤ k.length + 1 ∧ (strncmpEqual leaf pos key → key.length ≤ k.length) := by
  induction key generalizing pos k with
  | nil => exact ⟨Nat.zero_le _, fun _ => Nat.zero_le _⟩
  | cons c key ih =>
    obtain ⟨keyFirst, keyLater⟩ := not_or.mp fun either => keyNoNul (List.mem_cons.mpr either)
    cases k with
    | nil =>
      have nul := (stored_cons stored).1
      have different : ¬ (leaf pos = c ∧ c ≠ 0) := fun both => keyFirst (nul.symm.trans both.1)
      rw [strncmpReads, if_neg different]
      refine ⟨le_rfl, fun equal => ?_⟩
      rw [strncmpEqual, nul, Bool.and_eq_true, beq_iff_eq] at equal
      exact absurd equal.1 keyFirst
    | cons b k =>
      obtain ⟨_, rest⟩ := stored_cons stored
      obtain ⟨reads, shorter⟩ := ih rest keyLater
      rw [strncmpReads, strncmpEqual, List.length_cons, List.length_cons]
      constructor
      · split <;> omega
      · intro equal
        rw [Bool.and_eq_true, Bool.or_eq_true, beq_iff_eq, beq_iff_eq] at equal
        exact Nat.succ_le_succ (shorter (equal.2.resolve_left (Ne.symm keyFirst)))

theorem searchRanges_inside (holds : Holds leaf pos (capacity - pos) (encodeEntries entries)) (fits : pos + entriesSize entries ≤ capacity)
    (inside : HeadersInside pos entries) (keys : ∀ e ∈ entries, NulFree e.key) (noNul : 0 ∉ key) (fuel : Nat) :
    ∀ range ∈ searchRangesFrom leaf key fuel pos, range.1 + range.2 ≤ capacity := by
  induction fuel generalizing pos entries with
  | zero => exact fun range member => absurd member List.not_mem_nil
  | succ fuel ih =>
    cases entries with
    | nil =>
      rw [searchRangesFrom]
      split
      · exact fun range member => absurd member List.not_mem_nil
      · have ends : leaf pos = 0 := holds 0 (by omega)
        rw [if_pos ends]
        intro range member
        rw [List.mem_singleton.mp member]
        omega
    | cons e rest =>
      obtain ⟨stored, length, _, later⟩ := entry_stored holds inside
      have size : e.size = e.key.length + 9 + e.value.length := rfl
      have header := inside.1
      have free := (keys e List.mem_cons_self).2
      have keySize := strlen_eq free stored (show e.key.length < capacity - pos by omega)
      obtain ⟨reads, shorter⟩ := compared_inside stored noNul
      rw [entriesSize_cons] at fits
      have next : pos + (e.key.length + 1) + 8 + e.value.length = pos + e.size := by omega
      have deeper := ih later (by omega) inside.2.2 fun e' member => keys e' (List.mem_cons_of_mem _ member)
      have compared : ∀ range ∈ (pos, 1) :: (pos, strncmpReads leaf pos key) ::
          (if strncmpEqual leaf pos key then [(pos + key.length, 1)] else []), range.1 + range.2 ≤ capacity := by
        intro range member
        rcases List.mem_cons.mp member with rfl | member
        · dsimp only
          omega
        rcases List.mem_cons.mp member with rfl | member
        · dsimp only
          omega
        split at member
        · rename_i equal
          have bound := shorter equal
          rw [List.mem_singleton.mp member]
          dsimp only
          omega
        · exact absurd member List.not_mem_nil
      rw [searchRangesFrom, if_neg (by omega), if_neg (entry_first holds inside (keys e List.mem_cons_self))]
      simp only [keySize, ← Nat.add_assoc pos e.key.length 1, length]
      split
      · exact compared
      · rw [Nat.add_assoc pos, next]
        intro range member
        rcases List.mem_append.mp member with first | member
        · exact compared range first
        rcases List.mem_cons.mp member with rfl | member
        · dsimp only
          omega
        rcases List.mem_cons.mp member with rfl | member
        · dsimp only
          omega
        · exact deeper range member

end Search

/-- What the readers of a page make of the entries in it. None of them reads outside the page. -/
structure ReadsBack (m : Mem) (page : Nat) (entries : List KVEntry) (beyond : Mem) (frame : PoolFrame) : Prop where
  copied : getEntriesInLeaf (data m page beyond) = entries
  found : ∀ front e back, entries = front ++ e :: back → findEntryInLeaf (data m page beyond) e.key = some (entriesSize front)
  absent : ∀ key, NulFree key → key ∉ entries.map KVEntry.key → findEntryInLeaf (data m page beyond) key = none
  accepted : ∃ enough, ∀ fuel, enough ≤ fuel → validateLeafIntegrity (fun i => m (page * pageSize + i)) frame fuel = .accepts
  copyInside : ReadsInside (data m page beyond)
  searchInside : ∀ key, NulFree key → SearchInside (data m page beyond) key

variable {m : Mem} {page : Nat} {entries : List KVEntry} {lists : Nat → FreeList} {held : Multiset Nat} {t : Tx}

theorem offsetOf_split {front back : List KVEntry} {e : KVEntry} (nodup : ((front ++ e :: back).map KVEntry.key).Nodup) :
    offsetOf e.key (front ++ e :: back) = some (entriesSize front) := by
  induction front with
  | nil =>
    rw [List.nil_append, offsetOf, if_pos rfl]
    rfl
  | cons first front ih =>
    rw [List.cons_append, List.map_cons, List.nodup_cons] at nodup
    have different : first.key ≠ e.key := fun same => nodup.1 (same ▸ List.mem_map_of_mem (List.mem_append_right _ List.mem_cons_self))
    rw [List.cons_append, offsetOf, if_neg different, ih nodup.2, entriesSize_cons]
    rfl

theorem SinglePage.readsBack (leaf : SinglePage m page entries) (keys : WellKeyed entries) (beyond : Mem) (frame : PoolFrame) :
    ReadsBack m page entries beyond frame := by
  have fits : 0 + entriesSize entries ≤ capacity := by
    rw [Nat.zero_add]
    exact leaf.fits
  have inside := HeadersInside.of_fits fits
  have holds : Holds (data m page beyond) 0 (capacity - 0) (encodeEntries entries) := data_holds_iff.mpr leaf.content
  have enough := inside.length_le_capacity
  have encodes : Encodes (fun i => m (page * pageSize + i)) 0 entries :=
    { keys := keys.nulFree
      inside := inside
      holds := fun i within => by
        change m (page * pageSize + (dataOffset + (0 + i))) = _
        rw [Nat.zero_add, ← Nat.add_assoc]
        exact leaf.content i within }
  have count : leAt (fun i => m (page * pageSize + i)) entryCountOffset 2 = entries.length := by
    rw [← leaf.entryCount, LeafNodeStartPage.entryCount, leAt, leAt]
    exact congrArg leNat (List.map_congr_left fun i _ => by rw [Nat.add_assoc])
  have small : ∀ other, Encodes (fun i => m (page * pageSize + i)) 0 other → ¬ capacity < entriesSize other := fun other encodes' => by
    rw [← (encodes.unique encodes').2]
    exact Nat.not_lt.mpr leaf.fits
  exact
    { copied := getEntriesFrom_eq enough holds fits inside keys.nulFree
      found := fun front e back shape => by
        rw [leaf.findEntryInLeaf_eq keys (keys.nulFree e (by rw [shape]; exact List.mem_append_right _ List.mem_cons_self)).2]
        subst shape
        exact offsetOf_split keys.nodup
      absent := fun key noNul other => by
        rw [leaf.findEntryInLeaf_eq keys noNul.2]
        exact offsetOf_eq_none.mpr other
      accepted := by
        obtain ⟨bound, checks⟩ := @OverrunGuarded.checksLeaf _ frame fun other encodes' far => absurd far (small other encodes')
        refine ⟨bound, fun fuel le => (checks fuel le).2.2.mpr ⟨entries, encodes, count, fun far => ?_⟩⟩
        exact absurd far (small entries encodes)
      copyInside := entryRanges_inside holds fits inside keys.nulFree capacity
      searchInside := fun key noNul => searchRanges_inside holds fits inside keys.nulFree noNul.2 capacity }

theorem createLeaf_single (space : Space lists held t) (fits : entriesSize entries ≤ capacity) :
    Fits (MetaPage.nextFreePage t.mem + 1) (createLeaf entries t) fun page t' => SinglePage t'.mem page entries := by
  have room : capacity < 2 ^ 16 := by decide
  refine (allocate_fits space (by omega)).bind le_rfl fun page t₁ allocated le => ?_
  obtain ⟨⟨lists₁, space₁⟩, zero, _, low⟩ := allocated_leaf allocated
  obtain ⟨touched, chained, usage, count, stores⟩ := startLeaf_spec zero (entriesSize entries) entries.length
    (encodeEntries entries) (by omega) (entries_few fits) (by rw [encodeEntries_length]; exact fits)
  obtain ⟨_, next, _⟩ := space₁.touched touched fun p member => Or.inr (Multiset.mem_add.mpr (Or.inr member))
  rw [writeInt_bind, writeInt_bind, writePage_bind, Program.pure_run, setMsb_leaf low]
  refine .intro rfl ⟨chained 0 page rfl, usage, count, fits, fun i within => ?_⟩ (next.le.trans le)
  have byte := stores i (by rw [total_leafExtents]; exact within)
  rwa [leafExtents, Extents.locate_first within] at byte

/-- The page that `create_subtree` fills for entries that fit there gives them back to each of its readers. -/
theorem buildSubtree_readsBack (space : Space lists held t) (room : MetaPage.nextFreePage t.mem + 1 ≤ maxPages) (keys : WellKeyed entries)
    (fits : entriesSize entries ≤ capacity) (create : Nat → Nat → List KVEntry → TxProgram Unit) (depth : Nat) :
    (buildSubtree create depth entries t).Ends fun page t' => ∀ beyond frame, ReadsBack t'.mem page entries beyond frame := by
  rw [buildSubtree.eq_def, if_pos fits]
  rcases createLeaf_single space fits with ends | ⟨_, more⟩
  · refine ends.mono fun page t' single beyond frame => ?_
    exact single.1.readsBack keys beyond frame
  · omega

theorem buildSubtree_readsBack_full : ∃ t, (buildSubtree (fun _ _ _ => .stuck) 0 [⟨[97], List.replicate 4068 0⟩] t).Ends
    fun page t' => ∀ beyond frame, ReadsBack t'.mem page [⟨[97], List.replicate 4068 0⟩] beyond frame := by
  obtain ⟨_, t, _, wf, next⟩ := construct_wellFormed (m := fun _ => 0) fun _ _ _ _ => rfl
  have size : entriesSize [(⟨[97], List.replicate 4068 0⟩ : KVEntry)] = capacity := by
    rw [entriesSize_cons, KVEntry.size, List.length_replicate]
    rfl
  have keys : WellKeyed [(⟨[97], List.replicate 4068 0⟩ : KVEntry)] := by
    refine ⟨fun e member => ?_, by rw [List.map_singleton]; exact List.nodup_singleton _⟩
    rw [List.mem_singleton.mp member]
    exact (by decide : NulFree [97])
  exact ⟨t, buildSubtree_readsBack wf.space (by rw [next]; decide) keys size.le _ 0⟩

end DiskMap
