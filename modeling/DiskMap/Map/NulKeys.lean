import DiskMap.Map.SharedLeaves

namespace DiskMap
open ByteMemory DiskMap.Tree

variable {t t' : Tx} {tree : Tree} {lists : Nat → FreeList} {key other v : List UInt8} {new : KVEntry} {beyond : Mem}

/-- A reader gets the same in both states. -/
def ReadsSame (beyond : Mem) (key : List UInt8) (t t' : Tx) : Prop :=
  ∃ r r', read beyond key t = .done r t ∧ read beyond key t' = .done r' t' ∧ r'.found = r.found ∧ r'.buffer = r.buffer

theorem findEntryFrom_nul (leaf : Mem) (rest : List UInt8) (fuel pos : Nat) : findEntryFrom leaf (0 :: rest) fuel pos = none := by
  induction fuel generalizing pos with
  | zero => rfl
  | succ fuel ih =>
    rw [findEntryFrom]
    split
    · rfl
    split
    · rfl
    · rename_i first
      rw [if_neg fun both => first (by simpa [strncmpEqual] using both.1)]
      exact ih _

/-- A key that begins with a zero byte is not found in any leaf. -/
theorem read_nul (rest : List UInt8) (ends : (read beyond (0 :: rest) t).Ends fun r _ => r.found = true) : False := by
  rw [read, readPart] at ends
  obtain ⟨⟨parent, index, depth⟩, t₁, _, ends₁⟩ := ends.of_bind
  simp only at ends₁
  rw [getPage_bind] at ends₁
  split at ends₁
  · obtain ⟨_, _, ended, found⟩ := ends₁
    cases ended
    cases found
  · rw [getPage_bind, findEntryInLeaf, findEntryFrom_nul] at ends₁
    obtain ⟨_, _, ended, found⟩ := ends₁
    cases ended
    cases found

/-- A key is not found where no leaf has the part in front of its first NUL, and the meta page has no entry for it. -/
theorem Rooted.read_apart (rooted : Rooted tree lists t) (apart : ∀ e ∈ tree.leafOf key 0, e.key ≠ cutNul key)
    (unlisted : tree.bucketEntry key 0 = 0 → findEntryInLeaf (LeafNodeStartPage.data t.mem 0 beyond) key = none) :
    read beyond key t = .done .notFound t := by
  refine (rooted.reportsAbsent ?_).read
  by_cases empty : tree.bucketEntry key 0 = 0
  · rw [empty]
    exact unlisted empty
  · exact rooted.leaf_apart apart empty beyond

/-- Another key is not taken for a stored or the new one, also where it has a zero byte. If it is not stored and its bucket is empty,
before or afterwards, then it is not found in the meta page. -/
structure Unaffected (beyond : Mem) (tree : Tree) (t : Tx) (new : KVEntry) (other : List UInt8) : Prop where
  unconfused : 0 ∈ other → ∀ e ∈ tree.leafOf other 0, e.key ≠ cutNul other
  parted : 0 ∈ other → cutNul other = new.key → Parted tree new other
  before : tree.bucketEntry other 0 = 0 → findEntryInLeaf (LeafNodeStartPage.data t.mem 0 beyond) other = none
  after : tree.lookup other 0 = none → FilledAfter tree new other ∨ MetaPage.nextFreePage t.mem + writeCost new.size < 2 ^ 16

theorem Resorts.read (resorts : Resorts tree t key v t') (wf : WellFormed tree lists t) (beyond : Mem) :
    (DiskMap.read beyond key t').Ends fun r t'' => t'' = t' ∧ r.found = true ∧ r.buffer = v := by
  obtain ⟨tree', lists', wf', entries, _⟩ := resorts.sets wf
  exact wf'.read_stored ((lookup_set wf.rep wf.placed wf'.rep wf'.placed entries key).trans (if_pos rfl)) beyond

/-- Where the value of a key has been set, what is read for other keys that are unaffected is what was read before. -/
theorem Resorts.readsSame (resorts : Resorts tree t key v t') (wf : WellFormed tree lists t) (different : other ≠ key)
    (unaffected : Unaffected beyond tree t ⟨key, v⟩ other)
    (le : MetaPage.nextFreePage t'.mem ≤ MetaPage.nextFreePage t.mem + writeCost (KVEntry.size ⟨key, v⟩)) : ReadsSame beyond other t t' := by
  obtain ⟨b, rest, sub, sub', lists', rfl, follows, last, wf', sorts, _⟩ := resorts
  have placed₀ := (placed_plug.mp wf.placed).1
  have same := (lookup_set wf.rep wf.placed wf'.rep wf'.placed (sorts.plug_others placed₀ follows) other).trans (if_neg different)
  cases stored : (plug (b :: rest) sub).lookup other 0 with
  | some w =>
    obtain ⟨r, _, ended, rfl, found, bytes⟩ := wf.read_stored stored beyond
    obtain ⟨r', _, ended', rfl, found', bytes'⟩ := wf'.read_stored (same.trans stored) beyond
    exact ⟨r, r', ended, ended', found'.trans found.symm, bytes'.trans bytes.symm⟩
  | none =>
    have apart : ∀ e ∈ (plug (b :: rest) sub).leafOf other 0, e.key ≠ cutNul other := by
      by_cases zero : 0 ∈ other
      · exact unaffected.unconfused zero
      · exact wf.rooted.leafOf_absent zero stored
    have apart' : ∀ e ∈ (plug (b :: rest) sub').leafOf other 0, e.key ≠ cutNul other := by
      by_cases zero : 0 ∈ other
      · exact wf'.rooted.leafOf_apart wf'.placed placed₀ follows last sorts apart (unaffected.parted zero)
      · exact wf'.rooted.leafOf_absent zero (same.trans stored)
    refine ⟨_, _, wf.rooted.read_apart apart unaffected.before, wf'.rooted.read_apart apart' fun empty => ?_, rfl, rfl⟩
    rcases unaffected.after stored with filled | quiet
    · exact absurd empty (filledAfter_bucketEntry (rep_plug.mp wf'.rep).2 wf'.placed placed₀ follows last sorts filled)
    · exact findEntryInLeaf_meta (by rw [Nat.div_eq_of_lt (le.trans_lt quiet)]) other beyond

/-- Writing a new key without zero bytes ends if and only if no more entries have its hash than fit into a leaf, and then changes what is
read for that key, and for no other that is unaffected. A key that begins with a zero byte is lost. -/
theorem write_keeps_reads (wf : WellFormed tree lists t) (absent : tree.lookup key 0 = none) (short : key.length ≤ maxKeyLength)
    (size : KVEntry.size ⟨key, v⟩ ≤ chainCapacity 30)
    (room : MetaPage.nextFreePage t.mem + writeCost (KVEntry.size ⟨key, v⟩) ≤ maxPages) (beyond : Mem) :
    (NulFree key → ((write beyond key (some v) t).Ends (fun _ t' =>
        (read beyond key t').Ends (fun r t'' => t'' = t' ∧ r.found = true ∧ r.buffer = v) ∧
          ∀ other, other ≠ key → Unaffected beyond tree t ⟨key, v⟩ other → ReadsSame beyond other t t') ↔ Separable ⟨key, v⟩ tree.entries)) ∧
      ∀ rest, key = 0 :: rest → ∀ t', write beyond key (some v) t = .done () t' → ¬ (read beyond key t').Ends fun r _ => r.found = true := by
  refine ⟨fun noNul => ?_, fun rest is t' _ found => read_nul rest (is ▸ found)⟩
  refine ⟨fun ends => wf.write_separable absent noNul (ends.mono fun _ _ _ => trivial), fun separable => ?_⟩
  rw [← others_absent wf.rep wf.placed absent] at separable
  have fits := wf.write_fits noNul short size (fun _ => separable) (replaceable_absent absent) beyond
  refine (fits.resolve_right fun stuck => Nat.not_lt.mpr room stuck.2).mono ?_
  rintro _ t' ⟨resorts, le⟩
  exact ⟨resorts.read wf beyond, fun other different unaffected => resorts.readsSame wf different unaffected le⟩

/-- The leaf of a stored key is split, and the bucket of another one stays empty. -/
theorem write_keeps_reads_split : ∃ t tree lists, WellFormed tree lists t ∧ tree.entries = {⟨[97], largeValue⟩} ∧
    getBucket [97] 1 = getBucket [97, 100] 1 ∧
    (write (fun _ => 0) [97, 100] (some largeValue) t).Ends fun _ t' =>
      (read (fun _ => 0) [97, 100] t').Ends (fun r t'' => t'' = t' ∧ r.found = true ∧ r.buffer = largeValue) ∧
        ReadsSame (fun _ => 0) [97] t t' ∧ ReadsSame (fun _ => 0) [98, 0] t t' := by
  have size : KVEntry.size ⟨[97], largeValue⟩ = 2110 := size_largeValue [97]
  have size' : KVEntry.size ⟨[97, 100], largeValue⟩ = 2111 := size_largeValue [97, 100]
  obtain ⟨t, tree, lists, wf, entries, _, next⟩ := exists_singleEntry ⟨[97], largeValue⟩ (show NulFree [97] by decide)
    (show [97].length ≤ maxKeyLength by decide) (by rw [size]; decide)
  rw [size] at next
  have small : MetaPage.nextFreePage t.mem + writeCost 2111 < 2 ^ 16 := by
    have cost : maxOrder + 3 + writeCost 2110 + writeCost 2111 < 2 ^ 16 := by decide
    omega
  have room : 2 ^ 16 ≤ maxPages := by decide
  have unaffected : ∀ other, (0 ∈ other → cutNul other ≠ [97] ∧ cutNul other ≠ [97, 100]) →
      Unaffected (fun _ => 0) tree t ⟨[97, 100], largeValue⟩ other := by
    intro other apart
    refine ⟨fun zero e member same => ?_, fun zero same => absurd same (apart zero).2, fun _ => ?_, fun _ => Or.inr (by rw [size']; exact small)⟩
    · have stored := mem_of_leafOf member
      rw [entries, Multiset.mem_singleton] at stored
      rw [stored] at same
      exact (apart zero).1 same.symm
    · refine findEntryInLeaf_meta ?_ other fun _ => 0
      rw [Nat.div_eq_of_lt ((Nat.le_add_right _ _).trans_lt small)]
  have separable : Separable ⟨[97, 100], largeValue⟩ tree.entries := by
    refine Or.inl fun e member => ?_
    rw [entries, Multiset.mem_singleton] at member
    rw [member]
    decide +kernel
  have absent := single_absent wf entries (show [97] ≠ [97, 100] by decide)
  have keeps := write_keeps_reads wf absent (by decide) (by rw [size']; decide) (by rw [size']; omega) fun _ => 0
  refine ⟨t, tree, lists, wf, entries, by decide +kernel, ((keeps.1 (by decide)).mpr separable).mono ?_⟩
  rintro _ t' ⟨reads, others⟩
  exact ⟨reads, others [97] (by decide) (unaffected [97] (by decide)), others [98, 0] (by decide) (unaffected [98, 0] (by decide))⟩

/-- The key of one zero byte is written without an exception, and not found; and a key that ends with one is found when the bytes in front
of it have been written with 256 zero bytes. -/
theorem write_loses_nul : ∃ t, WellFormed (node rootPage noChildren) newLists t ∧
    ((write (fun _ => 0) [0] (some [1]) t).Ends fun _ t' => (read (fun _ => 0) [0] t').Ends fun r _ => r.found = false) ∧
    ((read (fun _ => 0) [99, 116, 0] t).Ends fun r _ => r.found = false) ∧
    ((write (fun _ => 0) [99, 116] (some (List.replicate 256 0)) t).Ends fun _ t' =>
      (read (fun _ => 0) [99, 116, 0] t').Ends fun r _ => r.found = true) := by
  obtain ⟨_, t, constructed, wf, _⟩ := construct_wellFormed (m := fun _ => 0) fun _ _ _ _ => rfl
  have lost : ((construct >>= fun _ => write (fun _ => 0) [0] (some [1]) >>= fun _ => read (fun _ => 0) [0]) { mem := fun _ => 0 }).Ends
      fun r _ => r.found = false := .of_result ReadResult.found (by decide +kernel)
  have before : ((construct >>= fun _ => read (fun _ => 0) [99, 116, 0]) { mem := fun _ => 0 }).Ends fun r _ => r.found = false :=
    .of_result ReadResult.found (by decide +kernel)
  have after : ((construct >>= fun _ => write (fun _ => 0) [99, 116] (some (List.replicate 256 0)) >>= fun _ => read (fun _ => 0) [99, 116, 0])
      { mem := fun _ => 0 }).Ends fun r _ => r.found = true := .of_result ReadResult.found (by decide +kernel)
  rw [Program.done_bind constructed] at lost before after
  obtain ⟨_, t₁, written, ends⟩ := lost.of_bind
  obtain ⟨_, t₂, written', ends'⟩ := after.of_bind
  exact ⟨t, wf, .intro written ends, before, .intro written' ends'⟩

end DiskMap
