import DiskMap.Map.NulKeys
import DiskMap.Map.WritePart

namespace DiskMap
open ByteMemory LeafNodeStartPage Extents BigValue DiskMap.Tree

variable {t : Tx} {tree : Tree} {lists : Nat → FreeList} {key v buffer : List UInt8} {offset : Nat} {beyond : Mem}

/-- The value with the part in it, zeros in a gap in front of the part; a key that is not stored has the empty value. -/
def splicedValue (tree : Tree) (key : List UInt8) (offset : Nat) (buffer : List UInt8) : List UInt8 :=
  splice ((tree.lookup key 0).getD []) offset buffer

/-- The regions are enough for the value, there are pages for it, and a value that does not share its leaf is walked through without
an overflow of the sizes. -/
structure PartInReach (tree : Tree) (t : Tx) (key : List UInt8) (offset : Nat) (buffer : List UInt8) : Prop where
  size : KVEntry.size ⟨key, splicedValue tree key offset buffer⟩ ≤ chainCapacity 30
  room : MetaPage.nextFreePage t.mem + writeCost (KVEntry.size ⟨key, splicedValue tree key offset buffer⟩) ≤ maxPages
  reach : tree.lookup key 0 ≠ none → (tree.leafOf key 0).length = 1 → offset < before (key.length + 9) 20

/-- The part of a key that is not stored is at its front, and an entry that is written as a whole is told apart from others. -/
structure Spliceable (tree : Tree) (key : List UInt8) (offset : Nat) (buffer : List UInt8) : Prop where
  front : tree.lookup key 0 = none → offset = 0
  separable : (tree.leafOf key 0).length ≠ 1 ∨ tree.lookup key 0 = none →
    Separable ⟨key, splicedValue tree key offset buffer⟩ (tree.others key)

theorem partValue_stored (middle : offset ≠ appendOffset) : partValue (some v) offset buffer = splice v offset buffer := by
  rw [partValue, if_neg middle]

theorem partValue_front (buffer : List UInt8) : partValue none 0 buffer = splice [] 0 buffer := by
  simp [partValue, splice, appendOffset]

theorem Spliceable.partValue (spliceable : Spliceable tree key offset buffer) (middle : offset ≠ appendOffset) :
    DiskMap.partValue (tree.lookup key 0) offset buffer = splicedValue tree key offset buffer := by
  rw [splicedValue]
  cases stored : tree.lookup key 0 with
  | some v => exact partValue_stored middle
  | none =>
    rw [spliceable.front stored]
    exact partValue_front buffer

theorem splicedValue_length : (splicedValue tree key offset buffer).length = max ((tree.lookup key 0).getD []).length (offset + buffer.length) :=
  splice_length

/-- Sums that wrap around: the buffers that the code fills are too short. -/
theorem WellFormed.writePart_wraps (wf : WellFormed tree lists t) (noNul : NulFree key) (middle : offset ≠ appendOffset) (offset64 : offset < 2 ^ 64)
    (length63 : buffer.length < 2 ^ 63) (wraps : 2 ^ 64 ≤ offset + buffer.length)
    (whole : (tree.leafOf key 0).length ≠ 1 ∨ tree.lookup key 0 = none) (beyond : Mem) : writePart beyond key offset (some buffer) t = .stuck := by
  cases stored : tree.lookup key 0 with
  | some v =>
    obtain ⟨b, rest, page, front, back, regions, s⟩ := wf.storedIn stored
    have several := whole.resolve_right (by simp [stored])
    rw [s.leafOf] at several
    obtain rfl := s.single_page several
    obtain ⟨_, _, current, _⟩ := s.inside beyond
    have fits : entriesSize (front ++ ⟨key, v⟩ :: back) ≤ capacity := s.leaf.fits
    have page63 : capacity < 2 ^ 63 := by decide
    rw [entriesSize_middle] at fits
    rw [s.writePart_run beyond, writeExisting]
    simp only
    rw [getPage_bind, current, getPage_bind, s.leaf.entryCount, if_neg middle, if_neg several, rewriteValue, if_neg (by omega), if_pos wraps]
    rfl
  | none =>
    obtain ⟨parent, index, depth, _, run⟩ := wf.writePart_notFound noNul.2 stored beyond
    rw [run, keyNotFound, if_neg middle]
    simp only
    rw [if_neg (by omega), if_pos wraps]
    rfl

/-- A part of a key that is not stored is read where it has been put only if this is at the front, since what is written
is as long as the buffer. -/
theorem WellFormed.writePart_front (wf : WellFormed tree lists t) (noNul : NulFree key) (short : key.length ≤ maxKeyLength)
    (middle : offset ≠ appendOffset) (absent : tree.lookup key 0 = none) (sum : offset + buffer.length < 2 ^ 64)
    (inReach : PartInReach tree t key offset buffer)
    (ends : (writePart beyond key offset (some buffer) t).Ends fun _ t' =>
      (read beyond key t').Ends fun r t'' => t'' = t' ∧ r.found = true ∧ r.buffer = splicedValue tree key offset buffer) :
    Spliceable tree key offset buffer := by
  have length : (splicedValue tree key offset buffer).length = _ := splicedValue_length
  have less : KVEntry.size ⟨key, partValue none offset buffer⟩ ≤ KVEntry.size ⟨key, splicedValue tree key offset buffer⟩ := by
    rw [KVEntry.size, KVEntry.size, length, partValue_none_length middle]
    dsimp only
    omega
  rw [wf.writePart_absent noNul.2 absent fun _ => sum] at ends
  have separable := wf.write_separable absent noNul (ends.mono fun _ _ _ => trivial)
  have fits := wf.write_fits noNul short (less.trans inReach.size) (fun _ => others_absent wf.rep wf.placed absent ▸ separable)
    (replaceable_absent absent) beyond
  have room := inReach.room
  obtain ⟨_, t', ended, resorts, _⟩ := fits.resolve_right fun stuck => Nat.not_lt.mpr room (stuck.2.trans_le (by unfold writeCost; omega))
  obtain ⟨_, _, ended', reads⟩ := ends
  obtain ⟨_, rfl⟩ := Outcome.done.inj (ended.symm.trans ended')
  obtain ⟨_, _, got, _, _, bytes⟩ := resorts.read wf beyond
  obtain ⟨_, _, got', _, _, bytes'⟩ := reads
  obtain ⟨rfl, _⟩ := Outcome.done.inj (got.symm.trans got')
  have same : partValue none offset buffer = splicedValue tree key offset buffer := bytes.symm.trans bytes'
  have lengths := congrArg List.length same
  rw [partValue_none_length middle, length] at lengths
  refine ⟨fun _ => by omega, fun _ => ?_⟩
  rw [← same, others_absent wf.rep wf.placed absent]
  exact separable

/-- Where it is in reach, `write_part` puts the buffer into the old value, and leaves other keys that are unaffected alone, if and only if
the part of a key that is not stored is at the front, and no more entries have the hash than fit into a leaf. -/
theorem writePart_splices_iff (wf : WellFormed tree lists t) (noNul : NulFree key) (short : key.length ≤ maxKeyLength)
    (middle : offset ≠ appendOffset) (nonempty : buffer ≠ []) (beyond : Mem) :
    (PartInReach tree t key offset buffer → ((writePart beyond key offset (some buffer) t).Ends (fun _ t' =>
      (read beyond key t').Ends (fun r t'' => t'' = t' ∧ r.found = true ∧ r.buffer = splicedValue tree key offset buffer) ∧
        ∀ other, other ≠ key → Unaffected beyond tree t ⟨key, splicedValue tree key offset buffer⟩ other → ReadsSame beyond other t t') ↔
          Spliceable tree key offset buffer)) ∧
      (offset < 2 ^ 64 → buffer.length < 2 ^ 63 → 2 ^ 64 ≤ offset + buffer.length → (tree.leafOf key 0).length ≠ 1 ∨ tree.lookup key 0 = none →
        writePart beyond key offset (some buffer) t = .stuck) := by
  refine ⟨fun inReach => ?_, fun offset64 length63 wraps whole => wf.writePart_wraps noNul middle offset64 length63 wraps whole beyond⟩
  have size := inReach.size
  have some_ : 0 < buffer.length := List.length_pos_iff.mpr nonempty
  have longer : ∀ v, splice v offset buffer ≠ [] := fun v empty => by
    have is : (splice v offset buffer).length = max v.length (offset + buffer.length) := splice_length
    rw [empty, List.length_nil] at is
    omega
  have sum : offset + buffer.length < 2 ^ 64 := by
    have wide : chainCapacity 30 < 2 ^ 64 := by decide
    rw [KVEntry.size, splicedValue_length] at size
    dsimp only at size
    omega
  constructor
  · intro ends
    cases stored : tree.lookup key 0 with
    | none => exact wf.writePart_front noNul short middle stored sum inReach (ends.mono fun _ _ both => both.1)
    | some v =>
      have value : splicedValue tree key offset buffer = splice v offset buffer := by rw [splicedValue, stored, Option.getD_some]
      have found : tree.lookup key 0 ≠ none := by simp [stored]
      rw [value] at size ends
      refine ⟨fun none_ => absurd none_ found, fun whole => ?_⟩
      have several := whole.resolve_right found
      obtain ⟨b, rest, page, front, back, regions, s⟩ := wf.storedIn stored
      rw [s.leafOf] at several
      rw [value, ← partValue_stored middle]
      exact s.writePart_splits wf several (partValue_stored middle ▸ size) ends
  · intro spliceable
    have is := spliceable.partValue middle
    have fits := wf.writePart_fits noNul short (is ▸ size) (is ▸ spliceable.separable)
      ⟨fun _ _ => sum, fun v stored one => ?_, fun v stored _ => ?_⟩ beyond
    · rw [is] at fits
      refine (fits.resolve_right fun stuck => Nat.not_lt.mpr inReach.room stuck.2).mono ?_
      rintro _ t' ⟨resorts, le⟩
      exact ⟨resorts.read wf beyond, fun other different unaffected => resorts.readsSame wf different unaffected le⟩
    · rw [if_neg middle]
      exact inReach.reach (by rw [stored]; exact Option.some_ne_none v) one
    · rw [partValue_stored middle]
      exact longer v

/-- A gap in a shared leaf, a value that grows at the end of its regions, and a key that is not stored. -/
theorem writePart_splices_iff_shared : ∃ t tree lists, WellFormed tree lists t ∧ tree.entries = (sharedAndLarge : Multiset KVEntry) ∧
    ((writePart (fun _ => 0) [97, 100] 4 (some [9]) t).Ends fun _ t' =>
      (read (fun _ => 0) [97, 100] t').Ends (fun r t'' => t'' = t' ∧ r.found = true ∧ r.buffer = [4, 5, 0, 0, 9]) ∧
        ReadsSame (fun _ => 0) [97] t t') ∧
    ((writePart (fun _ => 0) [98] 4999 (some [1, 2, 3]) t).Ends fun _ t' =>
      (read (fun _ => 0) [98] t').Ends (fun r t'' => t'' = t' ∧ r.found = true ∧ r.buffer = splice (List.replicate 5000 7) 4999 [1, 2, 3]) ∧
        ReadsSame (fun _ => 0) [97] t t') ∧
    ¬ (writePart (fun _ => 0) [99] 1 (some [6]) t).Ends fun _ t' =>
      (read (fun _ => 0) [99] t').Ends (fun r t'' => t'' = t' ∧ r.found = true ∧ r.buffer = splicedValue tree [99] 1 [6]) ∧
        ∀ other, other ≠ [99] → Unaffected (fun _ => 0) tree t ⟨[99], splicedValue tree [99] 1 [6]⟩ other → ReadsSame (fun _ => 0) other t t' := by
  obtain ⟨t, tree, lists, wf, entries, stored, next⟩ := exists_entries sharedAndLarge (by decide +kernel) (by decide +kernel) (by decide +kernel)
  have first := stored ⟨[97], [1, 2, 3]⟩ List.mem_cons_self
  have shared := stored ⟨[97, 100], [4, 5]⟩ (List.mem_cons_of_mem _ List.mem_cons_self)
  have large := stored ⟨[98], List.replicate 5000 7⟩ (List.mem_cons_of_mem _ (List.mem_cons_of_mem _ List.mem_cons_self))
  have absent : tree.lookup [99] 0 = none := by
    refine Option.eq_none_iff_forall_ne_some.mpr fun v found => ?_
    rw [lookup_iff wf.rep wf.placed, entries, Multiset.mem_coe] at found
    have keys : [99] ∉ sharedAndLarge.map KVEntry.key := by decide
    exact keys (List.mem_map_of_mem found)
  have small : MetaPage.nextFreePage t.mem + writeCost 5015 < 2 ^ 16 := by
    have cost : maxOrder + 3 + (sharedAndLarge.map fun e => writeCost e.size).sum + writeCost 5015 < 2 ^ 16 := by decide +kernel
    omega
  have room : ∀ size, size ≤ 5015 → MetaPage.nextFreePage t.mem + writeCost size ≤ maxPages := fun size le => by
    have enough : 2 ^ 16 ≤ maxPages := by decide
    unfold writeCost at small ⊢
    omega
  have unaffected : ∀ new : KVEntry, new.size ≤ 5015 → Unaffected (fun _ => 0) tree t new [97] := fun new le => by
    refine ⟨fun zero => absurd zero (by decide), fun zero => absurd zero (by decide), fun _ => ?_, fun none_ => absurd (first.symm.trans none_) (Option.some_ne_none _)⟩
    refine findEntryInLeaf_meta ?_ [97] fun _ => 0
    rw [Nat.div_eq_of_lt ((Nat.le_add_right _ _).trans_lt small)]
  have apart : ∀ key v, (∀ e ∈ sharedAndLarge, e.key ≠ key → fnvHash e.key ≠ fnvHash key) →
      Separable ⟨key, v⟩ (tree.others key) := fun key v hashes => by
    refine Or.inl fun e member => ?_
    obtain ⟨inside, other⟩ := Multiset.mem_filter.mp member
    rw [entries] at inside
    exact hashes e (Multiset.mem_coe.mp inside) other
  have near : 4999 < before (1 + 9) 20 := by decide
  have near' : 4 < before (2 + 9) 20 := by decide
  refine ⟨t, tree, lists, wf, entries, ?_, ?_, fun ends => ?_⟩
  · have value : splicedValue tree [97, 100] 4 [9] = [4, 5, 0, 0, 9] := by
      rw [splicedValue, shared]
      decide
    have size : KVEntry.size ⟨[97, 100], splicedValue tree [97, 100] 4 [9]⟩ = 16 := by
      rw [value]
      rfl
    have inReach : PartInReach tree t [97, 100] 4 [9] :=
      ⟨by rw [size]; decide, by rw [size]; exact room 16 (by decide), fun _ _ => near'⟩
    have splices := (writePart_splices_iff wf (show NulFree [97, 100] by decide) (by decide) (show 4 ≠ appendOffset by decide)
      (show ([9] : List UInt8) ≠ [] by decide) fun _ => 0).1 inReach
    refine (splices.mpr ⟨fun none_ => absurd (shared.symm.trans none_) (Option.some_ne_none _), fun _ => apart [97, 100] _ (by decide +kernel)⟩).mono ?_
    rintro _ t' ⟨reads, others⟩
    rw [value] at reads
    exact ⟨reads, others [97] (by decide) (unaffected _ (by rw [size]; decide))⟩
  · have value : splicedValue tree [98] 4999 [1, 2, 3] = splice (List.replicate 5000 7) 4999 [1, 2, 3] := by rw [splicedValue, large, Option.getD_some]
    have size : KVEntry.size ⟨[98], splicedValue tree [98] 4999 [1, 2, 3]⟩ = 5012 := by
      rw [KVEntry.size, splicedValue_length, large, Option.getD_some, List.length_replicate]
      rfl
    have inReach : PartInReach tree t [98] 4999 [1, 2, 3] := ⟨by rw [size]; decide, by rw [size]; exact room 5012 (by decide), fun _ _ => near⟩
    have splices := (writePart_splices_iff wf (show NulFree [98] by decide) (by decide) (show 4999 ≠ appendOffset by decide)
      (show ([1, 2, 3] : List UInt8) ≠ [] by decide) fun _ => 0).1 inReach
    refine (splices.mpr ⟨fun none_ => absurd (large.symm.trans none_) (Option.some_ne_none _), fun _ => apart [98] _ (by decide +kernel)⟩).mono ?_
    rintro _ t' ⟨reads, others⟩
    rw [value] at reads
    exact ⟨reads, others [97] (by decide) (unaffected _ (by rw [size]; decide))⟩
  · have size : KVEntry.size ⟨[99], splicedValue tree [99] 1 [6]⟩ = 12 := by
      rw [KVEntry.size, splicedValue_length, absent]
      rfl
    have inReach : PartInReach tree t [99] 1 [6] :=
      ⟨by rw [size]; decide, by rw [size]; exact room 12 (by decide), fun found => absurd absent found⟩
    have splices := (writePart_splices_iff wf (show NulFree [99] by decide) (by decide) (show 1 ≠ appendOffset by decide)
      (show ([6] : List UInt8) ≠ [] by decide) fun _ => 0).1 inReach
    exact absurd ((splices.mp ends).front absent) (by decide)

/-- The zeros in front of a part take its place. -/
theorem writePart_loses_part : ∃ t, WellFormed (node rootPage noChildren) newLists t ∧ (node rootPage noChildren).lookup [110] 0 = none ∧
    ((writePart (fun _ => 0) [110] 5 (some [1, 2, 3]) t).Ends fun _ t' =>
      (read (fun _ => 0) [110] t').Ends fun r _ => r.found = true ∧ r.buffer = [0, 0, 0]) ∧
    splice [] 5 [1, 2, 3] = ([0, 0, 0, 0, 0, 1, 2, 3] : List UInt8) := by
  obtain ⟨_, t, constructed, wf, _⟩ := construct_wellFormed (m := fun _ => 0) fun _ _ _ _ => rfl
  have loses : ((construct >>= fun _ => writePart (fun _ => 0) [110] 5 (some [1, 2, 3]) >>= fun _ => DiskMap.read (fun _ => 0) [110])
      { mem := fun _ => 0 }).Ends fun r _ => (r.found, r.buffer) = (true, [0, 0, 0]) :=
    .of_result (fun r : ReadResult => (r.found, r.buffer)) (by decide +kernel)
  rw [Program.done_bind constructed] at loses
  obtain ⟨_, t₁, written, ends⟩ := loses.of_bind
  exact ⟨t, wf, rfl, .intro written (ends.mono fun r _ is => Prod.mk.inj is), by decide⟩

end DiskMap
