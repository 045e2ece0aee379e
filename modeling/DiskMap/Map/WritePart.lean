import DiskMap.Map.Overwrite
import DiskMap.Map.WriteInPlace

namespace DiskMap
open ByteMemory LeafNodeStartPage Extents BigValue DiskMap.Tree

/-- The offset -1, which stands for the end of the value. -/
def appendOffset : Nat := 2 ^ 64 - 1

/-- What `write_part` does for a key that it does not find. A buffer is `none` when the pointer to it is null. -/
def keyNotFound (beyond : Mem) (parent parentEntry parentDepth : Nat) (key : List UInt8) (writeOffset : Nat) (buffer : Option (List UInt8)) :
    TxProgram Unit :=
  let writeOffset := if writeOffset = appendOffset then 0 else writeOffset
  if writeOffset = 0 then writeAtNode beyond parent parentEntry parentDepth key buffer
  else match buffer with
    | none => .stuck
    | some buffer =>
      if 2 ^ 64 ≤ writeOffset + buffer.length then .stuck
      else
        -- zeros come first, but the length is that of the buffer alone
        let trueBuffer := List.replicate writeOffset 0 ++ buffer
        writeAtNode beyond parent parentEntry parentDepth key (some (trueBuffer.take buffer.length))

/-- The branch of `write_part` for a leaf with several entries. -/
def rewriteValue (beyond : Mem) (parent parentEntry parentDepth leaf dataSectionOffset existingLength : Nat) (key : List UInt8)
    (writeOffset : Nat) (buffer : List UInt8) : TxProgram Unit := do
  let newValueLength := max existingLength ((writeOffset + buffer.length) % 2 ^ 64)
  if 2 ^ 63 ≤ newValueLength then .throw "cannot create std::vector larger than max_size()"
  else if 2 ^ 64 ≤ writeOffset + buffer.length then .stuck
  else
    let existing ← getPage fun m => slice (data m leaf beyond) dataSectionOffset existingLength
    let newValue := patch (patch (List.replicate newValueLength 0) 0 existing) writeOffset buffer
    -- the data pointer of an empty vector is null
    writeAtNode beyond parent parentEntry parentDepth key (if newValue = [] then none else some newValue)

/-- The branch of `write_part` for a key that the leaf has. -/
def writeExisting (beyond : Mem) (parent parentEntry parentDepth leaf entryOffset : Nat) (key : List UInt8) (writeOffset : Nat)
    (buffer : List UInt8) : TxProgram Unit := do
  let valueLengthOffset := entryOffset + key.length + 1
  let existingLength ← getPage fun m => leAt (data m leaf beyond) valueLengthOffset 8
  let writeOffset := if writeOffset = appendOffset then existingLength else writeOffset
  let entryCount ← getPage fun m => LeafNodeStartPage.entryCount m leaf
  if entryCount = 1 then writeInPlace leaf valueLengthOffset existingLength writeOffset buffer
  else rewriteValue beyond parent parentEntry parentDepth leaf (valueLengthOffset + 8) existingLength key writeOffset buffer

def writePart (beyond : Mem) (key : List UInt8) (writeOffset : Nat) (buffer : Option (List UInt8)) : TxProgram Unit := do
  let (parent, parentEntry, parentDepth) ← findParent key
  let value ← getPage fun m => InternalNodePage.entries m parent parentEntry
  if value = 0 then keyNotFound beyond parent parentEntry parentDepth key writeOffset buffer
  else
    let leaf := clearMsb value
    let entryOffset ← getPage fun m => findEntryInLeaf (data m leaf beyond) key
    match entryOffset, buffer with
    | none, buffer => keyNotFound beyond parent parentEntry parentDepth key writeOffset buffer
    | some _, none => .stuck
    | some entryOffset, some buffer => writeExisting beyond parent parentEntry parentDepth leaf entryOffset key writeOffset buffer

def append (beyond : Mem) (key : List UInt8) (buffer : Option (List UInt8)) : TxProgram Unit := writePart beyond key appendOffset buffer

/-- The value that a part of it makes of another one, which is `none` when the key is not stored. -/
def partValue (old : Option (List UInt8)) (offset : Nat) (buffer : List UInt8) : List UInt8 :=
  match old with
  | none => if offset = appendOffset then buffer else (List.replicate offset 0 ++ buffer).take buffer.length
  | some v => splice v (if offset = appendOffset then v.length else offset) buffer

/-- What `write_part` needs: sums that are small enough, and for the only entry of a leaf an offset in its first twenty regions,
the start page counted. -/
structure Writable (tree : Tree) (key : List UInt8) (offset : Nat) (buffer : List UInt8) : Prop where
  sum : tree.lookup key 0 = none → offset ≠ appendOffset → offset + buffer.length < 2 ^ 64
  reach : ∀ v, tree.lookup key 0 = some v → (tree.leafOf key 0).length = 1 →
    (if offset = appendOffset then v.length else offset) < before (key.length + 9) 20
  nonempty : ∀ v, tree.lookup key 0 = some v → (tree.leafOf key 0).length ≠ 1 → partValue (some v) offset buffer ≠ []

variable {t t' : Tx} {lists : Nat → FreeList} {tree sub : Tree} {b : Branch} {rest : List Branch} {page offset : Nat} {front back : List KVEntry}
  {regions : List Nat} {key v buffer : List UInt8} {beyond : Mem}

theorem partValue_append_none (buffer : List UInt8) : partValue none appendOffset buffer = buffer := by
  rw [partValue, if_pos rfl]

theorem partValue_none_length (middle : offset ≠ appendOffset) : (partValue none offset buffer).length = buffer.length := by
  rw [partValue, if_neg middle, List.length_take, List.length_append]
  omega

theorem splice_end (v buffer : List UInt8) : splice v v.length buffer = v ++ buffer := by
  rw [splice, Nat.sub_self, List.replicate_zero, List.append_nil, List.take_length, List.drop_eq_nil_of_le (Nat.le_add_right _ _), List.append_nil]

theorem partValue_append (v buffer : List UInt8) : partValue (some v) appendOffset buffer = v ++ buffer := by
  rw [partValue, if_pos rfl, splice_end]

/-- The old value in a longer buffer of zeros, and the part over it. -/
theorem patch_zeros (v buffer : List UInt8) (offset : Nat) :
    patch (patch (List.replicate (max v.length (offset + buffer.length)) 0) 0 v) offset buffer = splice v offset buffer := by
  have first : patch (List.replicate (max v.length (offset + buffer.length)) 0) 0 v =
      v ++ List.replicate (max v.length (offset + buffer.length) - v.length) 0 := by
    rw [patch, List.take_zero, List.nil_append, Nat.zero_add, List.drop_replicate]
  have before : (v ++ List.replicate (max v.length (offset + buffer.length) - v.length) 0).take offset =
      (v ++ List.replicate (offset - v.length) 0).take offset := by
    rw [List.take_append, List.take_append, List.take_replicate, List.take_replicate]
    congr 2
    omega
  have behind : (v ++ List.replicate (max v.length (offset + buffer.length) - v.length) 0).drop (offset + buffer.length) =
      v.drop (offset + buffer.length) := by
    have none_ : max v.length (offset + buffer.length) - v.length - (offset + buffer.length - v.length) = 0 := by omega
    rw [List.drop_append, List.drop_replicate, none_, List.replicate_zero, List.append_nil]
  rw [first, patch, before, behind, splice]

/-- With sums that are small enough, a key that is not found gets what is first in zeros and buffer. -/
theorem keyNotFound_run {parent parentEntry parentDepth : Nat} (small : offset ≠ appendOffset → offset + buffer.length < 2 ^ 64) (beyond : Mem) :
    keyNotFound beyond parent parentEntry parentDepth key offset (some buffer) =
      writeAtNode beyond parent parentEntry parentDepth key (some (partValue none offset buffer)) := by
  rw [keyNotFound, partValue]
  by_cases end_ : offset = appendOffset
  · rw [if_pos end_, if_pos end_, if_pos rfl]
  · rw [if_neg end_, if_neg end_]
    by_cases zero : offset = 0
    · subst zero
      rw [if_pos rfl, List.replicate_zero, List.nil_append, List.take_length]
    · simp only
      rw [if_neg zero, if_neg (Nat.not_le.mpr (small end_))]

namespace StoredIn

/-- How `write_part` goes on once it has found the entry. -/
theorem writePart_run (s : StoredIn tree t key v b rest page front back regions) (beyond : Mem) :
    writePart beyond key offset (some buffer) t =
      writeExisting beyond b.page b.index rest.length page (entriesSize front) key offset buffer t := by
  have found : findEntryInLeaf (data t.mem page beyond) key = some (entriesSize front) :=
    (s.leaf.findEntryInLeaf_eq s.noNul.2 beyond).trans s.offset
  rw [writePart, Program.done_bind s.found]
  dsimp only
  rw [getPage_bind, s.entry, if_neg s.nonzero, clearMsb_leaf s.low, getPage_bind, found]

/-- An entry that does not share its leaf is changed in its place. -/
theorem inPlace_fits (s : StoredIn tree t key v b rest page [] [] regions) (wf : WellFormed tree lists t)
    (reach : offset < before (key.length + 9) 20) (size : KVEntry.size ⟨key, splice v offset buffer⟩ ≤ chainCapacity 30) :
    Fits (MetaPage.nextFreePage t.mem + writeCost (KVEntry.size ⟨key, splice v offset buffer⟩))
      (writeInPlace page (key.length + 1) v.length offset buffer t) fun _ t' => Resorts tree t key (splice v offset buffer) t' := by
  have hole := wf
  rw [s.tree] at hole
  replace hole := hole.hole (rfl : (Tree.leaf page ([] ++ ⟨key, v⟩ :: []) regions).isNode = false)
  have length : (splice v offset buffer).length = max v.length (offset + buffer.length) := splice_length
  rw [KVEntry.size, length] at size ⊢
  dsimp only at size ⊢
  refine (writeInPlace_fits hole reach (by omega)).mono (by unfold writeCost; omega) ?_
  rintro _ t' ⟨regions', regrown⟩
  exact s.resorts wf regrown ⟨trivial, rfl, trivial⟩

theorem single_page (s : StoredIn tree t key v b rest page front back regions) (several : (front ++ ⟨key, v⟩ :: back).length ≠ 1) : regions = [] := by
  by_contra chained
  exact several (s.leaf.single chained).1

/-- The value that is written again is the old one with the part in it. -/
theorem rewriteValue_run (s : StoredIn tree t key v b rest page front back []) (nonempty : splice v offset buffer ≠ [])
    (size : KVEntry.size ⟨key, splice v offset buffer⟩ ≤ chainCapacity 30) (beyond : Mem) :
    rewriteValue beyond b.page b.index rest.length page (entriesSize front + key.length + 1 + 8) v.length key offset buffer t =
      writeAtNode beyond b.page b.index rest.length key (some (splice v offset buffer)) t := by
  have fits : entriesSize (front ++ ⟨key, v⟩ :: back) ≤ capacity := s.leaf.fits
  obtain ⟨_, _, _, holds⟩ := s.inside beyond
  have room : v.length ≤ capacity - (entriesSize front + key.length + 9) := by
    rw [entriesSize_middle] at fits
    omega
  have existing : slice (data t.mem page beyond) (entriesSize front + key.length + 1 + 8) v.length = v := holds.slice room
  have length : (splice v offset buffer).length = max v.length (offset + buffer.length) := splice_length
  rw [KVEntry.size, length] at size
  dsimp only at size
  have wide : chainCapacity 30 < 2 ^ 63 := by decide
  rw [rewriteValue, Nat.mod_eq_of_lt (show offset + buffer.length < 2 ^ 64 by omega)]
  simp only
  rw [if_neg (by omega), if_neg (by omega), getPage_bind, existing, patch_zeros, if_neg nonempty]

/-- An entry that shares its leaf is written again with its new value. -/
theorem rewriteValue_fits (s : StoredIn tree t key v b rest page front back regions) (wf : WellFormed tree lists t)
    (several : (front ++ ⟨key, v⟩ :: back).length ≠ 1) (nonempty : splice v offset buffer ≠ [])
    (size : KVEntry.size ⟨key, splice v offset buffer⟩ ≤ chainCapacity 30)
    (separable : Separable ⟨key, splice v offset buffer⟩ (tree.others key)) (beyond : Mem) :
    Fits (MetaPage.nextFreePage t.mem + writeCost (KVEntry.size ⟨key, splice v offset buffer⟩))
      (rewriteValue beyond b.page b.index rest.length page (entriesSize front + key.length + 1 + 8) v.length key offset buffer t)
        fun _ t' => Resorts tree t key (splice v offset buffer) t' := by
  obtain rfl := s.single_page several
  have small : ¬ capacity < KVEntry.size ⟨key, v⟩ := fun large => s.chained_iff.mpr large rfl
  have longer : v.length ≤ (splice v offset buffer).length := splice_length.ge.trans' (le_max_left _ _)
  rw [s.rewriteValue_run nonempty size beyond]
  refine s.writeAtNode_fits wf size (fun _ => separable) ?_ beyond
  rw [Replaceable, if_neg small, s.tree, leafOf_plug s.follows]
  change LeavesZeros (front ++ ⟨key, v⟩ :: back) (setValue key _ (front ++ ⟨key, v⟩ :: back))
  rw [setValue_eq s.leaf.keys]
  exact leavesZeros_longer longer

/-- An empty value that shares its leaf is not written again: the data pointer of its vector is null. -/
theorem writePart_nonempty {post : Unit → Tx → Prop} (s : StoredIn tree t key v b rest page front back regions)
    (several : (front ++ ⟨key, v⟩ :: back).length ≠ 1) (ends : (writePart beyond key offset (some buffer) t).Ends post) :
    partValue (some v) offset buffer ≠ [] := by
  intro empty
  have length : (partValue (some v) offset buffer).length = max v.length (_ + buffer.length) := splice_length
  rw [empty, List.length_nil] at length
  obtain rfl : v = [] := List.length_eq_zero_iff.mp (by omega)
  obtain rfl : buffer = [] := List.length_eq_zero_iff.mp (by omega)
  have front_ : (if offset = appendOffset then ([] : List UInt8).length else offset) = 0 := by omega
  obtain ⟨_, _, current, _⟩ := s.inside beyond
  rw [s.writePart_run beyond, writeExisting] at ends
  simp only at ends
  rw [getPage_bind, current, getPage_bind, s.leaf.entryCount, if_neg several, front_] at ends
  have none_ : rewriteValue beyond b.page b.index rest.length page (entriesSize front + key.length + 1 + 8) 0 key 0 [] t =
      .threw "write: invalid input parameters" t := by
    rw [rewriteValue]
    rfl
  obtain ⟨_, _, ended, _⟩ := ends
  cases none_.symm.trans ended

/-- A part of an entry that shares its leaf is written only when the entry is told apart from the others. -/
theorem writePart_splits {post : Unit → Tx → Prop} (s : StoredIn tree t key v b rest page front back regions) (wf : WellFormed tree lists t)
    (several : (front ++ ⟨key, v⟩ :: back).length ≠ 1) (size : KVEntry.size ⟨key, partValue (some v) offset buffer⟩ ≤ chainCapacity 30)
    (ends : (writePart beyond key offset (some buffer) t).Ends post) :
    Separable ⟨key, partValue (some v) offset buffer⟩ (tree.others key) := by
  have nonempty := s.writePart_nonempty several ends
  obtain rfl := s.single_page several
  obtain ⟨_, _, current, _⟩ := s.inside beyond
  rw [s.writePart_run beyond, writeExisting] at ends
  simp only at ends
  rw [getPage_bind, current, getPage_bind, s.leaf.entryCount, if_neg several, s.rewriteValue_run nonempty size beyond] at ends
  exact s.writeAtNode_splits wf size beyond ends

theorem writeExisting_fits (s : StoredIn tree t key v b rest page front back regions) (wf : WellFormed tree lists t)
    (size : KVEntry.size ⟨key, partValue (some v) offset buffer⟩ ≤ chainCapacity 30)
    (separable : (tree.leafOf key 0).length ≠ 1 → Separable ⟨key, partValue (some v) offset buffer⟩ (tree.others key))
    (writable : Writable tree key offset buffer) (beyond : Mem) :
    Fits (MetaPage.nextFreePage t.mem + writeCost (KVEntry.size ⟨key, partValue (some v) offset buffer⟩))
      (writeExisting beyond b.page b.index rest.length page (entriesSize front) key offset buffer t)
        fun _ t' => Resorts tree t key (partValue (some v) offset buffer) t' := by
  obtain ⟨_, _, current, _⟩ := s.inside beyond
  have stored : tree.lookup key 0 = some v := by
    rw [lookup_iff wf.rep wf.placed, s.tree, entries_plug]
    exact Multiset.mem_add.mpr (Or.inr (List.mem_append_right _ List.mem_cons_self))
  have leaf := s.leafOf
  have reach := writable.reach v stored
  have nonempty := writable.nonempty v stored
  rw [leaf] at separable reach nonempty
  rw [writeExisting]
  simp only
  rw [getPage_bind, current, getPage_bind, s.leaf.entryCount]
  by_cases one : (front ++ ⟨key, v⟩ :: back).length = 1
  · rw [if_pos one]
    have shape := one
    rw [List.length_append, List.length_cons] at shape
    obtain rfl : front = [] := List.length_eq_zero_iff.mp (by omega)
    obtain rfl : back = [] := List.length_eq_zero_iff.mp (by omega)
    have start : entriesSize [] + key.length + 1 = key.length + 1 := by
      rw [show entriesSize [] = 0 from rfl, Nat.zero_add]
    rw [start]
    exact s.inPlace_fits wf (reach one) size
  · rw [if_neg one]
    exact s.rewriteValue_fits wf one (nonempty one) size (separable one) beyond

end StoredIn

namespace WellFormed

/-- How `write_part` goes on for a key that is not stored. -/
theorem writePart_notFound (wf : WellFormed tree lists t) (noNul : 0 ∉ key) (absent : tree.lookup key 0 = none) (beyond : Mem) :
    ∃ parent index depth, findParent key t = .done (parent, index, depth) t ∧
      ∀ buffer, writePart beyond key offset buffer t = keyNotFound beyond parent index depth key offset buffer t := by
  obtain ⟨b, rest, sub, rfl, follows, last, found⟩ := wf.rooted.findParent_run key
  have hole := wf.hole last
  refine ⟨_, _, _, found, fun buffer => ?_⟩
  rw [writePart, Program.done_bind found]
  dsimp only
  rw [getPage_bind, hole.entry]
  cases sub with
  | node page children => cases last
  | empty => rw [Tree.entry, if_pos rfl]
  | leaf page entries regions =>
    obtain ⟨nonzero, low, at_⟩ := hole.rep
    have none_ : offsetOf key entries = none := offsetOf_eq_none.mpr (absent_leaf follows last absent)
    rw [Tree.entry, if_neg nonzero, clearMsb_leaf low, getPage_bind, at_.findEntryInLeaf_eq noNul, none_]

/-- A key that is not found is written. -/
theorem writePart_absent (wf : WellFormed tree lists t) (noNul : 0 ∉ key) (absent : tree.lookup key 0 = none)
    (sum : offset ≠ appendOffset → offset + buffer.length < 2 ^ 64) (beyond : Mem) :
    writePart beyond key offset (some buffer) t = write beyond key (some (partValue none offset buffer)) t := by
  obtain ⟨parent, index, depth, found, run⟩ := wf.writePart_notFound noNul absent beyond
  rw [run, keyNotFound_run sum, write, Program.done_bind found]

/-- `write_part` makes of a value what it makes of it on paper, on each of its paths. -/
theorem writePart_fits (wf : WellFormed tree lists t) (noNul : NulFree key) (short : key.length ≤ maxKeyLength)
    (size : KVEntry.size ⟨key, partValue (tree.lookup key 0) offset buffer⟩ ≤ chainCapacity 30)
    (separable : (tree.leafOf key 0).length ≠ 1 ∨ tree.lookup key 0 = none →
      Separable ⟨key, partValue (tree.lookup key 0) offset buffer⟩ (tree.others key))
    (writable : Writable tree key offset buffer) (beyond : Mem) :
    Fits (MetaPage.nextFreePage t.mem + writeCost (KVEntry.size ⟨key, partValue (tree.lookup key 0) offset buffer⟩))
      (writePart beyond key offset (some buffer) t) fun _ t' => Resorts tree t key (partValue (tree.lookup key 0) offset buffer) t' := by
  cases stored : tree.lookup key 0 with
  | some v =>
    rw [stored] at size separable
    obtain ⟨b, rest, page, front, back, regions, s⟩ := wf.storedIn stored
    rw [s.writePart_run beyond]
    exact s.writeExisting_fits wf size (fun several => separable (Or.inl several)) writable beyond
  | none =>
    rw [stored] at size separable
    rw [wf.writePart_absent noNul.2 stored (writable.sum stored)]
    exact wf.write_fits noNul short size (fun _ => separable (Or.inr rfl)) (replaceable_absent stored) beyond

end WellFormed

end DiskMap
