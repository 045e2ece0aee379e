import DiskMap.Map.Lookups

namespace DiskMap
open ByteMemory MachineInts LeafNodeStartPage DiskMap.Tree

/-- What `remove` keeps of its way down: the entry that points to the leaf, and the one that points to the node with
that entry. When the node is the root, the latter has the index -1 in the source. -/
structure Descent where
  parent : Nat
  parentEntry : Nat
  grandparent : Option (Nat × Nat)
  leaf : Nat

/-- The first loop of `remove`. -/
def descendFrom (key : List UInt8) : Nat → Nat → Option (Nat × Nat) → Nat → TxProgram (Option Descent)
  | 0, _, _, _ => .stuck
  | fuel + 1, parent, grandparent, depth => do
    let parentEntry := getBucket key depth
    let value ← getPage fun m => InternalNodePage.entries m parent parentEntry
    if value = 0 then return none
    else if getMsb value ≠ 0 then descendFrom key fuel (clearMsb value) (some (parent, parentEntry)) (depth + 1)
    else return some ⟨parent, parentEntry, grandparent, value⟩

/-- The loop that counts the children of a node, up to two. It keeps the entry of the last one. -/
def countSiblings (m : Mem) (parent : Nat) : List Nat → Nat × Nat → Nat × Nat
  | [], found => found
  | i :: rest, (siblingCount, siblingEntryValue) =>
    let entry := InternalNodePage.entries m parent i
    if entry = 0 then countSiblings m parent rest (siblingCount, siblingEntryValue)
    else if 1 < siblingCount + 1 then (siblingCount + 1, entry)
    else countSiblings m parent rest (siblingCount + 1, entry)

/-- A node with one child left is replaced by the child, unless it is the root. -/
def collapse (parent : Nat) : Option (Nat × Nat) → TxProgram Unit
  | none => pure ()
  | some (grandparent, grandparentEntry) => do
    let (siblingCount, siblingEntryValue) ← getPage fun m => countSiblings m parent (List.range branchingFactor) (0, 0)
    if siblingCount = 1 then
      writeInt 8 grandparent (InternalNodePage.entriesOffset grandparentEntry) siblingEntryValue
      SpaceManager.free parent 0

/-- The entries behind the one that is removed move left, and zeros follow. -/
def shiftEntries (beyond : Mem) (leaf entryOffset : Nat) (key : List UInt8) : TxProgram Unit := do
  let valueLength ← getPage fun m => leAt (data m leaf beyond) (entryOffset + key.length + 1) 8
  let entrySize := key.length + 1 + 8 + valueLength
  let nextEntryOffset := entryOffset + entrySize
  let usage ← getPage fun m => LeafNodeStartPage.usage m leaf
  let moved ← getPage fun m => slice (data m leaf beyond) nextEntryOffset (sub64 usage nextEntryOffset)
  writePage leaf (dataOffset + entryOffset) (moved ++ List.replicate entrySize 0)
  let usage ← getPage fun m => LeafNodeStartPage.usage m leaf
  writeInt 8 leaf usageOffset (sub64 usage entrySize)
  let entryCount ← getPage fun m => LeafNodeStartPage.entryCount m leaf
  writeInt 2 leaf entryCountOffset (entryCount + (2 ^ 16 - 1))

def decreaseKvEntryCount : TxProgram Unit := do
  let count ← getPage MetaPage.kvEntryCount
  writeInt 8 0 MetaPage.kvEntryCountOffset (sub64 count 1)

/-- The entry is taken out of its leaf, and the last one with the leaf. -/
def removeEntry (beyond : Mem) (d : Descent) (entryOffset : Nat) (key : List UInt8) : TxProgram Unit := do
  let entryCount ← getPage fun m => LeafNodeStartPage.entryCount m d.leaf
  if entryCount = 1 then
    freeLeaf d.leaf
    writeInt 8 d.parent (InternalNodePage.entriesOffset d.parentEntry) 0
    collapse d.parent d.grandparent
  else shiftEntries beyond d.leaf entryOffset key

def remove (beyond : Mem) (key : List UInt8) : TxProgram Bool := do
  let descent ← descendFrom key maxPages rootPage none 1
  match descent with
  | none => return false
  | some d => do
    let entryOffset ← getPage fun m => findEntryInLeaf (data m d.leaf beyond) key
    match entryOffset with
    | none => return false
    | some entryOffset => do
      removeEntry beyond d entryOffset key
      decreaseKvEntryCount
      return true

variable {t : Tx} {tree sub : Tree} {lists : Nat → FreeList} {b : Branch} {rest : List Branch} {key v : List UInt8} {page : Nat}
  {front back : List KVEntry}

/-- The entry that points to the lowest node of a path. -/
def Tree.aboveNode (rest : List Branch) : Option (Nat × Nat) := rest.head?.map fun c => (c.page, c.index.val)

/-- The loop follows a path from the root. -/
theorem descendFrom_path {hole : Nat} (root : ∃ sub children, plug (b :: rest) sub = node rootPage children)
    (rep : PathRep t.mem hole (b :: rest)) (follows : Follows key (b :: rest)) (fuel : Nat) :
    descendFrom key (fuel + rest.length) rootPage none 1 t = descendFrom key fuel b.page (aboveNode rest) (rest.length + 1) t := by
  induction rest generalizing b hole fuel with
  | nil =>
    obtain ⟨_, _, is⟩ := root
    injection is with same
    rw [same]
    rfl
  | cons c rest ih =>
    obtain ⟨_, low, _, above⟩ := rep
    obtain ⟨_, turn, behind⟩ := follows
    rw [List.length_cons, Nat.add_comm rest.length 1, ← Nat.add_assoc, ih ⟨_, root.choose_spec⟩ above ⟨turn, behind⟩ (fuel + 1), descendFrom,
      getPage_bind, getBucket_digit, turn, above.1, if_neg (by omega), if_pos (by rw [getMsb_node low]; decide), clearMsb_node low,
      Nat.add_comm 1]
    rfl

/-- Where the loop ends. -/
theorem Rooted.descend_run (rooted : Rooted (plug (b :: rest) sub) lists t) (follows : Follows key (b :: rest)) (last : sub.isNode = false) :
    descendFrom key maxPages rootPage none 1 t =
      .done (if sub.entry = 0 then none else some ⟨b.page, b.index, aboveNode rest, sub.entry⟩) t := by
  obtain ⟨path, rep⟩ := rep_plug.mp rooted.rep
  have card := rooted.card_pages
  rw [pages_plug, Multiset.card_add] at card
  have length := length_le_pathPages (b :: rest)
  rw [List.length_cons] at length
  obtain ⟨fuel, enough⟩ : ∃ fuel, maxPages = fuel + 1 + rest.length := ⟨maxPages - 1 - rest.length, by omega⟩
  have msb := entry_msb rep
  rw [last, if_neg Bool.false_ne_true] at msb
  rw [enough, descendFrom_path ⟨sub, rooted.root⟩ path follows, descendFrom, getPage_bind, getBucket_digit, follows.1, path.1]
  split
  · rfl
  · rw [if_neg (not_not.mpr msb)]
    rfl

theorem shiftEntries_run (leaf : SinglePage t.mem page (front ++ ⟨key, v⟩ :: back)) (inside : HeadersInside 0 (front ++ ⟨key, v⟩ :: back))
    (beyond : Mem) :
    ∃ t', shiftEntries beyond page (entriesSize front) key t = .done () t' ∧ Touched (leafPages page []) t t' ∧
      SinglePage t'.mem page (front ++ back) := by
  have mine := start_mem page []
  have whole : dataOffset + capacity = pageSize := by decide
  have small : capacity < 2 ^ 64 := by decide
  have few := entries_few leaf.fits
  have fits := leaf.fits
  have split : encodeEntries (front ++ ⟨key, v⟩ :: back) = encodeEntries front ++ (KVEntry.encode ⟨key, v⟩ ++ encodeEntries back) := by
    rw [encodeEntries_append, encodeEntries_cons]
  obtain ⟨size, is⟩ : ∃ size, key.length + 1 + 8 + v.length = size := ⟨_, rfl⟩
  have entrySize : KVEntry.size ⟨key, v⟩ = size := is
  rw [entriesSize_append, entriesSize_cons, entrySize] at fits
  obtain ⟨_, _, valueLength, _⟩ := entry_stored_at (data_holds_iff.mpr leaf.content : Holds (data t.mem page beyond) 0 (capacity - 0) _) inside
  rw [Nat.zero_add] at valueLength
  have moved : slice (data t.mem page beyond) (entriesSize front + size) (entriesSize back) = encodeEntries back := by
    have holds : Holds (data t.mem page beyond) 0 capacity _ := data_holds_iff.mpr leaf.content
    rw [split] at holds
    have behind := holds.drop.drop
    rw [encodeEntries_length, KVEntry.encode_length, entrySize, Nat.zero_add] at behind
    rw [← List.append_nil (encodeEntries back)] at behind
    have bytes := behind.slice (by rw [encodeEntries_length]; omega)
    rwa [encodeEntries_length] at bytes
  obtain ⟨bytes, shifted⟩ : ∃ bytes, encodeEntries back ++ List.replicate size 0 = bytes := ⟨_, rfl⟩
  have length : bytes.length = size + entriesSize back := by
    rw [← shifted, List.length_append, List.length_replicate, encodeEntries_length, Nat.add_comm]
  obtain ⟨t₁, is₁⟩ : ∃ t₁, t.write page (dataOffset + entriesSize front) bytes.length bytes = t₁ := ⟨_, rfl⟩
  obtain ⟨t₂, is₂⟩ : ∃ t₂, t₁.write page usageOffset 8 (leBytes 8 (entriesSize (front ++ back))) = t₂ := ⟨_, rfl⟩
  obtain ⟨t₃, is₃⟩ : ∃ t₃, t₂.write page entryCountOffset 2 (leBytes 2 ((front ++ ⟨key, v⟩ :: back).length + (2 ^ 16 - 1))) = t₃ := ⟨_, rfl⟩
  have mem₁ : t₁.mem = overwrite t.mem (page * pageSize + (dataOffset + entriesSize front)) bytes.length bytes := by
    rw [← is₁]
    rfl
  have mem₂ : t₂.mem = overwrite t₁.mem (page * pageSize + usageOffset) 8 (leBytes 8 (entriesSize (front ++ back))) := by
    rw [← is₂]
    rfl
  have mem₃ : t₃.mem = overwrite t₂.mem (page * pageSize + entryCountOffset) 2
      (leBytes 2 ((front ++ ⟨key, v⟩ :: back).length + (2 ^ 16 - 1))) := by
    rw [← is₃]
    rfl
  have rest := entriesSize_append front back
  obtain ⟨next₁, usage₁, count₁⟩ := header_write t.mem page (entriesSize front) bytes.length bytes
  obtain ⟨next₂, usage₂, count₂, data₂⟩ := usage_write t₁.mem page (show entriesSize (front ++ back) < 2 ^ 64 by omega)
  rw [← mem₁] at next₁ usage₁ count₁
  rw [← mem₂] at next₂ usage₂ count₂ data₂
  have total : entriesSize (front ++ ⟨key, v⟩ :: back) = entriesSize front + (size + entriesSize back) := by
    rw [entriesSize_append, entriesSize_cons, entrySize]
  have run : shiftEntries beyond page (entriesSize front) key t = .done () t₃ := by
    rw [shiftEntries, getPage_bind, valueLength, is, getPage_bind, leaf.usage, total, sub64_eq (by omega) (by omega),
      show entriesSize front + (size + entriesSize back) - (entriesSize front + size) = entriesSize back by omega, getPage_bind, moved,
      shifted, writePage_bind, is₁, getPage_bind, usage₁, leaf.usage, total, sub64_eq (by omega) (by omega),
      show entriesSize front + (size + entriesSize back) - size = entriesSize (front ++ back) by omega, writeInt_bind, is₂, getPage_bind,
      count₂, count₁, leaf.entryCount, writeInt_run, is₃]
  have content : Holds t₁.mem (page * pageSize + dataOffset) capacity (encodeEntries (front ++ back)) := by
    have old := leaf.content
    rw [split, ← List.append_nil (KVEntry.encode ⟨key, v⟩ ++ encodeEntries back)] at old
    have replaced : Holds (overwrite t.mem (page * pageSize + dataOffset + (encodeEntries front).length) bytes.length bytes)
        (page * pageSize + dataOffset) capacity (encodeEntries front ++ (bytes ++ [])) :=
      old.replace (Or.inl (by rw [List.length_append, KVEntry.encode_length, entrySize, encodeEntries_length, length]))
    rw [encodeEntries_length, Nat.add_assoc (page * pageSize), ← mem₁, List.append_nil, ← shifted, ← List.append_assoc,
      ← encodeEntries_append] at replaced
    refine (replaced.append_iff (by rw [encodeEntries_length, List.length_replicate]; omega)).mpr fun b member => ?_
    exact List.eq_of_mem_replicate member
  have after : ∀ start, start + 8 ≤ entryCountOffset → leAt t₃.mem (page * pageSize + start) 8 = leAt t₂.mem (page * pageSize + start) 8 := by
    intro start apart
    rw [mem₃]
    exact leAt_overwrite_outside (by omega)
  have fewer : (front ++ ⟨key, v⟩ :: back).length = (front ++ back).length + 1 := by
    rw [List.length_append, List.length_cons, List.length_append, Nat.add_assoc]
  refine ⟨t₃, run, ?_, ⟨(after nextOffset (by decide)).trans (next₂.trans (next₁.trans leaf.next)), (after usageOffset (by decide)).trans usage₂, ?_,
    by omega, content.congr fun i within => ?_⟩⟩
  · rw [← is₃, ← is₂, ← is₁]
    exact .trans (.trans (.write mine (by omega) _) (.write mine (by decide) _)) (.write mine (by decide) _)
  · rw [LeafNodeStartPage.entryCount, mem₃, leAt_overwrite_self, fewer]
    rw [fewer] at few
    omega
  · rw [mem₃, overwrite_outside (Or.inr (by unfold entryCountOffset dataOffset; omega)), data₂ i]

end DiskMap
