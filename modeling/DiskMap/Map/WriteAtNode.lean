import DiskMap.Map.CreateSubtree

namespace DiskMap
open ByteMemory MachineInts LeafNodeStartPage DiskMap.Tree

/-- The loop that creates internal nodes until a new key and the only one of a leaf are in different buckets. -/
def splitLeafFrom (key existingKey buffer : List UInt8) (leaf : Nat) : Nat → Nat → Nat → TxProgram Unit
  | 0, _, _ => .stuck
  | fuel + 1, parent, parentDepth => do
    let newBucket := getBucket key (parentDepth + 1)
    let existingKeyBucket := getBucket existingKey (parentDepth + 1)
    if existingKeyBucket = newBucket then
      let page ← SpaceManager.allocate 0
      writeInt 8 parent (InternalNodePage.entriesOffset newBucket) (setMsb page 1)
      splitLeafFrom key existingKey buffer leaf fuel page (parentDepth + 1)
    else
      writeInt 8 parent (InternalNodePage.entriesOffset existingKeyBucket) (setMsb leaf 0)
      createSubtree parent newBucket parentDepth [⟨key, buffer⟩]

/-- The new entry goes behind the others. -/
def appendEntry (leaf : Nat) (key buffer : List UInt8) : TxProgram Unit := do
  let usage ← getPage fun m => LeafNodeStartPage.usage m leaf
  writePage leaf (dataOffset + usage) (KVEntry.encode ⟨key, buffer⟩)
  let usage ← getPage fun m => LeafNodeStartPage.usage m leaf
  writeInt 8 leaf usageOffset (usage + (key.length + 1 + 8 + buffer.length))
  let entryCount ← getPage fun m => LeafNodeStartPage.entryCount m leaf
  writeInt 2 leaf entryCountOffset (entryCount + 1)

def increaseKvEntryCount : TxProgram Unit := do
  let count ← getPage MetaPage.kvEntryCount
  writeInt 8 0 MetaPage.kvEntryCountOffset (count + 1)

/-- The branch of `write_at_node` for a key that the leaf does not have. -/
def addEntry (beyond : Mem) (parent parentEntry parentDepth leaf : Nat) (key buffer : List UInt8) : TxProgram Unit := do
  increaseKvEntryCount
  let usage ← getPage fun m => LeafNodeStartPage.usage m leaf
  if usage + (key.length + 1 + 8 + buffer.length) ≤ capacity then appendEntry leaf key buffer
  else
    let entryCount ← getPage fun m => LeafNodeStartPage.entryCount m leaf
    let entries ← getPage fun m => getEntriesInLeaf (data m leaf beyond)
    if entryCount = 1 then
      match entries with
      | [] => .stuck
      | e :: _ => splitLeafFrom key e.key buffer leaf maxPages parent parentDepth
    else createSubtree parent parentEntry parentDepth (entries ++ [⟨key, buffer⟩])

/-- The first entry with the key gets the new value. -/
def replaceValue (key value : List UInt8) : List KVEntry → List KVEntry
  | [] => []
  | e :: rest => if e.key = key then { e with value } :: rest else e :: replaceValue key value rest

/-- The branch of `write_at_node` for a key that the leaf has. -/
def updateEntry (beyond : Mem) (parent parentEntry parentDepth leaf entryOffset : Nat) (key buffer : List UInt8) : TxProgram Unit := do
  let next ← getPage fun m => LeafNodeStartPage.next m leaf
  if next ≠ 0 then
    freeLeaf leaf
    writeInt 8 parent (InternalNodePage.entriesOffset parentEntry) 0
  let currentLength ← getPage fun m => leAt (data m leaf beyond) (entryOffset + key.length + 1) 8
  let usage ← getPage fun m => LeafNodeStartPage.usage m leaf
  if capacity < sub64 (usage + buffer.length) currentLength then
    let entries ← getPage fun m => getEntriesInLeaf (data m leaf beyond)
    createSubtree parent parentEntry parentDepth (replaceValue key buffer entries)
  else updateValueTrivially leaf entryOffset key buffer

/-- A buffer is `none` when the pointer to it is null. -/
def writeAtNode (beyond : Mem) (parent parentEntry parentDepth : Nat) (key : List UInt8) (buffer : Option (List UInt8)) :
    TxProgram Unit :=
  match buffer with
  | none => .throw "write: invalid input parameters"
  | some buffer =>
    if key.length = 0 ∨ maxKeyLength < key.length then .throw "write: invalid input parameters"
    else do
      let value ← getPage fun m => InternalNodePage.entries m parent parentEntry
      if value = 0 then
        createSubtree parent parentEntry parentDepth [⟨key, buffer⟩]
        increaseKvEntryCount
      else
        let leaf := clearMsb value
        let entryOffset ← getPage fun m => findEntryInLeaf (data m leaf beyond) key
        match entryOffset with
        | some entryOffset => updateEntry beyond parent parentEntry parentDepth leaf entryOffset key buffer
        | none => addEntry beyond parent parentEntry parentDepth leaf key buffer

def write (beyond : Mem) (key : List UInt8) (buffer : Option (List UInt8)) : TxProgram Unit := do
  let (parent, parentEntry, parentDepth) ← findParent key
  writeAtNode beyond parent parentEntry parentDepth key buffer

theorem NulFree.valid {key : List UInt8} (noNul : NulFree key) (short : key.length ≤ maxKeyLength) :
    ¬(key.length = 0 ∨ maxKeyLength < key.length) :=
  not_or.mpr ⟨fun zero => noNul.1 (List.length_eq_zero_iff.mp zero), Nat.not_lt.mpr short⟩

end DiskMap
