import DiskMap.Map.Pages

namespace DiskMap
open ByteMemory

namespace SpaceManager

/-- The loop that clears the pages of a region that is about to be reused. -/
def clearRegion (page : Nat) : Nat → TxProgram Unit
  | 0 => pure ()
  | i + 1 => do
    clearRegion page i
    .modify fun t => t.reclaim (page + i)

/-- No freed region is available. The source has no check of `next_free_page`: beyond `maxPages`, where a page has no offset
in the file, its call returns too, and what fails is the first read of the page. -/
def allocateFresh (order : Nat) : TxProgram Nat := do
  let page ← getPage MetaPage.nextFreePage
  if maxPages < page + 2 ^ order then .stuck
  else
    writeInt 8 0 MetaPage.nextFreePageOffset (page + 2 ^ order)
    return page

/-- One entry is gone; from a page that is empty now the list moves to the previous one, if there is any. -/
def dropEntry (order count previous : Nat) : TxProgram Unit :=
  if count - 1 = 0 ∧ previous ≠ 0 then do
    writeInt 8 0 (MetaPage.lastFplPageOffset order) previous
    writeInt 4 0 (MetaPage.lastFplPageEntriesOffset order) fplPageCapacity
  else writeInt 4 0 (MetaPage.lastFplPageEntriesOffset order) (count - 1)

/-- Takes the last freed region from the free page list. -/
def allocateFreed (order count : Nat) : TxProgram Nat := do
  let fpl ← getPage fun m => MetaPage.lastFplPage m order
  let result ← getPage fun m => FPLPage.entries m fpl (count - 1)
  clearRegion result (2 ^ order)
  let previous ← getPage fun m => FPLPage.previous m fpl
  dropEntry order count previous
  .modify fun t => { t with freeListed := t.freeListed.erase (result, order) }
  return result

/-- `1 << order` is an `int`. -/
def allocate (order : Nat) : TxProgram Nat := do
  if 31 ≤ order then .stuck
  else
    let count ← getPage fun m => MetaPage.lastFplPageEntries m order
    if count = 0 then allocateFresh order else allocateFreed order count

/-- The region goes on the free list, as the entry with the given index of a free-page-list page. -/
def listRegion (page order fpl index : Nat) : TxProgram Unit := do
  writeInt 8 fpl (FPLPage.entriesOffset index) page
  .modify fun t => { t with freeListed := (page, order) :: t.freeListed }

/-- Page numbers are signed: those with the top bit set are negative. -/
def free (page order : Nat) : TxProgram Unit := do
  if page < maxOrder + 3 ∨ 2 ^ 63 ≤ page then .throw "free: cannot free reserved pages"
  else
    let count ← getPage fun m => MetaPage.lastFplPageEntries m order
    let fpl ← getPage fun m => MetaPage.lastFplPage m order
    if count < fplPageCapacity then
      listRegion page order fpl count
      writeInt 4 0 (MetaPage.lastFplPageEntriesOffset order) (count + 1)
    else
      let next ← getPage fun m => FPLPage.next m fpl
      if next = 0 then
        if order = 0 then
          clearPage page
          writeInt 8 page FPLPage.previousOffset fpl
          writeInt 8 fpl FPLPage.nextOffset page
        else
          let newFpl ← allocate 0
          clearPage newFpl
          let last ← getPage fun m => MetaPage.lastFplPage m order
          writeInt 8 newFpl FPLPage.previousOffset last
          writeInt 8 fpl FPLPage.nextOffset newFpl
          listRegion page order newFpl 0
          writeInt 8 0 (MetaPage.lastFplPageOffset order) newFpl
          writeInt 4 0 (MetaPage.lastFplPageEntriesOffset order) 1
      else
        listRegion page order next 0
        writeInt 8 0 (MetaPage.lastFplPageOffset order) next
        writeInt 4 0 (MetaPage.lastFplPageEntriesOffset order) 1

end SpaceManager

/-- What the constructor writes into a new file: the meta page is number 0, the root
page number 1, and the free page lists begin at pages 2 to `maxOrder + 2`. -/
def initializeFpl : Nat → TxProgram Unit
  | 0 => pure ()
  | order + 1 => do
    initializeFpl order
    writeInt 8 0 (MetaPage.lastFplPageOffset order) (order + 2)
    writeInt 4 0 (MetaPage.lastFplPageEntriesOffset order) 0

def magic : List UInt8 := [68, 73, 83, 75, 77, 65, 80, 0]

def construct : TxProgram Unit := do
  writeInt 8 0 MetaPage.kvEntryCountOffset 0
  writeInt 8 0 MetaPage.nextFreePageOffset (maxOrder + 3)
  initializeFpl (maxOrder + 1)
  writePage 0 0 magic

end DiskMap
