import DiskMap.Map.Calls

namespace DiskMap
open ByteMemory LeafNodeStartPage BigValue DiskMap.Tree

/-- The calls of a transaction, one after the other. -/
def runAll (beyond : Mem) : List Call → TxProgram (List (Option Bool))
  | [] => pure []
  | call :: more => do
    let result ← call.run beyond
    let results ← runAll beyond more
    return result :: results

/-- Every call finds a map that it can be made on. -/
def AdmissibleRun (beyond : Mem) : Tree → Tx → List Call → Prop
  | _, _, [] => True
  | tree, t, call :: more => call.Admissible beyond tree t ∧ ∀ r t' tree' lists', call.run beyond t = .done r t' →
      WellFormed tree' lists' t' → tree'.contents = tree.contents.apply call → AdmissibleRun beyond tree' t' more

/-- What the readers and the meta page tell about the map. -/
structure Shows (c : Contents) (t : Tx) : Prop where
  read : ∀ beyond key v, c key = some v → (read beyond key t).Ends fun r t' => t' = t ∧ r.found = true ∧ r.buffer = v
  readPart : ∀ beyond key v offset length, c key = some v → offset ≤ v.length ∨ length = 0 →
    (capacity < key.length + 9 + v.length → offset < before (key.length + 9) 20) →
      (readPart beyond key offset length t).Ends fun r t' => t' = t ∧ r.found = true ∧ r.buffer = (v.drop offset).take length
  readValueLength : ∀ beyond key v, c key = some v → readValueLength beyond key t = .done (true, v.length) t
  absent : ∀ beyond key, c key = none → NulFree key → MetaPage.nextFreePage t.mem / 2 ^ 16 % 256 = 0 → ReportsAbsent beyond key t
  kvEntryCount : MetaPage.kvEntryCount t.mem = {key | c key ≠ none}.ncard

variable {t t' : Tx} {lists : Nat → FreeList} {tree tree' : Tree} {key v buffer : List UInt8} {beyond : Mem} {call : Call} {calls : List Call}
  {c : Contents}

theorem WellFormed.readValueLength_stored (wf : WellFormed tree lists t) (stored : tree.lookup key 0 = some v) (beyond : Mem) :
    readValueLength beyond key t = .done (true, v.length) t := by
  obtain ⟨b, rest, page, front, back, regions, s⟩ := wf.storedIn stored
  obtain ⟨_, _, current, _⟩ := s.inside beyond
  have found : findEntryInLeaf (data t.mem page beyond) key = some (entriesSize front) :=
    (s.leaf.findEntryInLeaf_eq s.noNul.2 beyond).trans s.offset
  rw [readValueLength, Program.done_bind s.found]
  dsimp only
  rw [getPage_bind, s.entry, getMsb_leaf s.low, if_neg (fun h => h rfl), clearMsb_leaf s.low, getPage_bind, found]
  simp only
  rw [getPage_bind, current]
  rfl

/-- Each entry is counted once. -/
theorem WellFormed.card_entries (wf : WellFormed tree lists t) : tree.entries.card = {key | tree.contents key ≠ none}.ncard := by
  have nodup := entries_keys_nodup wf.rep wf.placed
  have keys : {key | tree.contents key ≠ none} = (tree.entries.map KVEntry.key).toFinset := by
    ext key
    rw [Finset.mem_coe, Multiset.mem_toFinset, Multiset.mem_map]
    constructor
    · intro some_
      obtain ⟨v, found⟩ := Option.ne_none_iff_exists'.mp some_
      exact ⟨⟨key, v⟩, (lookup_iff wf.rep wf.placed).mp found, rfl⟩
    · rintro ⟨e, member, rfl⟩ none_
      have found := lookup_key wf.rep wf.placed member
      rw [show tree.lookup e.key 0 = none from none_] at found
      cases found
  rw [keys, Set.ncard_coe_finset, Multiset.toFinset_card_of_nodup nodup, Multiset.card_map]

theorem WellFormed.shows (wf : WellFormed tree lists t) : Shows tree.contents t where
  read beyond _ _ stored := wf.read_stored stored beyond
  readPart beyond _ _ _ _ stored either reach :=
    (wf.readPart_near stored beyond either reach).mono fun _ _ part => ⟨part.1, part.2.1, part.2.2.1⟩
  readValueLength beyond _ _ stored := wf.readValueLength_stored stored beyond
  absent beyond key none_ noNul quiet := by
    refine wf.rooted.reportsAbsent ?_
    by_cases empty : tree.bucketEntry key 0 = 0
    · rw [empty]
      exact findEntryInLeaf_meta quiet key beyond
    · exact wf.rooted.leaf_absent noNul none_ empty beyond
  kvEntryCount := wf.kvEntryCount.trans wf.card_entries

/-- The pages of the file belong to the meta page, the tree, the free page lists and the regions on these. -/
def pageOwners (tree : Tree) (lists : Nat → FreeList) (t : Tx) : Multiset Nat :=
  {0} + tree.pages + fplPages lists + pagesOf t.freeListed

theorem WellFormed.owned (wf : WellFormed tree lists t) : pageOwners tree lists t = Multiset.range (MetaPage.nextFreePage t.mem) := by
  have low := wf.space.fpl_bounds (Nat.zero_le _) (wf.space.base 0 (Nat.zero_le _))
  have owned := wf.space.owned
  have pages := wf.rooted.pages_eq
  generalize tree.pages.erase rootPage = more at owned pages
  have parts : pageOwners tree lists t = {0} + {rootPage} + (fplPages lists + pagesOf t.freeListed + more) := by
    rw [pageOwners, pages, ← Multiset.singleton_add]
    abel
  have first : ({0} + {rootPage} : Multiset Nat) = Multiset.Ico 0 2 := by decide
  rw [parts, owned, first, Multiset.Ico_add_Ico_eq_Ico (Nat.zero_le 2) (by omega)]
  refine Multiset.Nodup.ext Multiset.nodup_Ico (Multiset.nodup_range _) |>.mpr fun page => ?_
  rw [Multiset.mem_Ico, Multiset.mem_range]
  exact and_iff_right (Nat.zero_le page)

/-- A run of calls does to the map what it does to its contents. -/
theorem WellFormed.calls_fits (wf : WellFormed tree lists t) (admissible : AdmissibleRun beyond tree t calls) :
    Fits (MetaPage.nextFreePage t.mem + tree.contents.cost calls) (runAll beyond calls t) fun rs t' => rs = tree.contents.results calls ∧
      ∃ tree' lists', WellFormed tree' lists' t' ∧ tree'.contents = tree.contents.after calls ∧ t'.strayWrites = t.strayWrites := by
  induction calls generalizing tree lists t with
  | nil => exact .intro rfl ⟨rfl, tree, lists, wf, rfl, rfl⟩ (Nat.le_add_right _ _)
  | cons call more ih =>
    obtain ⟨first, rest⟩ := admissible
    rw [runAll, Contents.cost, ← Nat.add_assoc]
    rcases wf.call_fits first with ⟨r, t₁, ended, ⟨is, tree₁, lists₁, wf₁, contents₁, stray₁⟩, le⟩ | ⟨never, more_⟩
    · rw [Program.done_bind ended]
      have later := ih wf₁ (rest r t₁ tree₁ lists₁ ended wf₁ contents₁)
      rw [contents₁] at later
      refine (later.mono (Nat.add_le_add_right le _) fun _ _ post => post).bind le_rfl ?_
      rintro rs t' ⟨are, tree', lists', wf', contents', stray'⟩ le'
      refine .intro rfl ⟨?_, tree', lists', wf', contents', stray'.trans stray₁⟩ le'
      rw [Contents.results, is, are]
    · exact Or.inr ⟨Program.stuck_bind never _, more_.trans_le (Nat.le_add_right _ _)⟩

end DiskMap
