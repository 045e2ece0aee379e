import DiskMap.Map.ReplacedLeaf

namespace DiskMap
open ByteMemory MachineInts LeafNodeStartPage DiskMap.Tree

/-- The ranges of bytes that the loop of `get_entries_in_leaf` reads, as their beginnings and lengths: of every entry
the key with its NUL, the length of the value and the value. -/
def entryRangesFrom (leaf : Mem) : Nat → Nat → List (Nat × Nat)
  | 0, _ => []
  | fuel + 1, pos =>
    if capacity ≤ pos then []
    else if leaf pos = 0 then [(pos, 1)]
    else
      let keySize := strlen leaf pos (capacity - pos) + 1
      let valueLength := leAt leaf (pos + keySize) 8
      (pos, keySize) :: (pos + keySize, 8) :: (pos + keySize + 8, valueLength) ::
        entryRangesFrom leaf fuel (pos + keySize + 8 + valueLength)

/-- `get_entries_in_leaf` reads no byte behind the page. -/
def ReadsInside (leaf : Mem) : Prop := ∀ range ∈ entryRangesFrom leaf capacity 0, range.1 + range.2 ≤ capacity

instance (leaf : Mem) : Decidable (ReadsInside leaf) := inferInstanceAs (Decidable (∀ range ∈ _, _))

/-- The branch of `write_at_node` for a key that the leaf has, up to its call of `get_entries_in_leaf`: the leaf as it is then. -/
def updateEntryCopies (beyond : Mem) (parent parentEntry leaf entryOffset : Nat) (key buffer : List UInt8) : TxProgram (Option Mem) := do
  let next ← getPage fun m => LeafNodeStartPage.next m leaf
  if next ≠ 0 then
    freeLeaf leaf
    writeInt 8 parent (InternalNodePage.entriesOffset parentEntry) 0
  let currentLength ← getPage fun m => leAt (data m leaf beyond) (entryOffset + key.length + 1) 8
  let usage ← getPage fun m => LeafNodeStartPage.usage m leaf
  if capacity < sub64 (usage + buffer.length) currentLength then
    let copied ← getPage fun m => data m leaf beyond
    return some copied
  else return none

/-- The branch for a key that the leaf does not have. Both of its calls are at the same place. -/
def addEntryCopies (beyond : Mem) (leaf : Nat) (key buffer : List UInt8) : TxProgram (Option Mem) := do
  increaseKvEntryCount
  let usage ← getPage fun m => LeafNodeStartPage.usage m leaf
  if usage + (key.length + 1 + 8 + buffer.length) ≤ capacity then return none
  else
    let copied ← getPage fun m => data m leaf beyond
    return some copied

def writeAtNodeCopies (beyond : Mem) (parent parentEntry : Nat) (key : List UInt8) (buffer : Option (List UInt8)) :
    TxProgram (Option Mem) :=
  match buffer with
  | none => .throw "write: invalid input parameters"
  | some buffer =>
    if key.length = 0 ∨ maxKeyLength < key.length then .throw "write: invalid input parameters"
    else do
      let value ← getPage fun m => InternalNodePage.entries m parent parentEntry
      if value = 0 then return none
      else
        let leaf := clearMsb value
        let entryOffset ← getPage fun m => findEntryInLeaf (data m leaf beyond) key
        match entryOffset with
        | some entryOffset => updateEntryCopies beyond parent parentEntry leaf entryOffset key buffer
        | none => addEntryCopies beyond leaf key buffer

def writeCopies (beyond : Mem) (key : List UInt8) (buffer : Option (List UInt8)) : TxProgram (Option Mem) := do
  let (parent, parentEntry, _) ← findParent key
  writeAtNodeCopies beyond parent parentEntry key buffer

/-- `get_entries_in_leaf` is called with the leaf that the first part has come to. -/
theorem updateEntry_copies (beyond : Mem) (parent parentEntry parentDepth leaf entryOffset : Nat) (key buffer : List UInt8) :
    updateEntry beyond parent parentEntry parentDepth leaf entryOffset key buffer =
      updateEntryCopies beyond parent parentEntry leaf entryOffset key buffer >>= fun copied =>
        match copied with
        | some copied => createSubtree parent parentEntry parentDepth (replaceValue key buffer (getEntriesInLeaf copied))
        | none => updateValueTrivially leaf entryOffset key buffer := by
  have tail : (do
      let currentLength ← getPage fun m => leAt (data m leaf beyond) (entryOffset + key.length + 1) 8
      let usage ← getPage fun m => LeafNodeStartPage.usage m leaf
      if capacity < sub64 (usage + buffer.length) currentLength then
        let entries ← getPage fun m => getEntriesInLeaf (data m leaf beyond)
        createSubtree parent parentEntry parentDepth (replaceValue key buffer entries)
      else updateValueTrivially leaf entryOffset key buffer : TxProgram Unit) = (do
      let currentLength ← getPage fun m => leAt (data m leaf beyond) (entryOffset + key.length + 1) 8
      let usage ← getPage fun m => LeafNodeStartPage.usage m leaf
      if capacity < sub64 (usage + buffer.length) currentLength then
        let copied ← getPage fun m => data m leaf beyond
        return some copied
      else return none : TxProgram (Option Mem)) >>= fun copied =>
        match copied with
        | some copied => createSubtree parent parentEntry parentDepth (replaceValue key buffer (getEntriesInLeaf copied))
        | none => updateValueTrivially leaf entryOffset key buffer := by
    funext t
    simp only [Program.bind_assoc]
    rw [getPage_bind, getPage_bind, getPage_bind, getPage_bind]
    split
    · rw [getPage_bind, Program.bind_assoc, getPage_bind, Program.pure_bind]
    · rw [Program.pure_bind]
  rw [updateEntry, updateEntryCopies]
  simp only [Program.bind_assoc]
  funext t
  rw [getPage_bind, getPage_bind]
  split
  · simp only [Program.bind_assoc]
    rw [tail]
    simp only [Program.bind_assoc]
  · rw [tail]

theorem addEntry_copies (beyond : Mem) (parent parentEntry parentDepth leaf : Nat) (key buffer : List UInt8) :
    addEntry beyond parent parentEntry parentDepth leaf key buffer =
      addEntryCopies beyond leaf key buffer >>= fun copied =>
        match copied with
        | some copied => do
          let entryCount ← getPage fun m => LeafNodeStartPage.entryCount m leaf
          if entryCount = 1 then
            match getEntriesInLeaf copied with
            | [] => .stuck
            | e :: _ => splitLeafFrom key e.key buffer leaf maxPages parent parentDepth
          else createSubtree parent parentEntry parentDepth (getEntriesInLeaf copied ++ [⟨key, buffer⟩])
        | none => appendEntry leaf key buffer := by
  rw [addEntry, addEntryCopies]
  simp only [Program.bind_assoc]
  refine congrArg (increaseKvEntryCount >>= ·) (funext fun _ => funext fun t => ?_)
  rw [getPage_bind, getPage_bind]
  split
  · rw [Program.pure_bind]
  · rw [getPage_bind, getPage_bind, Program.bind_assoc, getPage_bind, Program.pure_bind]
    simp only
    refine Eq.trans ?_ (getPage_bind _ _ t).symm
    split
    · cases getEntriesInLeaf (data t.mem leaf beyond) <;> rfl
    · rfl

/-- The rest of `write_at_node` in the branch that the pages `m` have led to. Without a leaf in the bucket nothing has been copied. -/
def afterCopies (m beyond : Mem) (parent parentEntry parentDepth : Nat) (key buffer : List UInt8) (copied : Option Mem) : TxProgram Unit :=
  let value := InternalNodePage.entries m parent parentEntry
  let leaf := clearMsb value
  if value = 0 then do
    createSubtree parent parentEntry parentDepth [⟨key, buffer⟩]
    increaseKvEntryCount
  else match findEntryInLeaf (data m leaf beyond) key, copied with
    | some _, some copied => createSubtree parent parentEntry parentDepth (replaceValue key buffer (getEntriesInLeaf copied))
    | some entryOffset, none => updateValueTrivially leaf entryOffset key buffer
    | none, some copied => do
      let entryCount ← getPage fun m => LeafNodeStartPage.entryCount m leaf
      if entryCount = 1 then
        match getEntriesInLeaf copied with
        | [] => .stuck
        | e :: _ => splitLeafFrom key e.key buffer leaf maxPages parent parentDepth
      else createSubtree parent parentEntry parentDepth (getEntriesInLeaf copied ++ [⟨key, buffer⟩])
    | none, none => appendEntry leaf key buffer

theorem writeAtNode_copies (beyond : Mem) (parent parentEntry parentDepth : Nat) (key buffer : List UInt8) (t : Tx) :
    writeAtNode beyond parent parentEntry parentDepth key (some buffer) t =
      (writeAtNodeCopies beyond parent parentEntry key (some buffer) >>=
        afterCopies t.mem beyond parent parentEntry parentDepth key buffer) t := by
  rw [writeAtNode, writeAtNodeCopies]
  by_cases invalid : key.length = 0 ∨ maxKeyLength < key.length
  · rw [if_pos invalid, if_pos invalid]
    rfl
  rw [if_neg invalid, if_neg invalid, getPage_bind, Program.bind_assoc, getPage_bind]
  by_cases empty : InternalNodePage.entries t.mem parent parentEntry = 0
  · rw [if_pos empty, if_pos empty, Program.pure_bind]
    unfold afterCopies
    simp only [if_pos empty]
  rw [if_neg empty, if_neg empty, getPage_bind, Program.bind_assoc, getPage_bind]
  unfold afterCopies
  simp only [if_neg empty]
  cases findEntryInLeaf (data t.mem (clearMsb (InternalNodePage.entries t.mem parent parentEntry)) beyond) key with
  | some entryOffset =>
    simp only [updateEntry_copies]
    refine congrFun (congrArg (_ >>= ·) (funext fun copied => ?_)) t
    cases copied <;> rfl
  | none =>
    simp only [addEntry_copies]
    refine congrFun (congrArg (_ >>= ·) (funext fun copied => ?_)) t
    cases copied <;> rfl

/-- `write` is what it does up to the copies, and the rest. -/
theorem write_copies (beyond : Mem) (key buffer : List UInt8) :
    write beyond key (some buffer) = findParent key >>= fun found t =>
      (writeAtNodeCopies beyond found.1 found.2.1 key (some buffer) >>= afterCopies t.mem beyond found.1 found.2.1 found.2.2 key buffer) t :=
  congrArg (findParent key >>= ·) (funext fun found => funext fun t => writeAtNode_copies beyond found.1 found.2.1 found.2.2 key buffer t)

section Ranges

variable {leaf : Mem} {pos fuel : Nat} {entries rest : List KVEntry} {e : KVEntry}

theorem entryRangesFrom_cons (holds : Holds leaf pos (capacity - pos) (encodeEntries (e :: rest))) (inside : HeadersInside pos (e :: rest))
    (noNul : NulFree e.key) (fuel : Nat) :
    entryRangesFrom leaf (fuel + 1) pos =
      (pos, e.key.length + 1) :: (pos + e.key.length + 1, 8) :: (pos + e.key.length + 9, e.value.length) ::
        entryRangesFrom leaf fuel (pos + e.size) := by
  obtain ⟨stored, length, _⟩ := entry_stored holds inside
  have header := inside.1
  have keySize := strlen_eq noNul.2 stored (show e.key.length < capacity - pos by omega)
  rw [entryRangesFrom, if_neg (by omega), if_neg (entry_first holds inside noNul)]
  simp only [keySize, ← Nat.add_assoc, length]
  have next : pos + e.key.length + 1 + 8 + e.value.length = pos + e.size := by unfold KVEntry.size; omega
  rw [next]

theorem entryRanges_inside (holds : Holds leaf pos (capacity - pos) (encodeEntries entries)) (fits : pos + entriesSize entries ≤ capacity)
    (inside : HeadersInside pos entries) (keys : ∀ e ∈ entries, NulFree e.key) (fuel : Nat) :
    ∀ range ∈ entryRangesFrom leaf fuel pos, range.1 + range.2 ≤ capacity := by
  induction fuel generalizing pos entries with
  | zero => exact fun range member => absurd member List.not_mem_nil
  | succ fuel ih =>
    cases entries with
    | nil =>
      rw [entryRangesFrom]
      split
      · exact fun range member => absurd member List.not_mem_nil
      · have ends : leaf pos = 0 := holds 0 (by omega)
        rw [if_pos ends]
        intro range member
        rw [List.mem_singleton.mp member]
        omega
    | cons e rest =>
      obtain ⟨_, _, _, later⟩ := entry_stored holds inside
      have size : e.size = e.key.length + 9 + e.value.length := rfl
      rw [entriesSize_cons] at fits
      rw [entryRangesFrom_cons holds inside (keys e List.mem_cons_self)]
      have deeper := ih later (by omega) inside.2.2 fun e' member => keys e' (List.mem_cons_of_mem _ member)
      intro range member
      rcases List.mem_cons.mp member with rfl | member
      · dsimp only
        omega
      rcases List.mem_cons.mp member with rfl | member
      · dsimp only
        omega
      rcases List.mem_cons.mp member with rfl | member
      · dsimp only
        omega
      · exact deeper range member

end Ranges

variable {t : Tx} {key buffer : List UInt8} {tree : Tree} {held : Multiset Nat} {lists : Nat → FreeList} {page parent index : Nat}
  {entries : List KVEntry} {regions : List Nat} {beyond : Mem}

/-- `get_entries_in_leaf` stays inside exactly the leaves of one page. -/
theorem LeafAt.readsInside_iff {m : Mem} (leaf : LeafAt m page entries regions) (beyond : Mem) :
    ReadsInside (data m page beyond) ↔ regions = [] := by
  have holds := leaf.data_holds beyond
  rw [← Nat.sub_zero capacity] at holds
  constructor
  · intro inside
    by_contra chained
    obtain ⟨one, large⟩ := leaf.single chained
    obtain ⟨e, rfl⟩ := List.length_eq_one_iff.mp one
    have value : (0 + e.key.length + 9, e.value.length) ∈ entryRangesFrom (data m page beyond) capacity 0 := by
      obtain ⟨fuel, is⟩ : ∃ fuel, capacity = fuel + 1 := ⟨capacity - 1, by decide⟩
      have ranges := entryRangesFrom_cons holds leaf.headersInside (leaf.keys.nulFree e List.mem_cons_self) fuel
      rw [← is] at ranges
      rw [ranges]
      simp
    have bound := inside _ value
    have size : entriesSize [e] = e.key.length + 9 + e.value.length := Nat.add_zero _
    dsimp only at bound
    omega
  · rintro rfl
    have fits : 0 + entriesSize entries ≤ capacity := by
      rw [Nat.zero_add]
      exact leaf.fits
    exact entryRanges_inside holds fits leaf.headersInside leaf.keys.nulFree capacity

/-- Whether the entries of a leaf are copied: with the new value, or the new entry, it would be too long. -/
def copiesEntries (beyond : Mem) (key buffer : List UInt8) (m : Mem) (leaf : Nat) : Bool :=
  match findEntryInLeaf (data m leaf beyond) key with
  | some entryOffset =>
    capacity < sub64 (LeafNodeStartPage.usage m leaf + buffer.length) (leAt (data m leaf beyond) (entryOffset + key.length + 1) 8)
  | none => capacity < LeafNodeStartPage.usage m leaf + (key.length + 1 + 8 + buffer.length)

section Updating

variable {entryOffset : Nat} (found : findEntryInLeaf (data t.mem page beyond) key = some entryOffset)

include found

theorem updateEntryCopies_single (alone : LeafNodeStartPage.next t.mem page = 0) :
    updateEntryCopies beyond parent index page entryOffset key buffer t =
      .done (if copiesEntries beyond key buffer t.mem page then some (data t.mem page beyond) else none) t := by
  rw [updateEntryCopies, getPage_bind, alone, if_neg (fun h => h rfl), copiesEntries, found]
  beta_reduce
  rw [getPage_bind, getPage_bind]
  simp only [decide_eq_true_iff]
  split <;> rfl

/-- The start page of a freed leaf is read as it was, if no free list has taken it. -/
theorem updateEntryCopies_large (hole : Hole lists held parent index (Tree.leaf page entries regions) t) (chained : regions ≠ [])
    (open_ : ∀ order, order ≤ regions.length → ¬ ListFull t.mem order) :
    ∃ t', updateEntryCopies beyond parent index page entryOffset key buffer t =
      .done (if copiesEntries beyond key buffer t.mem page then some (data t.mem page beyond) else none) t' := by
  obtain ⟨_, _, at_⟩ := hole.rep
  obtain ⟨t₁, t', freed, wrote, _, _, same, _⟩ := hole.unlinked open_
  refine ⟨t', ?_⟩
  obtain ⟨q, more, rfl⟩ := List.exists_cons_of_ne_nil chained
  have next : LeafNodeStartPage.next t.mem page = q := at_.links 0 page rfl
  have linked : q ≠ 0 := by
    have member : q ∈ (Tree.leaf page entries (q :: more)).pages := regionPage_mem (k := 0) (i := 1) rfl (Nat.two_pow_pos 1)
    have bounds := hole.space.held_bounds (Multiset.mem_add.mpr (Or.inr member))
    omega
  have usage : LeafNodeStartPage.usage t'.mem page = LeafNodeStartPage.usage t.mem page := same.leAt_eq (by decide)
  rw [updateEntryCopies, getPage_bind, next, if_pos linked, Program.done_bind freed, Program.done_bind wrote, copiesEntries, found]
  beta_reduce
  rw [getPage_bind, getPage_bind, usage, data_congr same]
  simp only [decide_eq_true_iff]
  split
  · rw [getPage_bind, data_congr same]
    rfl
  · rfl

end Updating

theorem addEntryCopies_run (hole : Hole lists held parent index (Tree.leaf page entries regions) t) (small : MetaPage.kvEntryCount t.mem + 1 < 2 ^ 64)
    (absent : findEntryInLeaf (data t.mem page beyond) key = none) : ∃ t', addEntryCopies beyond page key buffer t =
      .done (if copiesEntries beyond key buffer t.mem page then some (data t.mem page beyond) else none) t' := by
  obtain ⟨t₁, increased, counted⟩ := increaseKvEntryCount_run hole.space small
  have mine : page ∈ (Tree.leaf page entries regions).pages := start_mem page regions
  have bounds := hole.space.held_bounds (Multiset.mem_add.mpr (Or.inr mine))
  have same := counted.pages page (by omega)
  have usage : LeafNodeStartPage.usage t₁.mem page = LeafNodeStartPage.usage t.mem page := same.leAt_eq (by decide)
  refine ⟨t₁, ?_⟩
  rw [addEntryCopies, Program.done_bind increased, getPage_bind, usage, copiesEntries, absent]
  simp only [decide_eq_true_iff]
  split
  · rename_i fits
    rw [if_neg (Nat.not_lt.mpr fits)]
    rfl
  · rename_i long
    rw [if_pos (Nat.not_le.mp long), getPage_bind, data_congr same]
    rfl

/-- The calls of `get_entries_in_leaf` stay inside the page. -/
def CopiesInside (beyond : Mem) (key : List UInt8) (buffer : Option (List UInt8)) (t : Tx) : Prop :=
  ∀ copied t', writeCopies beyond key buffer t = .done (some copied) t' → ReadsInside copied

/-- The leaf in the key's bucket has one page, or nothing is copied from it and no free list takes its first page. -/
def CopiesGuarded (tree : Tree) (beyond : Mem) (key : List UInt8) (buffer : Option (List UInt8)) (t : Tx) : Prop :=
  ∀ value, buffer = some value → key.length ≠ 0 → key.length ≤ maxKeyLength → tree.regionsOf key 0 = [] ∨
    copiesEntries beyond key value t.mem (tree.bucketEntry key 0) = false ∧
      ∀ order, order ≤ (tree.regionsOf key 0).length → ¬ ListFull t.mem order

/-- What is copied, for a leaf of one page and for one with continuation regions. -/
theorem WellFormed.copies_leaf {b : Branch} {rest : List Branch}
    (wf : WellFormed (plug (b :: rest) (Tree.leaf page entries regions)) lists t)
    (found : findParent key t = .done (b.page, b.index.val, rest.length) t) (some_ : key.length ≠ 0) (short : key.length ≤ maxKeyLength)
    (open_ : regions = [] ∨ ∀ order, order ≤ regions.length → ¬ ListFull t.mem order) (buffer : List UInt8) (beyond : Mem) :
    ∃ t', writeCopies beyond key (some buffer) t =
      .done (if copiesEntries beyond key buffer t.mem page then some (data t.mem page beyond) else none) t' := by
  have hole := wf.hole (rfl : (Tree.leaf page entries regions).isNode = false)
  obtain ⟨nonzero, low, at_⟩ := hole.rep
  have valid : ¬(key.length = 0 ∨ maxKeyLength < key.length) := not_or.mpr ⟨some_, Nat.not_lt.mpr short⟩
  rw [writeCopies, Program.done_bind found]
  dsimp only
  rw [writeAtNodeCopies, if_neg valid, getPage_bind, hole.entry, Tree.entry, if_neg nonzero, clearMsb_leaf low, getPage_bind]
  cases is : findEntryInLeaf (data t.mem page beyond) key with
  | none => exact addEntryCopies_run hole wf.kvEntryCount_lt is
  | some entryOffset =>
    by_cases chained : regions = []
    · have alone : LeafNodeStartPage.next t.mem page = 0 := by
        subst chained
        exact at_.links 0 page rfl
      exact ⟨t, updateEntryCopies_single is alone⟩
    · exact updateEntryCopies_large is hole chained (open_.resolve_left chained)

theorem copies_inside_of (wf : WellFormed tree lists t) (key : List UInt8) (buffer : Option (List UInt8)) (beyond : Mem) :
    (CopiesGuarded tree beyond key buffer t → CopiesInside beyond key buffer t) ∧
      ((∀ order, order ≤ (tree.regionsOf key 0).length → ¬ ListFull t.mem order) →
        CopiesInside beyond key buffer t → CopiesGuarded tree beyond key buffer t) := by
  obtain ⟨b, rest, sub, rfl, follows, last, found⟩ := wf.rooted.findParent_run key
  have entry := (wf.hole last).entry
  rw [CopiesGuarded, regionsOf_plug follows, bucketEntry_plug follows]
  constructor
  · intro guarded copied t' run
    have begun := run
    rw [writeCopies, Program.done_bind found] at begun
    dsimp only at begun
    cases buffer with
    | none => cases begun
    | some value =>
      rw [writeAtNodeCopies] at begun
      by_cases invalid : key.length = 0 ∨ maxKeyLength < key.length
      · rw [if_pos invalid] at begun
        cases begun
      obtain ⟨some_, long⟩ := not_or.mp invalid
      rw [if_neg invalid, getPage_bind, entry] at begun
      cases sub with
      | node page children => cases last
      | empty =>
        rw [Tree.entry, if_pos rfl] at begun
        cases begun
      | leaf page entries regions =>
        rcases guarded value rfl some_ (Nat.not_lt.mp long) with single | ⟨nothing, open_⟩
        · obtain ⟨t₁, ended⟩ := wf.copies_leaf found some_ (Nat.not_lt.mp long) (Or.inl single) value beyond
          cases copies : copiesEntries beyond key value t.mem page with
          | false =>
            rw [copies] at ended
            cases ended.symm.trans run
          | true =>
            rw [copies] at ended
            cases ended.symm.trans run
            exact ((wf.hole last).rep.2.2.readsInside_iff beyond).mpr single
        · obtain ⟨t₁, ended⟩ := wf.copies_leaf found some_ (Nat.not_lt.mp long) (Or.inr open_) value beyond
          rw [show copiesEntries beyond key value t.mem page = false from nothing] at ended
          cases ended.symm.trans run
  · intro open_ inside value is some_ short
    subst is
    cases sub with
    | node page children => cases last
    | empty => exact Or.inl rfl
    | leaf page entries regions =>
      refine or_iff_not_imp_left.mpr fun chained => ⟨?_, open_⟩
      obtain ⟨t', ended⟩ := wf.copies_leaf found some_ short (Or.inr open_) value beyond
      by_contra copies
      change ¬ copiesEntries beyond key value t.mem page = false at copies
      rw [if_pos (Bool.eq_true_of_not_eq_false copies)] at ended
      exact chained (((wf.hole last).rep.2.2.readsInside_iff beyond).mp (inside _ t' ended))

theorem copies_inside_of_large : ∃ tree lists, WellFormed tree lists oneLarge ∧
    (CopiesGuarded tree (fun _ => 0) [97] (some [1, 2, 3]) oneLarge → CopiesInside (fun _ => 0) [97] (some [1, 2, 3]) oneLarge) ∧
      ((∀ order, order ≤ (tree.regionsOf [97] 0).length → ¬ ListFull oneLarge.mem order) →
        CopiesInside (fun _ => 0) [97] (some [1, 2, 3]) oneLarge → CopiesGuarded tree (fun _ => 0) [97] (some [1, 2, 3]) oneLarge) := by
  obtain ⟨tree, lists, wf, _⟩ := oneLarge_wellFormed
  exact ⟨tree, lists, wf, copies_inside_of wf [97] (some [1, 2, 3]) fun _ => 0⟩

/-- The entries of a leaf with continuation regions are copied when its key gets another large value. -/
theorem copies_behind_page : ∃ tree lists, WellFormed tree lists oneLarge ∧
    ¬ CopiesInside (fun _ => 0) [97] (some (List.replicate 4500 8)) oneLarge := by
  obtain ⟨tree, lists, wf, _⟩ := oneLarge_wellFormed
  refine ⟨tree, lists, wf, fun inside => ?_⟩
  obtain ⟨copied, t', ended, view⟩ := Outcome.Ends.of_result (o := writeCopies (fun _ => 0) [97] (some (List.replicate 4500 8)) oneLarge)
    (fun copied => copied.map fun leaf => decide (ReadsInside leaf)) (b := some false) (by decide +kernel)
  cases copied with
  | none => cases view
  | some leaf => exact of_decide_eq_false (Option.some.inj view) (inside leaf t' ended)

end DiskMap
