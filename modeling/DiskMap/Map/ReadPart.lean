import DiskMap.Map.BigValue
import DiskMap.Map.FindParent
import DiskMap.Map.UpdateValue

namespace DiskMap
open ByteMemory MachineInts DiskMap.Tree BigValue

/-- The result of `read_part`, and the ranges of bytes that it has copied. -/
structure ReadResult where
  found : Bool
  buffer : List UInt8
  ranges : List PageRange

def ReadResult.notFound : ReadResult := { found := false, buffer := [], ranges := [] }

def readPart (beyond : Mem) (key : List UInt8) (readOffset readLength : Nat) : TxProgram ReadResult := do
  let (parent, parentEntry, _) ← findParent key
  let value ← getPage fun m => InternalNodePage.entries m parent parentEntry
  if getMsb value ≠ 0 then return .notFound
  else
    let leaf := clearMsb value
    let entryOffset ← getPage fun m => findEntryInLeaf (LeafNodeStartPage.data m leaf beyond) key
    match entryOffset with
    | none => return .notFound
    | some entryOffset =>
      let offset := entryOffset + key.length + 1
      let length ← getPage fun m => leAt (LeafNodeStartPage.data m leaf beyond) offset 8
      let readLength := min readLength (sub64 length readOffset)
      let offset := offset + 8
      let next ← getPage fun m => LeafNodeStartPage.next m leaf
      if next ≠ 0 then do
        let (buffer, ranges) ← BigValue.read leaf offset readOffset readLength
        return { found := true, buffer, ranges }
      else
        let buffer ← getPage fun m => slice (LeafNodeStartPage.data m leaf beyond) (offset + readOffset) readLength
        return { found := true, buffer, ranges := [⟨leaf, LeafNodeStartPage.dataOffset + offset + readOffset, readLength⟩] }

def read (beyond : Mem) (key : List UInt8) : TxProgram ReadResult := readPart beyond key 0 (2 ^ 64 - 1)

/-- The string in which the value of a key stands, and where. -/
def Tree.valuePlace (key : List UInt8) : Nat → Tree → Option (Extents × Nat)
  | _, .empty => none
  | _, .leaf page entries regions => (offsetOf key entries).map fun offset => (leafExtents page regions, offset + key.length + 9)
  | depth, .node _ children => (children (digit key depth)).valuePlace key (depth + 1)

/-- The ranges are all within the value. -/
def InValue (tree : Tree) (key value : List UInt8) (ranges : List PageRange) : Prop :=
  ∀ range ∈ ranges, ∀ i, i < range.length → ∃ xs pos j, tree.valuePlace key 0 = some (xs, pos) ∧ j < value.length ∧
    range.page * pageSize + range.offset + i = xs.locate (pos + j)

variable {t : Tx} {key v : List UInt8} {tree : Tree} {lists : Nat → FreeList} {path : List Branch} {sub : Tree}

theorem valuePlace_plug (follows : Follows key path) : (plug path sub).valuePlace key 0 = sub.valuePlace key path.length := by
  induction path generalizing sub with
  | nil => rfl
  | cons b rest ih =>
    rw [plug, ih follows.2, Tree.valuePlace, follows.1, Function.update_self]
    rfl

theorem valueOf_eq_some {entries : List KVEntry} (found : valueOf key entries = some v) :
    ∃ front back, entries = front ++ ⟨key, v⟩ :: back ∧ offsetOf key entries = some (entriesSize front) := by
  induction entries with
  | nil => cases found
  | cons e rest ih =>
    rw [offsetOf]
    by_cases same : e.key = key
    · rw [valueOf, List.find?_cons_of_pos (by simpa using same)] at found
      cases Option.some.inj found
      rw [if_pos same, ← same]
      exact ⟨[], rest, rfl, rfl⟩
    · rw [valueOf, List.find?_cons_of_neg (by simpa using same)] at found
      obtain ⟨front, back, shape, offset⟩ := ih found
      rw [if_neg same, offset, shape]
      exact ⟨e :: front, back, rfl, congrArg some (entriesSize_cons e front).symm⟩

/-- The leaf of a stored key. -/
structure StoredIn (tree : Tree) (t : Tx) (key v : List UInt8) (b : Branch) (rest : List Branch) (page : Nat) (front back : List KVEntry)
    (regions : List Nat) : Prop where
  tree : tree = plug (b :: rest) (.leaf page (front ++ ⟨key, v⟩ :: back) regions)
  follows : Follows key (b :: rest)
  found : findParent key t = .done (b.page, b.index.val, rest.length) t
  entry : InternalNodePage.entries t.mem b.page b.index = page
  low : page < 2 ^ 63
  nonzero : page ≠ 0
  leaf : LeafAt t.mem page (front ++ ⟨key, v⟩ :: back) regions
  offset : offsetOf key (front ++ ⟨key, v⟩ :: back) = some (entriesSize front)

theorem WellFormed.storedIn (wf : WellFormed tree lists t) (stored : tree.lookup key 0 = some v) :
    ∃ b rest page front back regions, StoredIn tree t key v b rest page front back regions := by
  obtain ⟨b, rest, sub, shape, follows, last, found⟩ := wf.rooted.findParent_run key
  rw [shape, lookup_plug follows] at stored
  cases sub with
  | empty => cases stored
  | node page children => cases last
  | leaf page entries regions =>
    obtain ⟨front, back, is, offset⟩ := valueOf_eq_some stored
    obtain ⟨path, rep⟩ := rep_plug.mp (shape ▸ wf.rep)
    subst is
    exact ⟨b, rest, page, front, back, regions, shape, follows, found, path.1, rep.2.1, rep.1, rep.2.2, offset⟩

namespace StoredIn

variable {b : Branch} {rest : List Branch} {page : Nat} {front back : List KVEntry} {regions : List Nat}

/-- Where the value stands in the start page of its leaf. -/
theorem inside (s : StoredIn tree t key v b rest page front back regions) (beyond : Mem) :
    entriesSize front + key.length + 9 ≤ LeafNodeStartPage.capacity ∧ v.length < 2 ^ 64 ∧
      leAt (LeafNodeStartPage.data t.mem page beyond) (entriesSize front + key.length + 1) 8 = v.length ∧
      Holds (LeafNodeStartPage.data t.mem page beyond) (entriesSize front + key.length + 9)
        (LeafNodeStartPage.capacity - (entriesSize front + key.length + 9)) (v ++ encodeEntries back) := by
  have stored := entry_stored_at (s.leaf.data_holds beyond) s.leaf.headersInside
  rw [Nat.zero_add] at stored
  exact stored

theorem noNul (s : StoredIn tree t key v b rest page front back regions) : NulFree key :=
  s.leaf.keys.nulFree ⟨key, v⟩ (List.mem_append_right _ List.mem_cons_self)

theorem chain_nonzero (s : StoredIn tree t key v b rest page front back regions) (wf : WellFormed tree lists t) :
    ∀ q ∈ page :: regions, q ≠ 0 := by
  intro q member
  obtain ⟨i, found⟩ := List.mem_iff_getElem?.mp member
  refine (wf.rooted.bounds ?_).1
  rw [s.tree, pages_plug]
  exact Multiset.mem_add.mpr (Or.inr (regionPage_mem (k := 0) found (Nat.two_pow_pos i)))

theorem valuePlace (s : StoredIn tree t key v b rest page front back regions) :
    tree.valuePlace key 0 = some (leafExtents page regions, entriesSize front + key.length + 9) := by
  rw [s.tree, valuePlace_plug s.follows, Tree.valuePlace, s.offset]
  rfl

/-- The bytes of the value in the encoding of the leaf. -/
theorem value_getD (key : List UInt8) (front back : List KVEntry) {i : Nat} (inside : i < v.length) :
    (encodeEntries (front ++ ⟨key, v⟩ :: back)).getD (entriesSize front + key.length + 9 + i) 0 = v.getD i 0 := by
  obtain ⟨head, shape⟩ : ∃ head, encodeEntries front ++ (key ++ [0]) ++ leBytes 8 v.length = head := ⟨_, rfl⟩
  have length : head.length = entriesSize front + key.length + 9 := by
    rw [← shape]
    simp [encodeEntries_length]
    omega
  rw [encodeEntries_split, ← List.append_assoc, shape, ← length, List.getD_append_right _ _ _ _ (Nat.le_add_right _ _),
    Nat.add_sub_cancel_left, List.getD_append _ _ _ _ inside]

/-- How `read_part` goes on once it has found the entry. -/
theorem readPart_run (s : StoredIn tree t key v b rest page front back regions) (beyond : Mem) (offset length : Nat) :
    readPart beyond key offset length t =
      (if (regions[0]?).getD 0 ≠ 0 then do
        let (buffer, ranges) ← BigValue.read page (entriesSize front + key.length + 9) offset (min length (sub64 v.length offset))
        return { found := true, buffer, ranges }
      else
        return {
          found := true
          buffer := slice (LeafNodeStartPage.data t.mem page beyond) (entriesSize front + key.length + 9 + offset)
            (min length (sub64 v.length offset))
          ranges := [⟨page, LeafNodeStartPage.dataOffset + (entriesSize front + key.length + 9) + offset,
            min length (sub64 v.length offset)⟩] } : TxProgram ReadResult) t := by
  have next : LeafNodeStartPage.next t.mem page = (regions[0]?).getD 0 := s.leaf.links 0 page rfl
  rw [readPart, Program.done_bind s.found]
  dsimp only
  rw [getPage_bind, s.entry, getMsb_leaf s.low, if_neg (fun h => h rfl), clearMsb_leaf s.low,
    getPage_bind, s.leaf.findEntryInLeaf_eq s.noNul.2, s.offset]
  simp only
  rw [getPage_bind, (s.inside beyond).2.2.1, getPage_bind, next]
  split <;> rfl

theorem short (s : StoredIn tree t key v b rest page front back regions) : key.length ≤ maxKeyLength :=
  s.leaf.short ⟨key, v⟩ (List.mem_append_right _ List.mem_cons_self)

theorem room (s : StoredIn tree t key v b rest page front back regions) : startOffset (key.length + 9) .start < pageSize := by
  have short := s.short
  unfold maxKeyLength at short
  unfold startOffset LeafNodeStartPage.dataOffset pageSize
  dsimp only
  omega

theorem size (s : StoredIn tree t key v b rest page front back regions) :
    entriesSize front + (key.length + 9 + v.length) + entriesSize back ≤ chainCapacity regions.length := by
  have fits := s.leaf.fits
  rw [entriesSize_append, entriesSize_cons, KVEntry.size] at fits
  dsimp only at fits
  omega

/-- A value in continuation regions is alone in its leaf. -/
theorem alone (s : StoredIn tree t key v b rest page front back regions) (chained : regions ≠ []) :
    front = [] ∧ back = [] ∧ LeafNodeStartPage.capacity < key.length + 9 + v.length := by
  obtain ⟨one, large⟩ := s.leaf.single chained
  rw [List.length_append, List.length_cons] at one
  have none_ : front = [] := List.length_eq_zero_iff.mp (by omega)
  have none' : back = [] := List.length_eq_zero_iff.mp (by omega)
  subst none_ none'
  refine ⟨rfl, rfl, ?_⟩
  simpa [entriesSize, KVEntry.size] using large

theorem chained_iff (s : StoredIn tree t key v b rest page front back regions) :
    regions ≠ [] ↔ LeafNodeStartPage.capacity < key.length + 9 + v.length := by
  refine ⟨fun chained => (s.alone chained).2.2, ?_⟩
  rintro large rfl
  have size := s.size
  change _ ≤ LeafNodeStartPage.capacity at size
  omega

theorem regions_head (s : StoredIn tree t key v b rest page front back regions) (wf : WellFormed tree lists t) :
    (regions[0]?).getD 0 ≠ 0 ↔ regions ≠ [] := by
  cases regions with
  | nil => simp
  | cons q more => simpa using s.chain_nonzero wf q (List.mem_cons_of_mem _ List.mem_cons_self)

end StoredIn

theorem range_map_eq {f : Nat → UInt8} {offset length n : Nat} (n_eq : n = min length (v.length - offset))
    (each : ∀ i, i < n → f i = v.getD (offset + i) 0) : (List.range n).map f = (v.drop offset).take length := by
  refine List.ext_getElem (by simp [n_eq]) fun i first second => ?_
  rw [List.length_map, List.length_range] at first
  rw [List.getElem_map, List.getElem_range, each i first, List.getElem_take, List.getElem_drop, List.getD_eq_getElem]

/-- What a reader of a part of a value expects. -/
def ReadsPart (tree : Tree) (t : Tx) (key v : List UInt8) (offset length : Nat) (r : ReadResult) (t' : Tx) : Prop :=
  t' = t ∧ r.found = true ∧ r.buffer = (v.drop offset).take length ∧ InValue tree key v r.ranges

/-- Behind the region at depth 19 the bytes that follow it in the file are read. They are the right ones only where each of them is
a byte of the value, and equal to the one that is asked for. -/
def Coincides (tree : Tree) (key v : List UInt8) (offset n : Nat) : Prop :=
  ∀ xs pos, tree.valuePlace key 0 = some (xs, pos) → ∀ i, i < n → ∃ j, j < v.length ∧
    xs.locate (pos + before (key.length + 9) 19) + (offset - before (key.length + 9) 19 + i) = xs.locate (pos + j) ∧
    v.getD j 0 = v.getD (offset + i) 0

namespace StoredIn

variable {b : Branch} {rest : List Branch} {page : Nat} {front back : List KVEntry} {regions : List Nat}

theorem byte (s : StoredIn tree t key v b rest page front back regions) {j : Nat} (inside : j < v.length) :
    t.mem ((leafExtents page regions).locate (entriesSize front + key.length + 9 + j)) = v.getD j 0 := by
  have size := s.size
  rw [s.leaf.content _ (by rw [total_leafExtents]; omega), value_getD key front back inside]

/-- A part that begins behind the region at depth 19. -/
theorem read_far (s : StoredIn tree t key v b rest page [] [] regions) {offset n : Nat} (far : before (key.length + 9) 20 ≤ offset)
    (inside : offset + n ≤ v.length) (some_ : 0 < n) :
    ∃ base ranges, (leafExtents page regions).locate (key.length + 9 + before (key.length + 9) 19) = base ∧
      BigValue.read page (key.length + 9) offset n t = .done ((List.range n).map fun i =>
        t.mem (base + (offset - before (key.length + 9) 19 + i)), ranges) t ∧
      Tiles [(base, offset + n)] (offset - before (key.length + 9) 19) (offset - before (key.length + 9) 19 + n) ranges := by
  have size := s.size
  simp only [entriesSize, List.map_nil, List.sum_nil, Nat.zero_add, Nat.add_zero] at size
  have room := vo_le_capacity s.room
  have last : key.length + 9 + before (key.length + 9) 20 = chainCapacity 19 := before_chainCapacity room 19
  have deepest : chainCapacity regions.length ≤ 2 ^ 43 := (chainCapacity_mono s.leaf.few).trans (by decide)
  have header : LeafNodeContinuationPage.dataOffset = 8 := rfl
  have deep : 19 < regions.length := by
    by_contra short
    have less := chainCapacity_mono (Nat.not_lt.mp short)
    omega
  obtain ⟨r, found⟩ : ∃ r, (page :: regions)[19]? = some r := ⟨_, List.getElem?_eq_getElem (Nat.lt_succ_of_lt deep)⟩
  have located := locate_region room found le_rfl (before_lt s.room 19)
  rw [regionType_succ, startOffset_continuation, Nat.sub_self, Nat.add_zero (r * _ + _)] at located
  obtain ⟨ranges, read, tiles⟩ := BigValue.read_far s.room far (by omega) s.leaf.links found (show offset + n < 2 ^ 64 by omega)
  exact ⟨_, ranges, located, read, tiles⟩

end StoredIn

theorem BigValue.Tiles.covers {xs : Extents} {pos last : Nat} {ranges : List PageRange} (tiles : Tiles xs pos last ranges) {j : Nat}
    (lower : pos ≤ j) (upper : j < last) :
    ∃ range ∈ ranges, ∃ i, i < range.length ∧ range.page * pageSize + range.offset + i = xs.locate j := by
  induction tiles with
  | done => omega
  | @range pos last first rest located later ih =>
    by_cases here : j < pos + first.length
    · refine ⟨first, List.mem_cons_self, j - pos, by omega, ?_⟩
      rw [← located _ (by omega), Nat.add_sub_cancel' lower]
    · obtain ⟨range, member, within⟩ := ih (Nat.not_lt.mp here) upper
      exact ⟨range, List.mem_cons_of_mem _ member, within⟩

/-- A part that does not begin behind the value, and behind the region at depth 19 only by coincidence. -/
theorem WellFormed.readPart_part (wf : WellFormed tree lists t) (stored : tree.lookup key 0 = some v) (beyond : Mem) {offset length : Nat}
    (offset64 : LeafNodeStartPage.capacity < key.length + 9 + v.length → offset < 2 ^ 64)
    (either : offset ≤ v.length ∨ length = 0)
    (reach : LeafNodeStartPage.capacity < key.length + 9 + v.length → before (key.length + 9) 20 ≤ offset →
      Coincides tree key v offset (min length (v.length - offset))) :
    (readPart beyond key offset length t).Ends (ReadsPart tree t key v offset length) := by
  obtain ⟨b, rest, page, front, back, regions, s⟩ := wf.storedIn stored
  obtain ⟨_, small, _, holds⟩ := s.inside beyond
  have size := s.size
  obtain ⟨n, count⟩ : ∃ n, min length (sub64 v.length offset) = n := ⟨_, rfl⟩
  have exactCount : offset ≤ v.length → n = min length (v.length - offset) := fun le => by rw [← count, sub64_eq le small]
  have nothing : length = 0 → n = 0 := by
    rintro rfl
    rw [← count, Nat.zero_min]
  rw [s.readPart_run beyond, count]
  by_cases chained : regions ≠ []
  · obtain ⟨rfl, rfl, large⟩ := s.alone chained
    rw [if_pos ((s.regions_head wf).mpr chained)]
    have place := s.valuePlace
    have byte := fun j (inside : j < v.length) => s.byte inside
    simp only [entriesSize, List.map_nil, List.sum_nil, Nat.zero_add, Nat.add_zero] at size place byte ⊢
    rcases Nat.eq_zero_or_pos n with none_ | some_
    · rw [none_, Program.done_bind (read_nothing s.room (offset64 large))]
      refine .intro rfl ⟨rfl, rfl, ?_, fun range member => by cases member⟩
      rcases either with le | rfl
      · exact range_map_eq (f := fun _ => 0) (none_.symm.trans (exactCount le)) fun i impossible => absurd impossible (Nat.not_lt_zero i)
      · rfl
    · have le : offset ≤ v.length := either.resolve_right fun zero => Nat.ne_of_gt some_ (nothing zero)
      have exactly := exactCount le
      rcases Nat.lt_or_ge offset (before (key.length + 9) 20) with near | far
      · have reachable := before_chainCapacity (vo_le_capacity s.room) 30
        have deepest := chainCapacity_mono s.leaf.few
        have inChain : key.length + 9 + offset + n ≤ chainCapacity regions.length := by omega
        obtain ⟨ranges, read, tiles, _⟩ := read_run s.room (s.chain_nonzero wf) (show offset + n ≤ before (key.length + 9) (30 + 1) by omega)
          s.leaf.links s.leaf.content near inChain (by omega)
        rw [Program.done_bind read]
        refine .intro rfl ⟨rfl, rfl, range_map_eq exactly fun i inside => ?_, fun range member i inside => ?_⟩
        · have stored := StoredIn.value_getD key [] [] (show offset + i < v.length by omega)
          simp only [entriesSize, List.map_nil, List.sum_nil, Nat.zero_add, ← Nat.add_assoc] at stored
          exact stored
        · obtain ⟨j, lower, upper, same⟩ := tiles.located member inside
          refine ⟨_, _, j - (key.length + 9), place, by omega, ?_⟩
          rw [same, Nat.add_sub_cancel' (by omega)]
      · obtain ⟨base, ranges, is, read, tiles⟩ := s.read_far far (show offset + n ≤ v.length by omega) some_
        have coincides := reach large far _ _ place
        rw [← exactly, is] at coincides
        rw [Program.done_bind read]
        refine .intro rfl ⟨rfl, rfl, range_map_eq exactly fun i inside => ?_, fun range member i inside => ?_⟩
        · obtain ⟨j, within, same, equal⟩ := coincides i inside
          rw [same, byte j within, equal]
        · obtain ⟨k, lower, upper, same⟩ := tiles.located member inside
          obtain ⟨j, within, there, _⟩ := coincides (k - (offset - before (key.length + 9) 19)) (by omega)
          rw [Nat.add_sub_cancel' lower] at there
          refine ⟨_, _, j, place, within, ?_⟩
          rw [same, Extents.locate_first (by omega), there]
  · rw [ne_eq, not_not] at chained
    subst chained
    change _ ≤ LeafNodeStartPage.capacity at size
    rw [if_neg (fun h => h rfl)]
    refine .intro rfl ⟨rfl, rfl, ?_, fun range member i inside => ?_⟩
    · rcases either with le | rfl
      · refine range_map_eq (exactCount le) fun i inside => ?_
        have exactly := exactCount le
        rw [Nat.add_assoc, holds _ (by omega), List.getD_append _ _ _ _ (by omega)]
      · rw [nothing rfl]
        rfl
    · cases List.mem_singleton.mp member
      dsimp only at inside ⊢
      have le : offset ≤ v.length := either.resolve_right fun zero => by
        rw [nothing zero] at inside
        exact Nat.not_lt_zero i inside
      have exactly := exactCount le
      refine ⟨_, _, offset + i, s.valuePlace, by omega, ?_⟩
      rw [leafExtents, Extents.locate_first (by omega)]
      omega

theorem WellFormed.readPart_near (wf : WellFormed tree lists t) (stored : tree.lookup key 0 = some v) (beyond : Mem) {offset length : Nat}
    (either : offset ≤ v.length ∨ length = 0)
    (near : LeafNodeStartPage.capacity < key.length + 9 + v.length → offset < before (key.length + 9) 20) :
    (readPart beyond key offset length t).Ends (ReadsPart tree t key v offset length) := by
  obtain ⟨_, _, _, _, _, _, s⟩ := wf.storedIn stored
  have last : key.length + 9 + before (key.length + 9) 20 = chainCapacity 19 := before_chainCapacity (vo_le_capacity s.room) 19
  have small : chainCapacity 19 < 2 ^ 64 := by decide
  refine wf.readPart_part stored beyond (fun large => ?_) either fun large far => absurd far (Nat.not_le.mpr (near large))
  have inside := near large
  omega

theorem WellFormed.read_stored (wf : WellFormed tree lists t) (stored : tree.lookup key 0 = some v) (beyond : Mem) :
    (read beyond key t).Ends fun r t' => t' = t ∧ r.found = true ∧ r.buffer = v := by
  obtain ⟨_, _, _, _, _, _, s⟩ := wf.storedIn stored
  have small := (s.inside beyond).2.1
  refine (wf.readPart_near stored beyond (Or.inl (Nat.zero_le _)) fun _ => before_twenty_pos s.room).mono
    fun r t' ⟨same, found, bytes, _⟩ => ⟨same, found, ?_⟩
  rw [bytes, List.drop_zero, List.take_of_length_le (by omega)]

/-- The condition is necessary: behind the value the length wraps around, and behind the region at depth 19 other pages are read. -/
theorem WellFormed.readPart_only (wf : WellFormed tree lists t) (stored : tree.lookup key 0 = some v) (beyond : Mem) {offset length : Nat}
    (offset64 : offset < 2 ^ 64) :
    (readPart beyond key offset length t).Ends (ReadsPart tree t key v offset length) →
      (offset ≤ v.length ∨ length = 0) ∧
        (LeafNodeStartPage.capacity < key.length + 9 + v.length → before (key.length + 9) 20 ≤ offset →
          Coincides tree key v offset (min length (v.length - offset))) := by
  obtain ⟨b, rest, page, front, back, regions, s⟩ := wf.storedIn stored
  have small := (s.inside beyond).2.1
  obtain ⟨n, count⟩ : ∃ n, min length (sub64 v.length offset) = n := ⟨_, rfl⟩
  have exactCount : offset ≤ v.length → n = min length (v.length - offset) := fun le => by rw [← count, sub64_eq le small]
  have tooMuch : ¬ (offset ≤ v.length ∨ length = 0) → 0 < n ∧ (v.drop offset).take length = [] := by
    intro neither
    obtain ⟨beyond, positive⟩ := not_or.mp neither
    refine ⟨?_, by rw [List.drop_eq_nil_of_le (by omega), List.take_nil]⟩
    rw [← count]
    exact lt_min (Nat.pos_of_ne_zero positive) (sub64_of_lt (Nat.not_le.mp beyond) offset64)
  have size := s.size
  rw [s.readPart_run beyond, count]
  by_cases chained : regions ≠ []
  · obtain ⟨rfl, rfl, large⟩ := s.alone chained
    rw [if_pos ((s.regions_head wf).mpr chained)]
    have place := s.valuePlace
    have byte := fun j (inside : j < v.length) => s.byte inside
    simp only [entriesSize, List.map_nil, List.sum_nil, Nat.zero_add] at place byte ⊢
    rintro ⟨r, t', ended, rfl, _, bytes, inValue⟩
    refine ⟨by_contra fun neither => ?_, fun _ far xs pos is i inside => ?_⟩
    · obtain ⟨positive, empty⟩ := tooMuch neither
      rw [empty] at bytes
      cases read : BigValue.read page (key.length + 9) offset n t' with
      | done result t₁ =>
        obtain ⟨buffer, ranges⟩ := result
        rw [Program.done_bind read] at ended
        cases ended
        have long := read_length read
        rw [show buffer = [] from bytes, List.length_nil] at long
        omega
      | threw message t₁ =>
        rw [Program.threw_bind read] at ended
        cases ended
      | stuck =>
        rw [Program.stuck_bind read] at ended
        cases ended
    · have exactly := exactCount (by omega)
      cases Option.some.inj (place.symm.trans is)
      obtain ⟨base, ranges, base_eq, read, tiles⟩ := s.read_far far (show offset + n ≤ v.length by omega) (by omega)
      rw [Program.done_bind read] at ended
      cases ended
      dsimp only at bytes inValue
      obtain ⟨range, member, k, within, there⟩ := tiles.covers (j := offset - before (key.length + 9) 19 + i) (by omega) (by omega)
      obtain ⟨xs, pos, j, is', below, address⟩ := inValue range member k within
      cases Option.some.inj (place.symm.trans is')
      rw [there, Extents.locate_first (by omega)] at address
      have read_i := congrArg (fun bytes => bytes.getD i 0) bytes
      simp only [List.getD_eq_getElem?_getD, List.getElem?_map, List.getElem?_range (show i < n by omega), Option.map_some,
        Option.getD_some, List.getElem?_take_of_lt (show i < length by omega), List.getElem?_drop] at read_i
      refine ⟨j, below, by rw [base_eq]; exact address, ?_⟩
      rw [← byte j below, ← address, read_i, List.getD_eq_getElem?_getD]
  · rw [ne_eq, not_not] at chained
    subst chained
    change _ ≤ LeafNodeStartPage.capacity at size
    rw [if_neg (fun h => h rfl)]
    rintro ⟨r, t', ended, _, _, bytes, _⟩
    cases ended
    refine ⟨by_contra fun neither => ?_, fun large => by omega⟩
    obtain ⟨positive, empty⟩ := tooMuch neither
    have long := congrArg List.length (bytes.trans empty)
    rw [slice_length, List.length_nil] at long
    omega

end DiskMap
