import DiskMap.Library.MachineInts
import DiskMap.Map.LeafChain

namespace DiskMap
open ByteMemory MachineInts Extents

namespace BigValue

inductive LeafPageType
  | start
  | continuation
  | pure
  deriving DecidableEq

def startOffset (valueOffsetInStartPage : Nat) : LeafPageType → Nat
  | .start => LeafNodeStartPage.dataOffset + valueOffsetInStartPage
  | .continuation => LeafNodeContinuationPage.dataOffset
  | .pure => 0

/-- The variables of the loops of `rw_impl`. -/
structure Cursor where
  depth : Nat
  regionStartPage : Nat
  regionOffset : Nat
  pageOffset : Nat
  valueOffset : Nat
  pageType : LeafPageType

def Cursor.begin (startPage : Nat) : Cursor :=
  { depth := 0, regionStartPage := startPage, regionOffset := 0, pageOffset := 0, valueOffset := 0, pageType := .start }

/-- Bytes of one page. -/
structure PageRange where
  page : Nat
  offset : Nat
  length : Nat
  deriving DecidableEq

/-- The type of the first page of a region. -/
def regionType (depth : Nat) : LeafPageType := if depth = 0 then .start else .continuation

/-- The `region_skip` that `rw_impl` computes. `PAGE_SIZE << depth` is an `int`. -/
def regionSkip (valueOffsetInStartPage depth : Nat) : Option Nat := do
  let shifted ← intShl pageSize depth
  return sub64 (toSize shifted) (startOffset valueOffsetInStartPage (regionType depth))

/-- The loop that skips regions, pages and bytes. -/
def skip (valueOffsetInStartPage offset : Nat) : Nat → Cursor → TxProgram Cursor
  | 0, _ => .stuck
  | fuel + 1, c =>
    if c.valueOffset < offset then
      match regionSkip valueOffsetInStartPage c.depth with
      | none => .stuck
      | some regionSkip =>
        let distance := offset - c.valueOffset
        let pageSkip := pageSize - startOffset valueOffsetInStartPage c.pageType
        if regionSkip ≤ distance then do
          let next ← getPage fun m => LeafNodeContinuationPage.next m c.regionStartPage
          skip valueOffsetInStartPage offset fuel { c with
            valueOffset := c.valueOffset + regionSkip, depth := c.depth + 1, regionStartPage := next, pageType := .continuation }
        else if pageSkip ≤ distance then
          skip valueOffsetInStartPage offset fuel { c with
            valueOffset := c.valueOffset + pageSkip, regionOffset := c.regionOffset + 1, pageType := .pure }
        else
          skip valueOffsetInStartPage offset fuel { c with
            pageOffset := c.pageOffset + distance, valueOffset := c.valueOffset + distance }
    else return c

/-- On to the next page, which may be in the next region. -/
def nextPage (c : Cursor) : TxProgram Cursor :=
  let c := { c with regionOffset := c.regionOffset + 1, pageType := .pure, pageOffset := 0 }
  if 31 ≤ c.depth then .stuck
  else if c.regionOffset = 2 ^ c.depth then do
    let next ← getPage fun m => LeafNodeContinuationPage.next m c.regionStartPage
    if next = 0 then .throw "Invalid next pointer in big value"
    else return { c with depth := c.depth + 1, regionStartPage := next, pageType := .continuation, regionOffset := 0 }
  else return c

/-- The loop that reads or writes, page by page. It returns the ranges it has accessed. -/
def transfer (valueOffsetInStartPage offset endOffset : Nat) (access : PageRange → Nat → TxProgram Unit) :
    Nat → Cursor → TxProgram (List PageRange)
  | 0, _ => .stuck
  | fuel + 1, c =>
    if c.valueOffset < endOffset then do
      let distance := endOffset - c.valueOffset
      let pageSkip := pageSize - startOffset valueOffsetInStartPage c.pageType - c.pageOffset
      let range : PageRange :=
        { page := c.regionStartPage + c.regionOffset
          offset := startOffset valueOffsetInStartPage c.pageType + c.pageOffset
          length := min distance pageSkip }
      access range (c.valueOffset - offset)
      let c := { c with valueOffset := c.valueOffset + range.length }
      let c ← if pageSkip < distance then nextPage c else pure c
      let rest ← transfer valueOffsetInStartPage offset endOffset access fuel c
      return range :: rest
    else return []

/-- A key that reaches behind the start page would make the sizes wrap around. -/
def rwImpl (startPage valueOffsetInStartPage offset length : Nat) (access : PageRange → Nat → TxProgram Unit) :
    TxProgram (List PageRange) :=
  if pageSize < startOffset valueOffsetInStartPage .start then .stuck
  else do
    let c ← skip valueOffsetInStartPage offset (offset + 1) (.begin startPage)
    transfer valueOffsetInStartPage offset ((offset + length) % 2 ^ 64) access (length + 1) c

/-- The buffer, which is zero at first, and the ranges that have been read. -/
def read (startPage valueOffsetInStartPage offset length : Nat) : TxProgram (List UInt8 × List PageRange) := do
  let ranges ← rwImpl startPage valueOffsetInStartPage offset length fun _ _ => pure ()
  let bytes ← getPage fun m => ranges.flatMap fun range => slice m (range.page * pageSize + range.offset) range.length
  return (bytes ++ List.replicate (length - bytes.length) 0, ranges)

/-- How many bytes of the value stand in front of a region. -/
def before (valueOffsetInStartPage : Nat) : Nat → Nat
  | 0 => 0
  | depth + 1 => before valueOffsetInStartPage depth + (pageSize * 2 ^ depth - startOffset valueOffsetInStartPage (regionType depth))

/-- How far the cursor is from the start of its region. -/
structure Cursor.Placed (valueOffsetInStartPage : Nat) (c : Cursor) : Prop where
  place : c.valueOffset + startOffset valueOffsetInStartPage (regionType c.depth) =
    before valueOffsetInStartPage c.depth + pageSize * c.regionOffset + startOffset valueOffsetInStartPage c.pageType + c.pageOffset
  inPage : startOffset valueOffsetInStartPage c.pageType + c.pageOffset < pageSize
  pageType : c.pageType = if c.regionOffset = 0 then regionType c.depth else .pure

/-- The cursor stands on a byte of the value, if there are enough regions. -/
structure Cursor.Valid (valueOffsetInStartPage : Nat) (c : Cursor) : Prop extends c.Placed valueOffsetInStartPage where
  inRegion : c.regionOffset < 2 ^ c.depth

variable {vo offset : Nat} {c : Cursor} {t : Tx} {chain : List Nat}

theorem regionType_succ (d : Nat) : regionType (d + 1) = .continuation := if_neg (Nat.succ_ne_zero d)

theorem startOffset_pure : startOffset vo .pure = 0 := rfl

theorem startOffset_continuation : startOffset vo .continuation = LeafNodeContinuationPage.dataOffset := rfl

theorem startOffset_lt (room : startOffset vo .start < pageSize) (type : LeafPageType) : startOffset vo type < pageSize := by
  cases type with
  | start => exact room
  | continuation => exact (by decide : LeafNodeContinuationPage.dataOffset < pageSize)
  | pure => exact (by decide : 0 < pageSize)

theorem vo_le_capacity (room : startOffset vo .start < pageSize) : vo ≤ LeafNodeStartPage.capacity := by
  have start : LeafNodeStartPage.dataOffset + vo < pageSize := room
  unfold LeafNodeStartPage.capacity
  omega

theorem before_succ (room : startOffset vo .start < pageSize) (d : Nat) :
    before vo (d + 1) + startOffset vo (regionType d) = before vo d + pageSize * 2 ^ d := by
  have small := startOffset_lt room (regionType d)
  have size := Nat.mul_le_mul_left pageSize (Nat.two_pow_pos d)
  rw [before]
  omega

theorem before_lt (room : startOffset vo .start < pageSize) (d : Nat) : before vo d < before vo (d + 1) := by
  have next := before_succ room d
  have small := startOffset_lt room (regionType d)
  have size := Nat.mul_le_mul_left pageSize (Nat.two_pow_pos d)
  omega

theorem before_strictMono (room : startOffset vo .start < pageSize) : StrictMono (before vo) :=
  strictMono_nat_of_lt_succ (before_lt room)

theorem before_chainCapacity (room : vo ≤ LeafNodeStartPage.capacity) (d : Nat) : vo + before vo (d + 1) = chainCapacity d := by
  induction d with
  | zero =>
    rw [before, before, chainCapacity, regionType, if_pos rfl, startOffset]
    unfold LeafNodeStartPage.capacity at room ⊢
    omega
  | succ d ih =>
    rw [before, ← Nat.add_assoc, ih, chainCapacity, regionType_succ]
    rfl

/-- Up to depth 18 the bytes of a region fit in an `int`. -/
theorem regionSkip_exact {depth : Nat} (room : startOffset vo .start < pageSize) (within : depth ≤ 18) :
    regionSkip vo depth = some (pageSize * 2 ^ depth - startOffset vo (regionType depth)) := by
  have small : 2 ^ depth ≤ 2 ^ 18 := Nat.pow_le_pow_right (by decide) within
  have bytes : pageSize * 2 ^ depth ≤ 2 ^ 30 := Nat.mul_le_mul_left pageSize small
  have header := startOffset_lt room (regionType depth)
  have page : pageSize ≤ pageSize * 2 ^ depth := Nat.le_mul_of_pos_right _ (Nat.two_pow_pos depth)
  simp only [regionSkip, intShl_exact (show pageSize * 2 ^ depth < 2 ^ 31 by omega) (show depth < 32 by omega),
    toSize_exact (show pageSize * 2 ^ depth < 2 ^ 64 by omega), Option.bind_eq_bind, Option.bind_some, Option.pure_def]
  rw [sub64_eq (by omega) (by omega)]

/-- At depth 19 the sign bit is set. -/
theorem regionSkip_negative : regionSkip vo 19 = some (2 ^ 64 - 2 ^ 31 - LeafNodeContinuationPage.dataOffset) := by
  have shifted : intShl pageSize 19 = some (-2 ^ 31) := by decide +kernel
  have header : startOffset vo (regionType 19) = LeafNodeContinuationPage.dataOffset := by rw [regionType_succ, startOffset_continuation]
  have size : sub64 (toSize (-2 ^ 31)) LeafNodeContinuationPage.dataOffset =
      2 ^ 64 - 2 ^ 31 - LeafNodeContinuationPage.dataOffset := by decide +kernel
  simp only [regionSkip, shifted, header, Option.bind_eq_bind, Option.bind_some, Option.pure_def, size]

/-- At depth 20 no bit is left. -/
theorem regionSkip_zero : regionSkip vo 20 = some (2 ^ 64 - LeafNodeContinuationPage.dataOffset) := by
  have shifted : intShl pageSize 20 = some 0 := by decide +kernel
  have header : startOffset vo (regionType 20) = LeafNodeContinuationPage.dataOffset := by rw [regionType_succ, startOffset_continuation]
  have size : sub64 (toSize 0) LeafNodeContinuationPage.dataOffset = 2 ^ 64 - LeafNodeContinuationPage.dataOffset := by decide +kernel
  simp only [regionSkip, shifted, header, Option.bind_eq_bind, Option.bind_some, Option.pure_def, size]

/-- The cursor is behind the regions it has passed. -/
theorem Cursor.Placed.lower (room : startOffset vo .start < pageSize) (placed : c.Placed vo) : before vo c.depth ≤ c.valueOffset := by
  have place := placed.place
  have type := placed.pageType
  by_cases first : c.regionOffset = 0
  · rw [if_pos first] at type
    rw [type] at place
    omega
  · have small := startOffset_lt room (regionType c.depth)
    have page := Nat.mul_le_mul_left pageSize (Nat.pos_of_ne_zero first)
    omega

/-- It is not behind the one it is in either. -/
theorem Cursor.Valid.bounds (room : startOffset vo .start < pageSize) (valid : c.Valid vo) :
    before vo c.depth ≤ c.valueOffset ∧ c.valueOffset < before vo (c.depth + 1) := by
  have place := valid.place
  have inPage := valid.inPage
  have next := before_succ room c.depth
  have whole := Nat.mul_le_mul_left pageSize (Nat.succ_le_of_lt valid.inRegion)
  rw [Nat.mul_succ] at whole
  exact ⟨valid.lower room, by omega⟩

theorem Cursor.Placed.valid (room : startOffset vo .start < pageSize) (placed : c.Placed vo)
    (upper : c.valueOffset < before vo (c.depth + 1)) : c.Valid vo := by
  refine ⟨placed, ?_⟩
  have place := placed.place
  have next := before_succ room c.depth
  by_contra past
  have pages := Nat.mul_le_mul_left pageSize (Nat.not_lt.mp past)
  omega

/-- Behind the end of its region the cursor has passed whole pages. -/
theorem Cursor.Placed.regionOffset_le (room : startOffset vo .start < pageSize) (placed : c.Placed vo)
    (past : before vo (c.depth + 1) ≤ c.valueOffset) : 2 ^ c.depth ≤ c.regionOffset := by
  have place := placed.place
  have inPage := placed.inPage
  have next := before_succ room c.depth
  by_contra inside
  have pages := Nat.mul_le_mul_left pageSize (Nat.succ_le_of_lt (Nat.not_le.mp inside))
  rw [Nat.mul_succ] at pages
  omega

/-- The region that the cursor is in, if there is one. -/
def Cursor.InChain (chain : List Nat) (c : Cursor) : Prop := c.depth < chain.length → chain[c.depth]? = some c.regionStartPage

theorem begin_placed (room : startOffset vo .start < pageSize) (startPage : Nat) : (Cursor.begin startPage).Placed vo where
  place := by simp [Cursor.begin, before, regionType]
  inPage := room
  pageType := rfl

/-- At depth 19 the loop goes on page by page, also behind the end of the region. -/
theorem skip_walk (room : startOffset vo .start < pageSize)
    (near : offset < before vo 19 + (2 ^ 64 - 2 ^ 31 - LeafNodeContinuationPage.dataOffset)) (chained : Chained t.mem chain)
    (fuel : Nat) (placed : c.Placed vo) (inChain : c.InChain chain) (exact_ : c.valueOffset = offset ∨ c.pageOffset = 0)
    (shallow : c.depth ≤ 19) (upper : c.depth = 19 ∨ c.valueOffset < before vo (c.depth + 1))
    (here : c.regionOffset ≠ 0 → c.depth = 19 ∨ offset < before vo (c.depth + 1)) (le : c.valueOffset ≤ offset)
    (enough : offset < c.valueOffset + fuel) :
    ∃ c', skip vo offset fuel c t = .done c' t ∧ c'.Placed vo ∧ c'.InChain chain ∧ c'.valueOffset = offset ∧ c'.depth ≤ 19 ∧
      (c'.depth = 19 ∨ offset < before vo (c'.depth + 1)) := by
  induction fuel generalizing c with
  | zero => omega
  | succ fuel ih =>
    rw [skip]
    by_cases arrived : c.valueOffset < offset
    swap
    · rw [if_neg arrived]
      have there := Nat.le_antisymm le (Nat.not_lt.mp arrived)
      exact ⟨c, rfl, placed, inChain, there, shallow, there ▸ upper⟩
    have lower := placed.lower room
    have place := placed.place
    have type := placed.pageType
    have start : c.pageOffset = 0 := exact_.resolve_left (Nat.ne_of_lt arrived)
    have next := before_succ room c.depth
    have small := startOffset_lt room (regionType c.depth)
    have smallType := startOffset_lt room c.pageType
    have region := Nat.mul_le_mul_left pageSize (Nat.two_pow_pos c.depth)
    obtain ⟨n, skips, bytes⟩ : ∃ n, regionSkip vo c.depth = some n ∧
        (c.depth = 19 ∧ offset - c.valueOffset < n ∨
          c.depth < 19 ∧ n = pageSize * 2 ^ c.depth - startOffset vo (regionType c.depth)) := by
      rcases Nat.lt_or_eq_of_le shallow with above | deepest
      · exact ⟨_, regionSkip_exact room (Nat.le_of_lt_succ above), Or.inr ⟨above, rfl⟩⟩
      · rw [deepest] at lower
        exact ⟨_, deepest ▸ regionSkip_negative, Or.inl ⟨deepest, by omega⟩⟩
    rw [if_pos arrived, skips]
    dsimp only
    by_cases skipped : n ≤ offset - c.valueOffset
    · obtain ⟨above, rfl⟩ := bytes.resolve_left fun deepest => absurd skipped (Nat.not_le.mpr deepest.2)
      have first : c.regionOffset = 0 := by
        by_contra later
        have := (here later).resolve_left (Nat.ne_of_lt above)
        omega
      rw [if_pos first] at type
      rw [type, first, start] at place
      have further := before_lt room (c.depth + 1)
      rw [if_pos skipped, getPage_bind]
      refine ih ⟨?_, ?_, ?_⟩ (fun deeper => ?_) (Or.inr start) above (Or.inr ?_) ?_ ?_ ?_
      · dsimp only
        rw [regionType_succ, first, start]
        omega
      · dsimp only
        rw [start]
        exact startOffset_lt room _
      · simp [first, regionType]
      · have linked := chained c.depth c.regionStartPage (inChain (Nat.lt_of_succ_lt deeper))
        rw [linked, List.getElem?_eq_getElem deeper, Option.getD_some]
      · dsimp only
        omega
      · intro later
        exact absurd first later
      · dsimp only
        omega
      · dsimp only
        omega
    · rw [if_neg skipped]
      have within : c.depth = 19 ∨ offset < before vo (c.depth + 1) := by
        rcases bytes with ⟨deepest, _⟩ | ⟨_, rfl⟩
        · exact Or.inl deepest
        · by_cases first : c.regionOffset = 0
          · rw [if_pos first] at type
            rw [type, first, start] at place
            exact Or.inr (by omega)
          · exact here first
      have stays : ∀ n, n ≤ offset - c.valueOffset → c.depth = 19 ∨ c.valueOffset + n < before vo (c.depth + 1) :=
        fun n inside => within.imp_right fun below => by omega
      by_cases paged : pageSize - startOffset vo c.pageType ≤ offset - c.valueOffset
      · rw [if_pos paged]
        refine ih ⟨?_, ?_, ?_⟩ inChain (Or.inr start) shallow (stays _ paged) (fun _ => within) ?_ ?_
        · dsimp only
          rw [startOffset_pure, Nat.mul_succ]
          omega
        · dsimp only
          rw [start]
          exact startOffset_lt room _
        · exact (if_neg (Nat.succ_ne_zero _)).symm
        · dsimp only
          omega
        · dsimp only
          omega
      · rw [if_neg paged]
        refine ih ⟨?_, ?_, placed.pageType⟩ inChain (Or.inl ?_) shallow (stays _ le_rfl) (fun _ => within) ?_ ?_ <;> dsimp only <;> omega

theorem begin_walk (room : startOffset vo .start < pageSize) {page : Nat} {regions : List Nat}
    (near : offset < before vo 19 + (2 ^ 64 - 2 ^ 31 - LeafNodeContinuationPage.dataOffset)) (chained : Chained t.mem (page :: regions)) :
    ∃ c, skip vo offset (offset + 1) (.begin page) t = .done c t ∧ c.Placed vo ∧ c.InChain (page :: regions) ∧
      c.valueOffset = offset ∧ c.depth ≤ 19 ∧ (c.depth = 19 ∨ offset < before vo (c.depth + 1)) :=
  skip_walk room near chained (offset + 1) (begin_placed room page) (fun _ => rfl) (Or.inr rfl) (Nat.zero_le _)
    (Or.inr ((Nat.zero_le _).trans_lt (before_lt room 0))) (fun later => absurd rfl later) (Nat.zero_le _)
    (by rw [Cursor.begin]; dsimp only; omega)

theorem before_twenty_pos (room : startOffset vo .start < pageSize) : 0 < before vo 20 :=
  (before_strictMono room) (show 0 < 20 by decide)

theorem before_twenty_lt (room : startOffset vo .start < pageSize) :
    before vo 20 < before vo 19 + (2 ^ 64 - 2 ^ 31 - LeafNodeContinuationPage.dataOffset) := by
  have last : before vo 20 + LeafNodeContinuationPage.dataOffset = before vo 19 + 2 ^ 31 := before_succ room 19
  have header : LeafNodeContinuationPage.dataOffset = 8 := rfl
  omega

/-- Up to the twentieth region every byte is reached. -/
theorem skip_run (room : startOffset vo .start < pageSize) {page : Nat} {regions : List Nat} (reachable : offset < before vo 20)
    (chained : Chained t.mem (page :: regions)) :
    ∃ c, skip vo offset (offset + 1) (.begin page) t = .done c t ∧ c.Valid vo ∧ c.InChain (page :: regions) ∧ c.valueOffset = offset := by
  obtain ⟨c, ended, placed, inChain, there, _, inside⟩ := begin_walk room (reachable.trans (before_twenty_lt room)) chained
  refine ⟨c, ended, placed.valid room ?_, inChain, there⟩
  rw [there]
  rcases inside with deepest | within
  · rw [deepest]
    exact reachable
  · exact within

/-- Behind the region at depth 19 the cursor does not get to the next one. -/
theorem skip_far (room : startOffset vo .start < pageSize) {page : Nat} {regions : List Nat} (far : before vo 20 ≤ offset)
    (near : offset < before vo 19 + (2 ^ 64 - 2 ^ 31 - LeafNodeContinuationPage.dataOffset)) (chained : Chained t.mem (page :: regions)) :
    ∃ c, skip vo offset (offset + 1) (.begin page) t = .done c t ∧ c.Placed vo ∧ c.InChain (page :: regions) ∧
      c.valueOffset = offset ∧ c.depth = 19 ∧ 2 ^ 19 ≤ c.regionOffset := by
  obtain ⟨c, ended, placed, inChain, there, shallow, inside⟩ := begin_walk room near chained
  have deepest : c.depth = 19 := by
    refine inside.resolve_right fun within => ?_
    have reached : before vo (c.depth + 1) ≤ before vo 20 := (before_strictMono room).monotone (Nat.succ_le_succ shallow)
    omega
  have pages := placed.regionOffset_le room (by rw [deepest, there]; exact far)
  exact ⟨c, ended, placed, inChain, there, deepest, deepest ▸ pages⟩

/-- The loop ends for every offset: at depth 20 no region is skipped any more. -/
theorem skip_ends (room : startOffset vo .start < pageSize) (offset64 : offset < 2 ^ 64) (fuel : Nat) (shallow : c.depth ≤ 20)
    (deep : c.depth = 20 → LeafNodeContinuationPage.dataOffset ≤ c.valueOffset) (le : c.valueOffset ≤ offset)
    (enough : offset < c.valueOffset + fuel) : ∃ c', skip vo offset fuel c t = .done c' t ∧ c'.valueOffset = offset := by
  induction fuel generalizing c with
  | zero => omega
  | succ fuel ih =>
    rw [skip]
    by_cases arrived : c.valueOffset < offset
    swap
    · rw [if_neg arrived]
      exact ⟨c, rfl, Nat.le_antisymm le (Nat.not_lt.mp arrived)⟩
    have smallType := startOffset_lt room c.pageType
    have header : LeafNodeContinuationPage.dataOffset = 8 := rfl
    obtain ⟨n, skips, positive, bytes⟩ : ∃ n, regionSkip vo c.depth = some n ∧ 0 < n ∧
        (n ≤ offset - c.valueOffset → c.depth < 20 ∧ (c.depth = 19 → LeafNodeContinuationPage.dataOffset ≤ n)) := by
      rcases Nat.lt_or_ge c.depth 19 with above | below
      · have small := startOffset_lt room (regionType c.depth)
        have region := Nat.mul_le_mul_left pageSize (Nat.two_pow_pos c.depth)
        exact ⟨_, regionSkip_exact room (Nat.le_of_lt_succ above), by omega, fun _ => by omega⟩
      · rcases Nat.lt_or_eq_of_le shallow with above | deepest
        · obtain same : c.depth = 19 := by omega
          exact ⟨_, same ▸ regionSkip_negative, by omega, fun _ => by omega⟩
        · have passed := deep deepest
          exact ⟨_, deepest ▸ regionSkip_zero, by omega, fun _ => by omega⟩
    rw [if_pos arrived, skips]
    dsimp only
    by_cases skipped : n ≤ offset - c.valueOffset
    · obtain ⟨above, header⟩ := bytes skipped
      rw [if_pos skipped, getPage_bind]
      refine ih ?_ (fun last => ?_) ?_ ?_ <;> dsimp only at * <;> omega
    · rw [if_neg skipped]
      by_cases paged : pageSize - startOffset vo c.pageType ≤ offset - c.valueOffset
      · rw [if_pos paged]
        refine ih shallow (fun last => ?_) ?_ ?_ <;> dsimp only at * <;> omega
      · rw [if_neg paged]
        refine ih shallow (fun last => ?_) ?_ ?_ <;> dsimp only at * <;> omega

theorem locate_regionExtents {regions : List Nat} {n i r x : Nat} (found : regions[i]? = some r)
    (lower : chainCapacity (n + i) ≤ x) (upper : x < chainCapacity (n + i + 1)) :
    Extents.locate ((regions.zipIdx (n + 1)).map regionExtent) (x - chainCapacity n) =
      r * pageSize + LeafNodeContinuationPage.dataOffset + (x - chainCapacity (n + i)) := by
  induction regions generalizing n i with
  | nil => cases found
  | cons q rest ih =>
    rw [List.zipIdx_cons, List.map_cons]
    have mono := chainCapacity_mono (Nat.le_add_right n i)
    cases i with
    | zero =>
      cases Option.some.inj found
      rw [Nat.add_zero] at lower upper ⊢
      rw [chainCapacity] at upper
      exact locate_first (by dsimp only; omega)
    | succ i =>
      have shift : n + (i + 1) = n + 1 + i := by omega
      rw [shift] at lower upper ⊢
      have mono' := chainCapacity_mono (Nat.le_add_right (n + 1) i)
      have size : chainCapacity (n + 1) = chainCapacity n + (pageSize * 2 ^ (n + 1) - LeafNodeContinuationPage.dataOffset) := rfl
      have later := ih (n := n + 1) (by simpa using found) lower upper
      have skipped : x - chainCapacity n - (regionExtent (q, n + 1)).2 = x - chainCapacity (n + 1) := by
        rw [size, Nat.sub_sub]
        rfl
      change Extents.locate ((_, (regionExtent (q, n + 1)).2) :: _) _ = _
      rw [locate_later (by unfold regionExtent; dsimp only; omega), skipped]
      exact later

/-- Where the bytes of a value stand in a region. -/
theorem locate_region {page d r x : Nat} {regions : List Nat} (room : vo ≤ LeafNodeStartPage.capacity)
    (found : (page :: regions)[d]? = some r) (lower : before vo d ≤ x) (upper : x < before vo (d + 1)) :
    (leafExtents page regions).locate (vo + x) = r * pageSize + startOffset vo (regionType d) + (x - before vo d) := by
  have whole := before_chainCapacity room d
  cases d with
  | zero =>
    cases Option.some.inj found
    rw [chainCapacity] at whole
    rw [leafExtents, locate_first (by omega)]
    change _ = page * pageSize + (LeafNodeStartPage.dataOffset + vo) + (x - 0)
    omega
  | succ d =>
    have passed := before_chainCapacity room d
    have mono := chainCapacity_mono (Nat.zero_le d)
    have first : LeafNodeStartPage.capacity = chainCapacity 0 := rfl
    have placed := locate_regionExtents (n := 0) (i := d) (x := vo + x) (by simpa using found) (by rw [Nat.zero_add]; omega)
      (by rw [Nat.zero_add]; omega)
    rw [Nat.zero_add] at placed
    rw [leafExtents, locate_later (by omega), regionType_succ]
    refine placed.trans ?_
    change _ = r * pageSize + LeafNodeContinuationPage.dataOffset + _
    rw [Nat.zero_add]
    omega

/-- The ranges, one after the other, are the bytes of a string from one position to another. -/
inductive Tiles (xs : Extents) : Nat → Nat → List PageRange → Prop
  | done (pos : Nat) : Tiles xs pos pos []
  | range {pos last : Nat} {range : PageRange} {rest : List PageRange} :
      (∀ i, i < range.length → xs.locate (pos + i) = range.page * pageSize + range.offset + i) →
      Tiles xs (pos + range.length) last rest → Tiles xs pos last (range :: rest)

/-- The range is in a page of the chain, and behind the header of a region. -/
structure PageRange.Inside (chain : List Nat) (range : PageRange) : Prop where
  page : ∃ d start, chain[d]? = some start ∧ start ≤ range.page ∧ range.page < start + 2 ^ d ∧
    (range.page = start → LeafNodeContinuationPage.dataOffset ≤ range.offset)
  fits : range.offset + range.length ≤ pageSize

/-- The effect of all accesses, each of which gets its position in the buffer. -/
def accessAll (act : PageRange → Nat → Tx → Tx) : List PageRange → Nat → Tx → Tx
  | [], _, t => t
  | range :: rest, pos, t => accessAll act rest (pos + range.length) (act range pos t)

theorem dataOffset_le_startOffset (d : Nat) : LeafNodeContinuationPage.dataOffset ≤ startOffset vo (regionType d) := by
  unfold regionType
  split
  · exact (by decide : LeafNodeContinuationPage.dataOffset ≤ LeafNodeStartPage.dataOffset).trans (Nat.le_add_right _ _)
  · exact le_rfl

section Transfer

variable {page : Nat} {regions : List Nat} {P : Tx → Prop}

theorem nextPage_run (room : startOffset vo .start < pageSize) (chained : Chained t.mem chain) (nonzero : ∀ q ∈ chain, q ≠ 0)
    {last : Nat} (short : last ≤ before vo 31) (valid : c.Valid vo) (inChain : chain[c.depth]? = some c.regionStartPage) (n : Nat)
    (page : n = pageSize - startOffset vo c.pageType - c.pageOffset) (more : c.valueOffset + n < last)
    (within : last ≤ before vo chain.length) :
    ∃ c', nextPage { c with valueOffset := c.valueOffset + n } t = .done c' t ∧ c'.Valid vo ∧
      chain[c'.depth]? = some c'.regionStartPage ∧ c'.valueOffset = c.valueOffset + n := by
  have place := valid.place
  have inPage := valid.inPage
  have next := before_succ room c.depth
  have passed := (valid.bounds room).1
  have shallow : c.depth < 31 := (before_strictMono room).lt_iff_lt.mp (by omega)
  unfold nextPage
  dsimp only
  rw [if_neg (Nat.not_le.mpr shallow)]
  by_cases last_ : c.regionOffset + 1 = 2 ^ c.depth
  · have whole : pageSize * c.regionOffset + pageSize = pageSize * 2 ^ c.depth := by rw [← last_, Nat.mul_succ]
    have deeper : c.depth + 1 < chain.length := (before_strictMono room).lt_iff_lt.mp (by omega)
    obtain ⟨q, found⟩ : ∃ q, chain[c.depth + 1]? = some q := ⟨_, List.getElem?_eq_getElem deeper⟩
    have linked := chained c.depth c.regionStartPage inChain
    rw [found, Option.getD_some] at linked
    rw [if_pos last_, getPage_bind, linked, if_neg (nonzero q (List.mem_of_getElem? found))]
    refine ⟨_, rfl, ⟨⟨?_, ?_, ?_⟩, Nat.two_pow_pos _⟩, found, rfl⟩
    · dsimp only
      rw [regionType_succ]
      omega
    · exact startOffset_lt room .continuation
    · rw [if_pos rfl, regionType_succ]
  · have inRegion := valid.inRegion
    rw [if_neg last_]
    refine ⟨_, rfl, ⟨⟨?_, ?_, ?_⟩, ?_⟩, inChain, rfl⟩
    · dsimp only
      rw [startOffset_pure, Nat.mul_succ]
      omega
    · exact startOffset_lt room .pure
    · exact (if_neg (Nat.succ_ne_zero _)).symm
    · dsimp only
      omega

/-- The range at the cursor. -/
theorem range_inside (room : startOffset vo .start < pageSize) (valid : c.Valid vo)
    (inChain : (page :: regions)[c.depth]? = some c.regionStartPage) (n : Nat)
    (fits : n ≤ pageSize - startOffset vo c.pageType - c.pageOffset) :
    PageRange.Inside (page :: regions) ⟨c.regionStartPage + c.regionOffset, startOffset vo c.pageType + c.pageOffset, n⟩ ∧
      ∀ i, i < n → (leafExtents page regions).locate (vo + c.valueOffset + i) =
        (c.regionStartPage + c.regionOffset) * pageSize + (startOffset vo c.pageType + c.pageOffset) + i := by
  have place := valid.place
  have inPage := valid.inPage
  have type := valid.pageType
  obtain ⟨lower, upper⟩ := valid.bounds room
  refine ⟨⟨⟨c.depth, c.regionStartPage, inChain, Nat.le_add_right _ _, Nat.add_lt_add_left valid.inRegion _, fun first => ?_⟩, ?_⟩,
    fun i inside => ?_⟩
  · dsimp only at first ⊢
    rw [if_pos (by omega)] at type
    rw [type]
    exact (dataOffset_le_startOffset c.depth).trans (Nat.le_add_right _ _)
  · dsimp only
    omega
  · have next := before_succ room c.depth
    have whole := Nat.mul_le_mul_left pageSize (Nat.succ_le_of_lt valid.inRegion)
    rw [Nat.mul_succ] at whole
    rw [Nat.add_assoc vo, locate_region (vo_le_capacity room) inChain (by omega) (by omega), Nat.add_mul, Nat.mul_comm c.regionOffset]
    omega

theorem transfer_run (access : PageRange → Nat → TxProgram Unit) (act : PageRange → Nat → Tx → Tx) (last fuel : Nat)
    (room : startOffset vo .start < pageSize) (nonzero : ∀ q ∈ page :: regions, q ≠ 0)
    (short : last ≤ before vo 31) (links : ∀ t, P t → Chained t.mem (page :: regions))
    (acts : ∀ range pos t, P t → range.Inside (page :: regions) → access range pos t = .done () (act range pos t) ∧ P (act range pos t))
    (valid : c.Valid vo) (inChain : c.InChain (page :: regions)) (holds : P t) (begun : offset ≤ c.valueOffset)
    (le : c.valueOffset ≤ last) (within : last ≤ before vo (page :: regions).length) (enough : last < c.valueOffset + fuel) :
    ∃ ranges, transfer vo offset last access fuel c t = .done ranges (accessAll act ranges (c.valueOffset - offset) t) ∧
      Tiles (leafExtents page regions) (vo + c.valueOffset) (vo + last) ranges ∧
      (∀ range ∈ ranges, range.Inside (page :: regions)) ∧ P (accessAll act ranges (c.valueOffset - offset) t) := by
  induction fuel generalizing c t with
  | zero => omega
  | succ fuel ih =>
    rw [transfer]
    by_cases arrived : c.valueOffset < last
    swap
    · rw [if_neg arrived]
      have same : c.valueOffset = last := Nat.le_antisymm le (Nat.not_lt.mp arrived)
      exact ⟨[], rfl, same ▸ .done _, fun range member => absurd member List.not_mem_nil, holds⟩
    obtain ⟨lower, upper⟩ := valid.bounds room
    have inPage := valid.inPage
    have deep : c.depth < (page :: regions).length := (before_strictMono room).lt_iff_lt.mp (by omega)
    have found := inChain deep
    obtain ⟨n, size⟩ : ∃ n, min (last - c.valueOffset) (pageSize - startOffset vo c.pageType - c.pageOffset) = n := ⟨_, rfl⟩
    obtain ⟨inside, located⟩ := range_inside room valid found n (by omega)
    obtain ⟨accessed, holds'⟩ := acts _ (c.valueOffset - offset) t holds inside
    rw [if_pos arrived]
    simp only [size]
    rw [Program.done_bind accessed]
    have moved : c.valueOffset + n - offset = c.valueOffset - offset + n := by omega
    by_cases more : pageSize - startOffset vo c.pageType - c.pageOffset < last - c.valueOffset
    · obtain ⟨c', next, valid', found', there⟩ := nextPage_run room (links _ holds') nonzero short valid found n
        (by omega) (by omega) within
      obtain ⟨ranges, ended, tiles, accesses, finally_⟩ := ih valid' (fun _ => found') holds' (by omega) (by omega) (by omega)
      rw [there, moved] at ended finally_
      rw [there, ← Nat.add_assoc] at tiles
      rw [if_pos more, Program.done_bind next, Program.done_bind ended]
      exact ⟨_, rfl, .range located tiles, List.forall_mem_cons.mpr ⟨inside, accesses⟩, finally_⟩
    · have lastRange : c.valueOffset + n = last := by omega
      rw [if_neg more, Program.pure_bind]
      obtain ⟨fuel, rfl⟩ : ∃ k, fuel = k + 1 := ⟨fuel - 1, by omega⟩
      have ended : transfer vo offset last access (fuel + 1) { c with valueOffset := c.valueOffset + n } =
          (pure [] : TxProgram (List PageRange)) := by
        rw [transfer, if_neg (Nat.not_lt.mpr lastRange.ge)]
      rw [ended]
      refine ⟨_, rfl, .range located ?_, List.forall_mem_singleton.mpr inside, holds'⟩
      dsimp only
      rw [Nat.add_assoc, lastRange]
      exact .done _

end Transfer

theorem Tiles.le {xs : Extents} {pos last : Nat} {ranges : List PageRange} (tiles : Tiles xs pos last ranges) : pos ≤ last := by
  induction tiles with
  | done => exact le_rfl
  | range _ _ ih => exact (Nat.le_add_right _ _).trans ih

theorem slice_eq_map {m : Mem} {xs : Extents} {pos a n : Nat} (located : ∀ i, i < n → xs.locate (pos + i) = a + i) :
    slice m a n = (List.range n).map fun i => m (xs.locate (pos + i)) :=
  List.map_congr_left fun i member => by rw [located i (List.mem_range.mp member)]

/-- The bytes of the ranges. -/
theorem Tiles.bytes {xs : Extents} {pos last : Nat} {ranges : List PageRange} (tiles : Tiles xs pos last ranges) (m : Mem) :
    (ranges.flatMap fun range => slice m (range.page * pageSize + range.offset) range.length) =
      (List.range (last - pos)).map fun i => m (xs.locate (pos + i)) := by
  induction tiles with
  | done pos => simp
  | @range pos last range rest located later ih =>
    have le := later.le
    rw [List.flatMap_cons, ih, slice_eq_map located, show last - pos = range.length + (last - (pos + range.length)) by omega,
      List.range_add, List.map_append, List.map_map]
    simp only [Function.comp_def, Nat.add_assoc]

theorem accessAll_none (ranges : List PageRange) (pos : Nat) (t : Tx) : accessAll (fun _ _ t => t) ranges pos t = t := by
  induction ranges generalizing pos with
  | nil => rfl
  | cons range rest ih => exact ih _

theorem transfer_nothing {last fuel : Nat} {access : PageRange → Nat → TxProgram Unit} (arrived : last ≤ c.valueOffset) :
    transfer vo offset last access (fuel + 1) c t = .done [] t := by
  rw [transfer, if_neg (Nat.not_lt.mpr arrived)]
  rfl

theorem read_of_ranges {startPage length : Nat} {ranges : List PageRange}
    (accessed : rwImpl startPage vo offset length (fun _ _ => pure ()) t = .done ranges t) :
    read startPage vo offset length t =
      .done ((ranges.flatMap fun range => slice t.mem (range.page * pageSize + range.offset) range.length) ++
        List.replicate (length - (ranges.flatMap fun range => slice t.mem (range.page * pageSize + range.offset) range.length).length) 0,
        ranges) t := by
  rw [read, Program.done_bind accessed]
  rfl

/-- A range of a value is read, and nothing else. -/
theorem read_run {page length : Nat} {regions : List Nat} {bytes : List UInt8} (room : startOffset vo .start < pageSize)
    (nonzero : ∀ q ∈ page :: regions, q ≠ 0) (short : offset + length ≤ before vo 31) (chained : Chained t.mem (page :: regions))
    (stores : Stores t.mem (leafExtents page regions) bytes) (reachable : offset < before vo 20)
    (within : vo + offset + length ≤ chainCapacity regions.length) (small : offset + length < 2 ^ 64) :
    ∃ ranges, read page vo offset length t = .done ((List.range length).map fun i => bytes.getD (vo + offset + i) 0, ranges) t ∧
      Tiles (leafExtents page regions) (vo + offset) (vo + offset + length) ranges ∧
      ∀ range ∈ ranges, range.Inside (page :: regions) := by
  have capacity := before_chainCapacity (vo_le_capacity room) regions.length
  obtain ⟨c, sought, valid, inChain, there⟩ := skip_run room reachable chained
  obtain ⟨ranges, ended, tiles, accesses, _⟩ := transfer_run (P := fun s => s = t) (fun _ _ => pure ()) (fun _ _ s => s) (offset + length)
    (length + 1) room nonzero short (fun s same => same ▸ chained) (fun _ _ _ same _ => ⟨rfl, same⟩) valid inChain rfl there.ge (by omega) (by rw [List.length_cons]; omega) (by omega)
  rw [there, ← Nat.add_assoc] at tiles
  rw [accessAll_none] at ended
  have accessed : rwImpl page vo offset length (fun _ _ => pure ()) t = .done ranges t := by
    rw [rwImpl, if_neg (Nat.not_lt.mpr room.le), Program.done_bind sought, Nat.mod_eq_of_lt small, ended]
  have content : (ranges.flatMap fun range => slice t.mem (range.page * pageSize + range.offset) range.length) =
      (List.range length).map fun i => bytes.getD (vo + offset + i) 0 := by
    rw [tiles.bytes, Nat.add_sub_cancel_left]
    refine List.map_congr_left fun i member => stores _ ?_
    rw [total_leafExtents]
    have := List.mem_range.mp member
    omega
  refine ⟨ranges, ?_, tiles, accesses⟩
  rw [read_of_ranges accessed, content, List.length_map, List.length_range, Nat.sub_self, List.replicate_zero, List.append_nil]

theorem read_nothing {page : Nat} (room : startOffset vo .start < pageSize) (offset64 : offset < 2 ^ 64) :
    read page vo offset 0 t = .done ([], []) t := by
  obtain ⟨c, sought, there⟩ := skip_ends (t := t) (c := .begin page) room offset64 (offset + 1) (Nat.zero_le _) (fun deep => by cases deep)
    (Nat.zero_le _) (by rw [Cursor.begin]; dsimp only; omega)
  have accessed : rwImpl page vo offset 0 (fun _ _ => pure ()) t = .done [] t := by
    rw [rwImpl, if_neg (Nat.not_lt.mpr room.le), Program.done_bind sought]
    exact transfer_nothing ((Nat.mod_le _ _).trans (by omega))
  rw [read_of_ranges accessed]
  rfl

theorem nextPage_far (deepest : c.depth = 19) (past : 2 ^ 19 ≤ c.regionOffset) :
    nextPage c = pure { c with regionOffset := c.regionOffset + 1, pageType := .pure, pageOffset := 0 } := by
  unfold nextPage
  dsimp only
  rw [deepest, if_neg (by decide), if_neg (by omega)]

/-- Behind the region at depth 19 the pages are taken in the order of the file: `region_offset` has passed the number of pages
that ends the region. -/
theorem transfer_far {r last : Nat} (fuel : Nat) (room : startOffset vo .start < pageSize) (placed : c.Placed vo) (deepest : c.depth = 19)
    (here : c.regionStartPage = r) (past : 2 ^ 19 ≤ c.regionOffset) (le : c.valueOffset ≤ last) (enough : last < c.valueOffset + fuel) :
    ∃ ranges, transfer vo offset last (fun _ _ => pure ()) fuel c t = .done ranges t ∧
      Tiles [(r * pageSize + LeafNodeContinuationPage.dataOffset, last)] (c.valueOffset - before vo 19) (last - before vo 19) ranges := by
  induction fuel generalizing c with
  | zero => omega
  | succ fuel ih =>
    rw [transfer]
    by_cases arrived : c.valueOffset < last
    swap
    · rw [if_neg arrived, Nat.le_antisymm le (Nat.not_lt.mp arrived)]
      exact ⟨[], rfl, .done _⟩
    have lower := placed.lower room
    have place := placed.place
    have inPage := placed.inPage
    have header : startOffset vo (regionType 19) = LeafNodeContinuationPage.dataOffset := by rw [regionType_succ, startOffset_continuation]
    rw [deepest] at lower
    rw [deepest, header] at place
    obtain ⟨n, size⟩ : ∃ n, min (last - c.valueOffset) (pageSize - startOffset vo c.pageType - c.pageOffset) = n := ⟨_, rfl⟩
    have located : ∀ i, i < n → Extents.locate [(r * pageSize + LeafNodeContinuationPage.dataOffset, last)]
        (c.valueOffset - before vo 19 + i) =
          (c.regionStartPage + c.regionOffset) * pageSize + (startOffset vo c.pageType + c.pageOffset) + i := by
      intro i inside
      rw [locate_first (by omega), here, Nat.add_mul, Nat.mul_comm c.regionOffset]
      omega
    have moved : c.valueOffset - before vo 19 + n = c.valueOffset + n - before vo 19 := by omega
    rw [if_pos arrived]
    simp only [size]
    rw [Program.pure_bind]
    by_cases more : pageSize - startOffset vo c.pageType - c.pageOffset < last - c.valueOffset
    · have next := nextPage_far (c := { c with valueOffset := c.valueOffset + n }) deepest past
      obtain ⟨ranges, ended, tiles⟩ := ih (c := { c with
        valueOffset := c.valueOffset + n, regionOffset := c.regionOffset + 1, pageType := .pure, pageOffset := 0 })
        (by
          refine ⟨?_, startOffset_lt room .pure, (if_neg (Nat.succ_ne_zero _)).symm⟩
          dsimp only
          rw [deepest, header, startOffset_pure, Nat.mul_succ]
          omega) deepest here (past.trans (Nat.le_succ _)) (by dsimp only; omega) (by dsimp only; omega)
      rw [if_pos more, next, Program.pure_bind, Program.done_bind ended]
      exact ⟨_, rfl, .range located (by dsimp only; rw [moved]; exact tiles)⟩
    · have whole : c.valueOffset + n = last := by omega
      rw [if_neg more, Program.pure_bind]
      obtain ⟨fuel, rfl⟩ : ∃ k, fuel = k + 1 := ⟨fuel - 1, by omega⟩
      have ended : transfer vo offset last (fun _ _ => pure ()) (fuel + 1) { c with valueOffset := c.valueOffset + n } =
          (pure [] : TxProgram (List PageRange)) := by
        rw [transfer, if_neg (Nat.not_lt.mpr whole.ge)]
      rw [ended]
      refine ⟨_, rfl, .range located ?_⟩
      dsimp only
      rw [moved, whole]
      exact .done _

/-- What is read behind the region at depth 19 are the bytes that follow it in the file. -/
theorem read_far {page length r : Nat} {regions : List Nat} (room : startOffset vo .start < pageSize) (far : before vo 20 ≤ offset)
    (near : offset < before vo 19 + (2 ^ 64 - 2 ^ 31 - LeafNodeContinuationPage.dataOffset)) (chained : Chained t.mem (page :: regions))
    (found : (page :: regions)[19]? = some r) (small : offset + length < 2 ^ 64) :
    ∃ ranges, read page vo offset length t = .done ((List.range length).map fun i =>
        t.mem (r * pageSize + LeafNodeContinuationPage.dataOffset + (offset - before vo 19 + i)), ranges) t ∧
      Tiles [(r * pageSize + LeafNodeContinuationPage.dataOffset, offset + length)] (offset - before vo 19)
        (offset - before vo 19 + length) ranges := by
  obtain ⟨c, sought, placed, inChain, there, deepest, past⟩ := skip_far room far near chained
  have passed := placed.lower room
  rw [deepest, there] at passed
  have here : c.regionStartPage = r := by
    have deep : 19 < (page :: regions).length := (List.getElem?_eq_some_iff.mp found).1
    have same := inChain (by rw [deepest]; exact deep)
    rw [deepest, found] at same
    exact (Option.some.inj same).symm
  obtain ⟨ranges, ended, tiles⟩ := transfer_far (length + 1) room placed deepest here past
    (show c.valueOffset ≤ offset + length by omega) (by omega)
  rw [there, show offset + length - before vo 19 = offset - before vo 19 + length by omega] at tiles
  have accessed : rwImpl page vo offset length (fun _ _ => pure ()) t = .done ranges t := by
    rw [rwImpl, if_neg (Nat.not_lt.mpr room.le), Program.done_bind sought, Nat.mod_eq_of_lt small, ended]
  have content : (ranges.flatMap fun range => slice t.mem (range.page * pageSize + range.offset) range.length) =
      (List.range length).map fun i => t.mem (r * pageSize + LeafNodeContinuationPage.dataOffset + (offset - before vo 19 + i)) := by
    rw [tiles.bytes, Nat.add_sub_cancel_left]
    refine List.map_congr_left fun i member => ?_
    have inside := List.mem_range.mp member
    rw [locate_first (by omega)]
  refine ⟨ranges, ?_, tiles⟩
  rw [read_of_ranges accessed, content, List.length_map, List.length_range, Nat.sub_self, List.replicate_zero, List.append_nil]

theorem read_length {page length : Nat} {buffer : List UInt8} {ranges : List PageRange} {t' : Tx}
    (ended : read page vo offset length t = .done (buffer, ranges) t') : length ≤ buffer.length := by
  unfold read at ended
  cases accessed : rwImpl page vo offset length (fun _ _ => pure ()) t with
  | done ranges' t₁ =>
    rw [Program.done_bind accessed] at ended
    cases ended
    simp only [List.length_append, List.length_replicate]
    omega
  | threw message t₁ =>
    rw [Program.threw_bind accessed] at ended
    cases ended
  | stuck =>
    rw [Program.stuck_bind accessed] at ended
    cases ended

theorem Tiles.located {xs : Extents} {pos last : Nat} {ranges : List PageRange} (tiles : Tiles xs pos last ranges)
    {range : PageRange} (member : range ∈ ranges) {i : Nat} (inside : i < range.length) :
    ∃ j, pos ≤ j ∧ j < last ∧ range.page * pageSize + range.offset + i = xs.locate j := by
  induction tiles with
  | done => cases member
  | @range pos last first rest located later ih =>
    rcases List.mem_cons.mp member with rfl | below
    · have le := later.le
      exact ⟨pos + i, by omega, by omega, (located i inside).symm⟩
    · obtain ⟨j, lower, upper, same⟩ := ih below
      exact ⟨j, by omega, upper, same⟩

end BigValue

end DiskMap
