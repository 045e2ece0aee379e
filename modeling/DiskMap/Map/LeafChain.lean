import DiskMap.Library.Extents
import DiskMap.Map.FreeLists
import DiskMap.Map.Leaf

namespace DiskMap
open ByteMemory LeafNodeStartPage Extents

namespace LeafNodeContinuationPage

def nextOffset : Nat := 0
def dataOffset : Nat := 8

/-- The next pointer stands at the same offset as that of a start page. -/
def next (m : Mem) (page : Nat) : Nat := leAt m (page * pageSize + nextOffset) 8

end LeafNodeContinuationPage

def maxKeyLength : Nat := 2000

/-- The regions of a leaf with their orders: the start page, and continuation regions of twice the
size each. -/
def chainRegions (page : Nat) (regions : List Nat) : List (Nat × Nat) := (page :: regions).zipIdx

/-- The data section of a continuation region. -/
def regionExtent (region : Nat × Nat) : Nat × Nat :=
  (region.1 * pageSize + LeafNodeContinuationPage.dataOffset, pageSize * 2 ^ region.2 - LeafNodeContinuationPage.dataOffset)

/-- Where the data of a leaf stands. -/
def leafExtents (page : Nat) (regions : List Nat) : Extents :=
  (page * pageSize + dataOffset, capacity) :: (regions.zipIdx 1).map regionExtent

/-- The data that fits in a leaf with so many continuation regions. -/
def chainCapacity : Nat → Nat
  | 0 => capacity
  | n + 1 => chainCapacity n + (pageSize * 2 ^ (n + 1) - LeafNodeContinuationPage.dataOffset)

def leafPages (page : Nat) (regions : List Nat) : Multiset Nat := pagesOf (chainRegions page regions)

/-- Each start page of a region points to the next one, the last one to page 0. -/
def Chained (m : Mem) (chain : List Nat) : Prop :=
  ∀ i p, chain[i]? = some p → LeafNodeContinuationPage.next m p = (chain[i + 1]?).getD 0

/-- A leaf with the exact encoding of its entries. It has continuation regions when its single
entry is too long for one page. -/
structure LeafAt (m : Mem) (page : Nat) (entries : List KVEntry) (regions : List Nat) : Prop where
  links : Chained m (page :: regions)
  usage : LeafNodeStartPage.usage m page = entriesSize entries
  entryCount : LeafNodeStartPage.entryCount m page = entries.length
  fits : entriesSize entries ≤ chainCapacity regions.length
  single : regions ≠ [] → entries.length = 1 ∧ capacity < entriesSize entries
  few : regions.length ≤ 30
  nonempty : entries ≠ []
  keys : WellKeyed entries
  short : ∀ e ∈ entries, e.key.length ≤ maxKeyLength
  content : Stores m (leafExtents page regions) (encodeEntries entries)

variable {m m' : Mem} {page : Nat} {regions : List Nat} {entries : List KVEntry}

theorem total_regionExtents (regions : List Nat) (n : Nat) :
    chainCapacity n + total ((regions.zipIdx (n + 1)).map regionExtent) = chainCapacity (n + regions.length) := by
  induction regions generalizing n with
  | nil => rfl
  | cons r rest ih =>
    rw [List.zipIdx_cons, List.map_cons, total_cons, ← Nat.add_assoc, List.length_cons, Nat.add_comm rest.length, ← Nat.add_assoc]
    exact ih (n + 1)

theorem total_leafExtents (page : Nat) (regions : List Nat) : (leafExtents page regions).total = chainCapacity regions.length := by
  have sum := total_regionExtents regions 0
  rw [Nat.zero_add regions.length] at sum
  rw [leafExtents, total_cons]
  exact sum

theorem chainCapacity_mono {n k : Nat} (le : n ≤ k) : chainCapacity n ≤ chainCapacity k := by
  induction le with
  | refl => exact le_rfl
  | step _ ih => exact ih.trans (Nat.le_add_right _ _)

theorem chained_cons {chain : List Nat} {p : Nat} :
    Chained m (p :: chain) ↔ LeafNodeContinuationPage.next m p = (chain[0]?).getD 0 ∧ Chained m chain := by
  constructor
  · intro chained
    exact ⟨chained 0 p rfl, fun i q found => chained (i + 1) q (by simpa using found)⟩
  · rintro ⟨first, later⟩ i q found
    cases i with
    | zero =>
      cases Option.some.inj found
      exact first
    | succ i => exact later i q (by simpa using found)

theorem Chained.congr {chain : List Nat} (chained : Chained m chain) (same : ∀ p ∈ chain, SamePage m m' p) : Chained m' chain :=
  fun i p found => ((same p (List.mem_of_getElem? found)).leAt_eq (by decide)).trans (chained i p found)

/-- Regions that share no page end before one another begins. -/
theorem apart_of_nodup {regions : List (Nat × Nat)} (nodup : (pagesOf regions).Nodup) :
    regions.Pairwise fun x y => x.1 + 2 ^ x.2 ≤ y.1 ∨ y.1 + 2 ^ y.2 ≤ x.1 := by
  induction regions with
  | nil => exact .nil
  | cons region rest ih =>
    rw [← Multiset.cons_coe, pagesOf_cons] at nodup
    obtain ⟨_, later, disjoint⟩ := Multiset.nodup_add.mp nodup
    refine List.pairwise_cons.mpr ⟨fun other member => ?_, ih later⟩
    by_contra overlap
    have size := Nat.two_pow_pos region.2
    have size' := Nat.two_pow_pos other.2
    have first : max region.1 other.1 ∈ Multiset.Ico region.1 (region.1 + 2 ^ region.2) := Multiset.mem_Ico.mpr (by omega)
    refine Multiset.disjoint_left.mp disjoint first (mem_pagesOf.mpr ⟨other, Multiset.mem_coe.mpr member, ?_⟩)
    omega

/-- The pages of an address. -/
theorem SamePage.byte {x : Nat} (same : SamePage m m' (x / pageSize)) : m' x = m x := by
  have here := same (x % pageSize) (Nat.mod_lt _ (by decide))
  rwa [Nat.mul_comm, Nat.div_add_mod] at here

theorem mem_leafPages {p : Nat} : p ∈ leafPages page regions ↔
    ∃ region ∈ chainRegions page regions, region.1 ≤ p ∧ p < region.1 + 2 ^ region.2 := mem_pagesOf

theorem start_mem (page : Nat) (regions : List Nat) : page ∈ leafPages page regions :=
  mem_leafPages.mpr ⟨(page, 0), List.mem_cons_self, le_rfl, Nat.lt_succ_self page⟩

theorem region_mem {i p : Nat} (found : (page :: regions)[i]? = some p) : (p, i) ∈ chainRegions page regions := by
  rw [chainRegions, List.mem_zipIdx_iff_getElem?]
  exact found

theorem regionPage_mem {i p : Nat} (found : (page :: regions)[i]? = some p) {k : Nat} (inside : k < 2 ^ i) :
    p + k ∈ leafPages page regions :=
  mem_leafPages.mpr ⟨(p, i), region_mem found, Nat.le_add_right _ _, Nat.add_lt_add_left inside _⟩

theorem regionExtent_inside {region : Nat × Nat} {x : Nat} (lower : (regionExtent region).1 ≤ x)
    (upper : x < (regionExtent region).1 + (regionExtent region).2) :
    region.1 * pageSize + LeafNodeContinuationPage.dataOffset ≤ x ∧ x < (region.1 + 2 ^ region.2) * pageSize := by
  have size := Nat.two_pow_pos region.2
  unfold regionExtent at lower upper
  dsimp only at lower upper
  refine ⟨lower, ?_⟩
  rw [Nat.add_mul, Nat.mul_comm (2 ^ region.2)]
  have room : LeafNodeContinuationPage.dataOffset ≤ pageSize * 2 ^ region.2 :=
    (show LeafNodeContinuationPage.dataOffset ≤ pageSize * 1 by decide).trans (Nat.mul_le_mul_left _ size)
  omega

/-- The bytes of a leaf stand behind the header of one of its regions. -/
theorem leafExtents_inside {i : Nat} (inside : i < (leafExtents page regions).total) :
    ∃ region ∈ chainRegions page regions, region.1 * pageSize + LeafNodeContinuationPage.dataOffset ≤ (leafExtents page regions).locate i ∧
      (leafExtents page regions).locate i < (region.1 + 2 ^ region.2) * pageSize := by
  obtain ⟨x, member, lower, upper⟩ := locate_mem inside
  rcases List.mem_cons.mp member with rfl | later
  · refine ⟨(page, 0), List.mem_cons_self, ?_⟩
    dsimp only at lower upper ⊢
    unfold capacity at upper
    unfold LeafNodeStartPage.dataOffset pageSize at lower upper
    unfold LeafNodeContinuationPage.dataOffset pageSize
    omega
  · obtain ⟨region, listed, rfl⟩ := List.mem_map.mp later
    exact ⟨region, List.mem_cons_of_mem _ listed, regionExtent_inside lower upper⟩

theorem leafExtents_page {i : Nat} (inside : i < (leafExtents page regions).total) :
    (leafExtents page regions).locate i / pageSize ∈ leafPages page regions := by
  obtain ⟨region, member, lower, upper⟩ := leafExtents_inside inside
  refine mem_leafPages.mpr ⟨region, member, ?_, Nat.div_lt_of_lt_mul (by rwa [Nat.mul_comm])⟩
  exact (Nat.le_div_iff_mul_le (by decide)).mpr ((Nat.le_add_right _ _).trans lower)

theorem leafExtents_separate (nodup : (leafPages page regions).Nodup) : (leafExtents page regions).Separate := by
  obtain ⟨first, later⟩ := List.pairwise_cons.mp (apart_of_nodup nodup)
  refine List.pairwise_cons.mpr ⟨fun y member => ?_, ?_⟩
  · obtain ⟨region, listed, rfl⟩ := List.mem_map.mp member
    have size := Nat.two_pow_pos region.2
    rcases first region listed with below | above
    · have bound := Nat.mul_le_mul_right pageSize below
      unfold regionExtent capacity dataOffset LeafNodeContinuationPage.dataOffset
      unfold pageSize at bound ⊢
      dsimp only at bound ⊢
      omega
    · have bound := Nat.mul_le_mul_right pageSize above
      rw [Nat.add_mul, Nat.mul_comm (2 ^ region.2)] at bound
      unfold regionExtent dataOffset LeafNodeContinuationPage.dataOffset
      unfold pageSize at bound ⊢
      dsimp only at bound ⊢
      omega
  · refine List.pairwise_map.mpr (later.imp fun {x y} apart => ?_)
    have size := Nat.two_pow_pos x.2
    have size' := Nat.two_pow_pos y.2
    unfold regionExtent LeafNodeContinuationPage.dataOffset
    dsimp only
    rcases apart with below | above
    · have bound := Nat.mul_le_mul_right pageSize below
      rw [Nat.add_mul, Nat.mul_comm (2 ^ x.2)] at bound
      unfold pageSize at bound ⊢
      omega
    · have bound := Nat.mul_le_mul_right pageSize above
      rw [Nat.add_mul, Nat.mul_comm (2 ^ y.2)] at bound
      unfold pageSize at bound ⊢
      omega

/-- Where the data of the regions begins in their start pages. -/
def headerSize : Nat → Nat
  | 0 => dataOffset
  | _ + 1 => LeafNodeContinuationPage.dataOffset

theorem chainRegions_apart (nodup : (leafPages page regions).Nodup) {i j p q : Nat} (first : (page :: regions)[i]? = some p)
    (second : (page :: regions)[j]? = some q) (different : i ≠ j) : p + 2 ^ i ≤ q ∨ q + 2 ^ j ≤ p := by
  have sym : Std.Symm fun x y : Nat × Nat => x.1 + 2 ^ x.2 ≤ y.1 ∨ y.1 + 2 ^ y.2 ≤ x.1 := ⟨fun _ _ => Or.symm⟩
  exact (apart_of_nodup nodup).forall (region_mem first) (region_mem second) fun same => different (congrArg Prod.snd same)

/-- The bytes of a leaf are not in the headers of its regions. -/
theorem leafExtents_header (nodup : (leafPages page regions).Nodup) {d q : Nat} (found : (page :: regions)[d]? = some q) {i : Nat}
    (inside : i < (leafExtents page regions).total) :
    (leafExtents page regions).locate i < q * pageSize ∨ q * pageSize + headerSize d ≤ (leafExtents page regions).locate i := by
  have small : headerSize d ≤ pageSize := by
    cases d with
    | zero => exact (by decide : dataOffset ≤ pageSize)
    | succ d => exact (by decide : LeafNodeContinuationPage.dataOffset ≤ pageSize)
  have other : ∀ j p, (page :: regions)[j]? = some p → d ≠ j → p * pageSize ≤ (leafExtents page regions).locate i →
      (leafExtents page regions).locate i < (p + 2 ^ j) * pageSize →
      (leafExtents page regions).locate i < q * pageSize ∨ q * pageSize + headerSize d ≤ (leafExtents page regions).locate i := by
    intro j p listed different lower upper
    rcases chainRegions_apart nodup found listed different with below | above
    · have bound := Nat.mul_le_mul_right pageSize ((Nat.add_le_add_left (Nat.two_pow_pos d) q).trans below)
      rw [Nat.add_mul] at bound
      omega
    · exact Or.inl (upper.trans_le (Nat.mul_le_mul_right pageSize above))
  obtain ⟨x, member, lower, upper⟩ := locate_mem inside
  rcases List.mem_cons.mp member with rfl | later
  · cases d with
    | zero =>
      cases Option.some.inj found
      exact Or.inr lower
    | succ d =>
      refine other 0 page rfl (Nat.succ_ne_zero d) (by dsimp only at lower; omega) ?_
      have whole : dataOffset + capacity = pageSize := by decide
      dsimp only at upper
      rw [pow_zero, Nat.add_mul, Nat.one_mul, ← whole, ← Nat.add_assoc]
      exact upper
  · obtain ⟨⟨p, j⟩, listed, rfl⟩ := List.mem_map.mp later
    obtain ⟨above, found'⟩ := List.mk_mem_zipIdx_iff_le_and_getElem?_sub.mp listed
    obtain ⟨j, rfl⟩ := Nat.exists_eq_add_of_le' above
    obtain ⟨low, high⟩ := regionExtent_inside lower upper
    have placed : (page :: regions)[j + 1]? = some p := by simpa using found'
    by_cases same : d = j + 1
    · subst same
      cases Option.some.inj (found.symm.trans placed)
      exact Or.inr low
    · exact other (j + 1) p placed same ((Nat.le_add_right _ _).trans low) high

theorem leafExtents_snoc (page r : Nat) (regions : List Nat) :
    leafExtents page (regions ++ [r]) = leafExtents page regions ++ [regionExtent (r, regions.length + 1)] := by
  simp [leafExtents, List.zipIdx_append, Nat.add_comm]

theorem leafPages_snoc (page r : Nat) (regions : List Nat) :
    leafPages page (regions ++ [r]) = leafPages page regions + Multiset.Ico r (r + 2 ^ (regions.length + 1)) := by
  have split : chainRegions page (regions ++ [r]) = chainRegions page regions ++ [(r, regions.length + 1)] := by
    rw [chainRegions, ← List.cons_append, List.zipIdx_append]
    simp [chainRegions]
  rw [leafPages, split, ← Multiset.coe_add, pagesOf, Multiset.add_bind]
  simp [leafPages, pagesOf]

theorem two_pow_le_chainCapacity (n : Nat) : 512 * 2 ^ (n + 2) ≤ chainCapacity n := by
  induction n with
  | zero => decide
  | succ n ih =>
    have size : chainCapacity (n + 1) = chainCapacity n + (pageSize * 2 ^ (n + 1) - LeafNodeContinuationPage.dataOffset) := rfl
    have positive := Nat.two_pow_pos (n + 1)
    rw [size, Nat.pow_succ 2 (n + 2), Nat.pow_succ 2 (n + 1)]
    rw [Nat.pow_succ 2 (n + 1)] at ih
    unfold LeafNodeContinuationPage.dataOffset pageSize
    omega

/-- A leaf consists of its pages. -/
theorem LeafAt.congr (leaf : LeafAt m page entries regions) (same : ∀ p ∈ leafPages page regions, SamePage m m' p) :
    LeafAt m' page entries regions where
  links := leaf.links.congr fun p member => by
    obtain ⟨i, found⟩ := List.mem_iff_getElem?.mp member
    exact same p (regionPage_mem (k := 0) found (Nat.two_pow_pos i))
  usage := ((same page (start_mem page regions)).leAt_eq (by decide)).trans leaf.usage
  entryCount := ((same page (start_mem page regions)).leAt_eq (by decide)).trans leaf.entryCount
  fits := leaf.fits
  single := leaf.single
  few := leaf.few
  nonempty := leaf.nonempty
  keys := leaf.keys
  short := leaf.short
  content := leaf.content.congr fun _ inside => (same _ (leafExtents_page inside)).byte

theorem LeafAt.singlePage (leaf : LeafAt m page entries []) : SinglePage m page entries where
  next := leaf.links 0 page rfl
  usage := leaf.usage
  entryCount := leaf.entryCount
  fits := leaf.fits
  content i inside := by
    have byte := leaf.content i (by rw [total_leafExtents]; exact inside)
    rwa [leafExtents, locate_first inside] at byte

theorem LeafAt.ofSinglePage (leaf : SinglePage m page entries) (nonempty : entries ≠ []) (keys : WellKeyed entries)
    (short : ∀ e ∈ entries, e.key.length ≤ maxKeyLength) : LeafAt m page entries [] where
  links := chained_cons.mpr ⟨leaf.next, fun i p found => by cases found⟩
  usage := leaf.usage
  entryCount := leaf.entryCount
  fits := leaf.fits
  single := fun impossible => absurd rfl impossible
  few := Nat.zero_le _
  nonempty := nonempty
  keys := keys
  short := short
  content i inside := by
    rw [total_leafExtents] at inside
    have stored : i < capacity := inside
    rw [leafExtents, locate_first stored]
    exact leaf.content i stored

/-- The keys and the value lengths are in the start page. -/
theorem LeafAt.headersInside (leaf : LeafAt m page entries regions) : HeadersInside 0 entries := by
  rcases eq_or_ne regions [] with rfl | chained
  · exact .of_fits (by rw [Nat.zero_add]; exact leaf.fits)
  · obtain ⟨one, _⟩ := leaf.single chained
    obtain ⟨e, rfl⟩ := List.length_eq_one_iff.mp one
    have short := leaf.short e List.mem_cons_self
    have fits := leaf.fits
    have bound := chainCapacity_mono leaf.few
    have size : e.size = e.key.length + 9 + e.value.length := rfl
    rw [entriesSize_cons] at fits
    have small : chainCapacity 30 < 2 ^ 64 := by decide
    refine ⟨?_, by omega, trivial⟩
    unfold maxKeyLength at short
    unfold capacity LeafNodeStartPage.dataOffset pageSize
    omega

theorem LeafAt.data_holds (leaf : LeafAt m page entries regions) (beyond : Mem) :
    Holds (data m page beyond) 0 capacity (encodeEntries entries) := by
  refine data_holds_iff.mpr fun i inside => ?_
  have byte := leaf.content i (by rw [total_leafExtents]; exact inside.trans_le (chainCapacity_mono (Nat.zero_le _)))
  rwa [leafExtents, locate_first inside] at byte

theorem LeafAt.findEntryInLeaf_eq (leaf : LeafAt m page entries regions) {key : List UInt8} (noNul : 0 ∉ key) (beyond : Mem) :
    findEntryInLeaf (data m page beyond) key = offsetOf key entries :=
  DiskMap.findEntryInLeaf_eq (leaf.data_holds beyond) leaf.headersInside leaf.keys.nulFree noNul

end DiskMap
