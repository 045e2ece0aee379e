import DiskMap.Map.GrowChain

namespace DiskMap
open ByteMemory Extents

namespace BigValue

/-- The part of a buffer that goes to a range of a page. -/
def writeRange (buffer : List UInt8) (range : PageRange) (pos : Nat) (t : Tx) : Tx :=
  t.write range.page range.offset ((buffer.drop pos).take range.length).length ((buffer.drop pos).take range.length)

/-- `BigValue::write`. -/
def write (startPage valueOffsetInStartPage offset : Nat) (buffer : List UInt8) : TxProgram Unit := do
  createContinuationRegions startPage ((valueOffsetInStartPage + (offset + buffer.length)) % 2 ^ 64)
  let _ ← rwImpl startPage valueOffsetInStartPage offset buffer.length fun range pos =>
    writePage range.page range.offset ((buffer.drop pos).take range.length)

/-- The same, with the regions that are allocated and their orders. -/
def writeLogged (startPage valueOffsetInStartPage offset : Nat) (buffer : List UInt8) : TxProgram (List (Nat × Nat)) := do
  let log ← createRegionsLogged startPage ((valueOffsetInStartPage + (offset + buffer.length)) % 2 ^ 64)
  let _ ← rwImpl startPage valueOffsetInStartPage offset buffer.length fun range pos =>
    writePage range.page range.offset ((buffer.drop pos).take range.length)
  return log

theorem write_eq (startPage valueOffsetInStartPage offset : Nat) (buffer : List UInt8) :
    write startPage valueOffsetInStartPage offset buffer = (writeLogged startPage valueOffsetInStartPage offset buffer).forget := by
  rw [write, writeLogged, Program.forget_bind, createContinuationRegions_eq, Program.forget_then]
  exact congrArg (createRegionsLogged _ _ >>= ·) (funext fun log => by rw [Program.forget_bind]; rfl)

variable {page vo offset : Nat} {regions : List Nat} {t t' : Tx} {held : Multiset Nat} {lists : Nat → FreeList}
  {bytes buffer : List UInt8}

theorem Tiles.written {xs : Extents} {pos last : Nat} {ranges : List PageRange} (tiles : Tiles xs pos last ranges)
    (separate : xs.Separate) (within : last ≤ xs.total) {at_ : Nat} (enough : at_ + (last - pos) ≤ buffer.length) (t : Tx) :
    Written t.mem (accessAll (writeRange buffer) ranges at_ t).mem xs pos ((buffer.drop at_).take (last - pos)) := by
  induction tiles generalizing at_ t with
  | done pos =>
    rw [Nat.sub_self, List.take_zero]
    exact .nil _ _ _
  | @range pos last range rest located later ih =>
    have le := later.le
    have length : ((buffer.drop at_).take range.length).length = range.length := by
      rw [List.length_take, List.length_drop]
      omega
    have parts : (buffer.drop at_).take (last - pos) = (buffer.drop at_).take range.length ++
        (buffer.drop (at_ + range.length)).take (last - (pos + range.length)) := by
      rw [show last - pos = range.length + (last - (pos + range.length)) by omega, List.take_add, List.drop_drop]
    rw [parts]
    have here : ∀ i, i < ((buffer.drop at_).take range.length).length →
        xs.locate (pos + i) = range.page * pageSize + range.offset + i := fun i bound => located i (by omega)
    refine Written.append here rfl ?_ ?_
    · rw [congrArg (pos + ·) length]
      exact ih within (show at_ + range.length + _ ≤ _ by omega) (writeRange buffer range at_ t)
    · intro i j first second same
      rw [List.length_take] at first second
      have := separate.locate_inj (by omega) (by omega) same
      omega

/-- A range of the chain does not reach into a header. -/
theorem PageRange.Inside.apart {range : PageRange} (inside : range.Inside (page :: regions)) (nodup : (leafPages page regions).Nodup)
    {q : Nat} (member : q ∈ page :: regions) :
    q * pageSize + 8 ≤ range.page * pageSize + range.offset ∨ range.page * pageSize + range.offset + range.length ≤ q * pageSize := by
  obtain ⟨i, found⟩ := List.mem_iff_getElem?.mp member
  obtain ⟨d, start, listed, lower, upper, header⟩ := inside.page
  have fits := inside.fits
  have next : LeafNodeContinuationPage.dataOffset = 8 := rfl
  rcases Nat.lt_trichotomy range.page q with before | same | behind
  · have bound := Nat.mul_le_mul_right pageSize before
    rw [Nat.succ_eq_add_one, Nat.add_mul] at bound
    omega
  · have one : i = d := by
      by_contra different
      have apart := chainRegions_apart nodup found listed different
      have size := Nat.two_pow_pos i
      omega
    subst one
    cases Option.some.inj (found.symm.trans listed)
    rw [same]
    have := header same
    omega
  · have bound := Nat.mul_le_mul_right pageSize behind
    rw [Nat.succ_eq_add_one, Nat.add_mul] at bound
    have whole : 8 ≤ pageSize := by decide
    omega

theorem PageRange.Inside.mem {range : PageRange} (inside : range.Inside (page :: regions)) : range.page ∈ leafPages page regions := by
  obtain ⟨d, start, listed, lower, upper, _⟩ := inside.page
  exact mem_leafPages.mpr ⟨(start, d), region_mem listed, lower, upper⟩

theorem writeRange_keeps {range : PageRange} (inside : range.Inside (page :: regions)) (nodup : (leafPages page regions).Nodup)
    (chained : Chained t.mem (page :: regions)) (pos : Nat) :
    Touched (leafPages page regions) t (writeRange buffer range pos t) ∧
      Chained (writeRange buffer range pos t).mem (page :: regions) := by
  have short : ((buffer.drop pos).take range.length).length ≤ range.length := List.length_take_le _ _
  have fits := inside.fits
  refine ⟨.write inside.mem (by omega) _, fun i q found => ?_⟩
  refine (leAt_overwrite_outside ?_).trans (chained i q found)
  have apart := inside.apart nodup (List.mem_of_getElem? found)
  unfold LeafNodeContinuationPage.nextOffset
  omega

/-- Bytes of the leaf change, but not those in the headers. -/
theorem Reshaped.ofWritten {pos : Nat} (space : Space lists (held + leafPages page regions) t) (touched : Touched (leafPages page regions) t t')
    (chained : Chained t'.mem (page :: regions)) (stores : Stores t.mem (leafExtents page regions) bytes)
    (written : Written t.mem t'.mem (leafExtents page regions) pos buffer) (fits : pos + buffer.length ≤ chainCapacity regions.length) :
    Reshaped held page regions (splice bytes pos buffer) t t' := by
  have nodup := leaf_nodup space
  rw [← total_leafExtents page] at fits
  obtain ⟨space', _⟩ := space.touched touched fun p member => Or.inr (Multiset.mem_add.mpr (Or.inr member))
  have header : ∀ start width, start + width ≤ LeafNodeStartPage.dataOffset →
      leAt t'.mem (page * pageSize + start) width = leAt t.mem (page * pageSize + start) width := by
    refine fun start width inside => leAt_congr fun i bound => written.outside _ fun j within same => ?_
    have apart := leafExtents_header nodup (d := 0) rfl (i := pos + j) (by omega)
    rw [← same] at apart
    change _ ∨ page * pageSize + LeafNodeStartPage.dataOffset ≤ _ at apart
    omega
  exact ⟨⟨lists, space'⟩, chained, stores.written (leafExtents_separate nodup) written fits, header _ _ (by decide),
    header _ _ (by decide), touched.frame space⟩

theorem before_small (room : startOffset vo .start < pageSize) {n d : Nat} (short : n ≤ before vo (d + 1)) (few : d ≤ 30) : n < 2 ^ 64 := by
  have capacity := before_chainCapacity (vo_le_capacity room) d
  have bound := chainCapacity_mono few
  have size : chainCapacity 30 < 2 ^ 64 := by decide
  omega

/-- The buffer goes to its place in the value, and to no other. -/
theorem rwImpl_writes (room : startOffset vo .start < pageSize) (reachable : offset < before vo 20)
    (nonzero : ∀ q ∈ page :: regions, q ≠ 0) (nodup : (leafPages page regions).Nodup) (chained : Chained t.mem (page :: regions))
    (short : offset + buffer.length ≤ before vo 31) (within : vo + offset + buffer.length ≤ chainCapacity regions.length) :
    ∃ ranges t', rwImpl page vo offset buffer.length
        (fun range pos => writePage range.page range.offset ((buffer.drop pos).take range.length)) t = .done ranges t' ∧
      Touched (leafPages page regions) t t' ∧ Chained t'.mem (page :: regions) ∧
      Written t.mem t'.mem (leafExtents page regions) (vo + offset) buffer ∧
      ∀ range ∈ ranges, range.Inside (page :: regions) := by
  have capacity := before_chainCapacity (vo_le_capacity room) regions.length
  have small := before_small room short le_rfl
  obtain ⟨c, sought, valid, inChain, there⟩ := skip_run room reachable chained
  obtain ⟨ranges, ended, tiles, accesses, touched, chained'⟩ := transfer_run
    (P := fun s => Touched (leafPages page regions) t s ∧ Chained s.mem (page :: regions))
    (fun range pos => writePage range.page range.offset ((buffer.drop pos).take range.length)) (writeRange buffer) (offset + buffer.length)
    (buffer.length + 1) room nonzero short (fun _ both => both.2)
    (fun range pos s both inside => ⟨rfl, both.1.trans (writeRange_keeps inside nodup both.2 pos).1,
      (writeRange_keeps inside nodup both.2 pos).2⟩)
    valid inChain ⟨.refl _ t, chained⟩ there.ge (by omega) (by rw [List.length_cons]; omega) (by omega)
  rw [there, ← Nat.add_assoc] at tiles
  rw [there, Nat.sub_self] at ended touched chained'
  have whole : (buffer.drop 0).take (vo + offset + buffer.length - (vo + offset)) = buffer := by
    rw [List.drop_zero, Nat.add_sub_cancel_left, List.take_length]
  have written : Written t.mem (accessAll (writeRange buffer) ranges 0 t).mem _ _ _ :=
    tiles.written (leafExtents_separate nodup) (by rwa [total_leafExtents]) (by omega) t
  rw [whole] at written
  refine ⟨ranges, _, ?_, touched, chained', written, accesses⟩
  rw [rwImpl, if_neg (Nat.not_lt.mpr room.le), Program.done_bind sought, Nat.mod_eq_of_lt small, ended]

theorem rwImpl_write_run (room : startOffset vo .start < pageSize) (reachable : offset < before vo 20)
    (space : Space lists (held + leafPages page regions) t) (chained : Chained t.mem (page :: regions)) (few : regions.length ≤ 30)
    (stores : Stores t.mem (leafExtents page regions) bytes) (within : vo + offset + buffer.length ≤ chainCapacity regions.length) :
    ∃ ranges t', rwImpl page vo offset buffer.length
        (fun range pos => writePage range.page range.offset ((buffer.drop pos).take range.length)) t = .done ranges t' ∧
      Reshaped held page regions (splice bytes (vo + offset) buffer) t t' ∧
      MetaPage.nextFreePage t'.mem = MetaPage.nextFreePage t.mem := by
  have nonzero : ∀ q ∈ page :: regions, q ≠ 0 := by
    intro q member
    obtain ⟨i, found⟩ := List.mem_iff_getElem?.mp member
    have bounds := space.held_bounds (Multiset.mem_add.mpr (Or.inr (regionPage_mem (k := 0) found (Nat.two_pow_pos i))))
    omega
  have capacity : vo + before vo 31 = chainCapacity 30 := before_chainCapacity (vo_le_capacity room) 30
  have bound := chainCapacity_mono few
  obtain ⟨ranges, t', ended, touched, chained', written, _⟩ :=
    rwImpl_writes room reachable nonzero (leaf_nodup space) chained (show offset + buffer.length ≤ before vo 31 by omega) within
  refine ⟨ranges, t', ended, .ofWritten space touched chained' stores written within, ?_⟩
  exact (space.touched touched fun p member => Or.inr (Multiset.mem_add.mpr (Or.inr member))).2.1

/-- A part of a value is replaced. The chain gets as long as that part requires. -/
theorem writeLogged_fits (room : startOffset vo .start < pageSize) (reachable : offset < before vo 20)
    (space : Space lists (held + leafPages page regions) t) (chained : Chained t.mem (page :: regions)) (few : regions.length ≤ 30)
    (stores : Stores t.mem (leafExtents page regions) bytes) (fits : bytes.length ≤ chainCapacity regions.length)
    (size : vo + (offset + buffer.length) ≤ chainCapacity 30) :
    Fits (MetaPage.nextFreePage t.mem + (vo + (offset + buffer.length)) / 512) (writeLogged page vo offset buffer t) fun log t' =>
      ∃ new n, n ≤ 30 ∧ Requires (vo + (offset + buffer.length)) n ∧ regions.length + new.length = max regions.length n ∧
        log = new.zipIdx (regions.length + 1) ∧ Reshaped held page (regions ++ new) (splice bytes (vo + offset) buffer) t t' := by
  have small : chainCapacity 30 < 2 ^ 64 := by decide
  rw [writeLogged, Nat.mod_eq_of_lt (by omega)]
  refine (createRegionsLogged_fits space chained stores fits size).bind le_rfl ?_
  rintro log t₁ ⟨new, n, few', requires, length, noted, grown⟩ le
  obtain ⟨lists₁, space₁⟩ := grown.space
  have long : (regions ++ new).length = max regions.length n := by rw [List.length_append, length]
  have enough := requires.enough.trans (chainCapacity_mono (show n ≤ (regions ++ new).length by omega))
  obtain ⟨ranges, t₂, ended, written, next⟩ := rwImpl_write_run room reachable space₁ grown.chained (by omega) grown.stores
    (show vo + offset + buffer.length ≤ _ by omega)
  rw [Program.done_bind ended]
  exact .intro rfl ⟨new, n, few', requires, length, noted, grown.trans written⟩ (next.le.trans le)

theorem write_fits (room : startOffset vo .start < pageSize) (reachable : offset < before vo 20)
    (space : Space lists (held + leafPages page regions) t) (chained : Chained t.mem (page :: regions)) (few : regions.length ≤ 30)
    (stores : Stores t.mem (leafExtents page regions) bytes) (fits : bytes.length ≤ chainCapacity regions.length)
    (size : vo + (offset + buffer.length) ≤ chainCapacity 30) :
    Fits (MetaPage.nextFreePage t.mem + (vo + (offset + buffer.length)) / 512) (write page vo offset buffer t) fun _ t' =>
      ∃ regions' n, n ≤ 30 ∧ Requires (vo + (offset + buffer.length)) n ∧ regions'.length = max regions.length n ∧
        Reshaped held page regions' (splice bytes (vo + offset) buffer) t t' := by
  rw [write_eq]
  refine (writeLogged_fits room reachable space chained few stores fits size).forget ?_
  rintro log t' ⟨new, n, few', requires, length, _, written⟩
  exact ⟨regions ++ new, n, few', requires, by rw [List.length_append, length], written⟩

/-- A chain that is long enough is only walked along. -/
theorem createContinuationFrom_walk {n d prev : Nat} (nonzero : ∀ q ∈ page :: regions, q ≠ 0) (chained : Chained t.mem (page :: regions))
    (found : (page :: regions)[d]? = some prev) (enough : d + n ≤ regions.length) :
    createContinuationFrom n (d + 1) prev t = .done () t := by
  induction n generalizing d prev with
  | zero => rfl
  | succ n ih =>
    have next : (page :: regions)[d + 1]? = some regions[d] := by
      rw [List.getElem?_cons_succ, List.getElem?_eq_getElem (by omega)]
    have link := chained d prev found
    rw [next, Option.getD_some] at link
    rw [createContinuationFrom, getPage_bind, link, if_neg (nonzero _ (List.mem_of_getElem? next))]
    exact ih next (by omega)

theorem createContinuationRegions_walk {entrySize : Nat} (nonzero : ∀ q ∈ page :: regions, q ≠ 0) (chained : Chained t.mem (page :: regions))
    (size : entrySize ≤ chainCapacity 30) (enough : entrySize ≤ chainCapacity regions.length) :
    createContinuationRegions page entrySize t = .done () t := by
  obtain ⟨n, -, requires, run⟩ := requiredContinuationRegions_run (t := t) size
  have long : n ≤ regions.length := by
    by_contra short
    exact absurd enough (Nat.not_le.mpr (requires.least _ (Nat.not_le.mp short)))
  rw [createContinuationRegions, Program.done_bind run]
  exact createContinuationFrom_walk nonzero chained rfl (by rwa [Nat.zero_add])

theorem getD_range_map {f : Nat → UInt8} {n i : Nat} (inside : i < n) : ((List.range n).map f).getD i 0 = f i := by
  rw [List.getD_eq_getElem?_getD, List.getElem?_map, List.getElem?_range inside, Option.map_some, Option.getD_some]

/-- The data of the chain as one byte string. -/
theorem stores_self (m : Mem) (xs : Extents) : Stores m xs ((List.range xs.total).map fun i => m (xs.locate i)) :=
  fun _ inside => (getD_range_map (f := fun i => m (xs.locate i)) inside).symm

/-- Along a chain that is long enough, a write changes the bytes of its range and no others, and what is read
afterwards is the buffer there and what was read before elsewhere. -/
theorem read_write (position : vo ≤ maxKeyLength + 1 + 8) (nonzero : ∀ q ∈ page :: regions, q ≠ 0)
    (disjoint : (leafPages page regions).Nodup) (chained : Chained t.mem (page :: regions))
    (early : offset + buffer.length ≤ before vo 19) (within : vo + (offset + buffer.length) ≤ chainCapacity regions.length) :
    ∃ t' ranges, write page vo offset buffer t = .done () t' ∧
      rwImpl page vo offset buffer.length
        (fun range pos => writePage range.page range.offset ((buffer.drop pos).take range.length)) t = .done ranges t' ∧
      (∀ range ∈ ranges, range.Inside (page :: regions)) ∧
      (∀ x, (∀ i, i < buffer.length → x ≠ (leafExtents page regions).locate (vo + offset + i)) → t'.mem x = t.mem x) ∧
      ∀ start length, start + length ≤ before vo 19 → vo + (start + length) ≤ chainCapacity regions.length →
        ∃ old ranges ranges', read page vo start length t = .done (old, ranges) t ∧
          read page vo start length t' = .done ((List.range length).map fun i =>
            if offset ≤ start + i ∧ start + i < offset + buffer.length then buffer.getD (start + i - offset) 0 else old.getD i 0,
            ranges') t' ∧
          ∀ range ∈ ranges ++ ranges', range.Inside (page :: regions) := by
  have room : startOffset vo .start < pageSize := by
    have start : startOffset vo .start = LeafNodeStartPage.dataOffset + vo := rfl
    have size : LeafNodeStartPage.dataOffset + (maxKeyLength + 1 + 8) < pageSize := by decide
    omega
  have capacity : vo + before vo 19 = chainCapacity 18 := before_chainCapacity (vo_le_capacity room) 18
  have last : before vo 19 < before vo 20 := before_lt room 19
  have deeper : before vo 20 ≤ before vo 31 := (before_strictMono room).monotone (by decide)
  have larger : chainCapacity 18 ≤ chainCapacity 30 := chainCapacity_mono (by decide)
  have small : chainCapacity 30 < 2 ^ 64 := by decide
  obtain ⟨ranges, t', ended, touched, chained', written, accesses⟩ :=
    rwImpl_writes room (by omega) nonzero disjoint chained (by omega) (show vo + offset + buffer.length ≤ _ by omega)
  refine ⟨t', ranges, ?_, ended, accesses, written.outside, fun start length early' within' => ?_⟩
  · rw [write, Nat.mod_eq_of_lt (by omega), Program.done_bind (createContinuationRegions_walk nonzero chained (by omega) within),
      Program.done_bind ended]
    rfl
  · have stores := stores_self t.mem (leafExtents page regions)
    have stores' := stores.written (leafExtents_separate disjoint) written (by rw [total_leafExtents]; omega)
    obtain ⟨old, read, _, inside⟩ := read_run room nonzero (by omega) chained stores (show start < before vo 20 by omega)
      (show vo + start + length ≤ _ by omega) (by omega)
    obtain ⟨new, read', _, inside'⟩ := read_run room nonzero (by omega) chained' stores' (show start < before vo 20 by omega)
      (show vo + start + length ≤ _ by omega) (by omega)
    refine ⟨_, old, new, read, ?_, List.forall_mem_append.mpr ⟨inside, inside'⟩⟩
    rw [read']
    refine congrArg (fun bytes => Outcome.done (bytes, new) t') (List.map_congr_left fun i member => ?_)
    have bound := List.mem_range.mp member
    rw [splice_getD, getD_range_map (f := fun i => List.getD _ (vo + start + i) 0) bound]
    by_cases meets : offset ≤ start + i ∧ start + i < offset + buffer.length
    · rw [if_pos meets, if_pos (by omega)]
      exact congrArg (buffer.getD · 0) (by omega)
    · rw [if_neg meets, if_neg (by omega)]

/-- A start page 41 and one continuation region. -/
def twoRegions : Tx := { mem := overwrite (fun _ => 0) (41 * pageSize) 8 (leBytes 8 42) }

theorem twoRegions_chained : Chained twoRegions.mem [41, 42] := by
  intro i p found
  match i with
  | 0 => cases found; decide
  | 1 => cases found; decide
  | i + 2 => simp at found

theorem read_write_over_region_end : ∃ t' ranges, write 41 10 4067 [7, 8, 9] twoRegions = .done () t' ∧
    (∀ range ∈ ranges, range.Inside [41, 42]) ∧
    ∃ old ranges', read 41 10 4066 3 twoRegions = .done (old, ranges) twoRegions ∧
      read 41 10 4066 3 t' = .done ([old.getD 0 0, 7, 8], ranges') t' := by
  have early : 4067 + ([7, 8, 9] : List UInt8).length ≤ before 10 19 := by decide
  obtain ⟨t', _, written, _, _, _, reads⟩ := read_write (show 10 ≤ maxKeyLength + 1 + 8 by decide) (by decide) (by decide) twoRegions_chained
    early (by decide)
  obtain ⟨old, ranges, ranges', before_, after_, inside⟩ := reads 4066 3 (by decide) (by decide)
  exact ⟨t', ranges, written, fun range member => inside range (List.mem_append_left _ member), old, ranges', before_, after_⟩

end BigValue

end DiskMap
