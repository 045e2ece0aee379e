import DiskMap.Map.FreeLeaf
import DiskMap.Map.SpaceRuns
import DiskMap.Map.WriteBigValue

namespace DiskMap
open ByteMemory Extents BigValue

/-- One part of a value after another, each with its offset. -/
def BigValue.writes (startPage valueOffsetInStartPage : Nat) : List (Nat × List UInt8) → TxProgram Unit
  | [] => pure ()
  | (offset, buffer) :: rest => do
    write startPage valueOffsetInStartPage offset buffer
    writes startPage valueOffsetInStartPage rest

def BigValue.writesLogged (startPage valueOffsetInStartPage : Nat) : List (Nat × List UInt8) → TxProgram (List (Nat × Nat))
  | [] => pure []
  | (offset, buffer) :: rest => do
    let log ← writeLogged startPage valueOffsetInStartPage offset buffer
    let later ← writesLogged startPage valueOffsetInStartPage rest
    return log ++ later

theorem BigValue.writes_eq (startPage valueOffsetInStartPage : Nat) (parts : List (Nat × List UInt8)) :
    writes startPage valueOffsetInStartPage parts = (writesLogged startPage valueOffsetInStartPage parts).forget := by
  induction parts with
  | nil => rfl
  | cons part rest ih =>
    obtain ⟨offset, buffer⟩ := part
    rw [writes, writesLogged, Program.forget_bind, write_eq, Program.forget_then, ih]
    exact congrArg (writeLogged _ _ _ _ >>= ·) (funext fun log => by rw [Program.forget_bind]; rfl)

/-- Regions are handed to `SpaceManager::free` one after another, each with its order. -/
def freeAll : List (Nat × Nat) → TxProgram Unit
  | [] => pure ()
  | (region, order) :: rest => do
    SpaceManager.free region order
    freeAll rest

/-- The end of the part that reaches furthest. -/
def largestEnd (parts : List (Nat × List UInt8)) : Nat := (parts.map fun part => part.1 + part.2.length).foldr max 0

/-- Sizes at which no shift of an `int` overflows. -/
def ExactSize (vo : Nat) (part : Nat × List UInt8) : Prop :=
  part.1 ≤ before vo 19 ∧ vo + (part.1 + part.2.length) ≤ chainCapacity 30

/-- The chain is as long as the parts require, and its regions are the ones that were allocated, each with
its place in the chain as its order. With these orders they are freed. -/
structure GrownBy (held : Multiset Nat) (page vo : Nat) (parts : List (Nat × List UInt8)) (log : List (Nat × Nat))
    (regions : List Nat) (t : Tx) : Prop where
  noted : log = regions.zipIdx 1
  chained : Chained t.mem (page :: regions)
  requires : Requires (vo + largestEnd parts) regions.length
  few : regions.length ≤ 30
  owned : ∃ lists, Space lists (held + leafPages page regions) t
  freed : freeLeaf page t = freeAll ((page, 0) :: log) t

variable {lists : Nat → FreeList} {held : Multiset Nat} {t : Tx} {page order vo : Nat} {regions rest : List Nat}
  {parts : List (Nat × List UInt8)}

theorem freeLeafFrom_eq {fuel : Nat} (space : Space lists (held + pagesOf ((page :: rest).zipIdx order : List (Nat × Nat))) t)
    (chained : Chained t.mem (page :: rest)) (within : order + rest.length ≤ maxOrder) (enough : rest.length < fuel) :
    freeLeafFrom fuel page order t = freeAll ((page :: rest).zipIdx order) t := by
  induction rest generalizing lists t page order fuel with
  | nil =>
    obtain ⟨fuel, rfl⟩ := Nat.exists_eq_succ_of_ne_zero (Nat.ne_of_gt enough)
    have last : LeafNodeContinuationPage.next t.mem page = 0 := (chained_cons.mp chained).1
    rw [freeLeafFrom, getPage_bind, last, if_pos rfl]
    rfl
  | cons q rest ih =>
    obtain ⟨fuel, rfl⟩ := Nat.exists_eq_succ_of_ne_zero (Nat.ne_of_gt (Nat.zero_lt_of_lt enough))
    obtain ⟨first, later⟩ := chained_cons.mp chained
    rw [pagesOf_zipIdx_cons, add_comm (Multiset.Ico _ _), ← add_assoc] at space
    have next : LeafNodeContinuationPage.next t.mem page = q := first
    have mine : ∀ p ∈ q :: rest, p ∈ held + pagesOf ((q :: rest).zipIdx (order + 1) : List (Nat × Nat)) := fun p member =>
      Multiset.mem_add.mpr (Or.inr (mem_pagesOf_zipIdx member))
    have bounds := space.held_bounds (Multiset.mem_add.mpr (Or.inl (mine q List.mem_cons_self)))
    rw [List.length_cons] at within enough
    rw [freeLeafFrom, getPage_bind, next, if_neg (by omega), List.zipIdx_cons, freeAll]
    rcases free_fits space (by omega) with ⟨_, t₁, ended, freed, _⟩ | ⟨never, _⟩
    · obtain ⟨lists₁, space₁, _⟩ := freed.space
      rw [Program.done_bind ended, Program.done_bind ended]
      exact ih space₁ (later.congr fun p member => freed.frame.pages p (mine p member)) (by omega) (by omega)
    · rw [Program.stuck_bind never, Program.stuck_bind never]

theorem freeLeaf_eq (space : Space lists (held + leafPages page regions) t) (chained : Chained t.mem (page :: regions))
    (few : regions.length ≤ maxOrder) : freeLeaf page t = freeAll ((page, 0) :: regions.zipIdx 1) t :=
  freeLeafFrom_eq space chained (by omega) (Nat.lt_succ_of_le few)

/-- The longer of two chains is long enough for both. -/
theorem BigValue.Requires.max {size size' n k : Nat} (first : Requires size n) (second : Requires size' k) :
    Requires (max size size') (max n k) where
  enough := Nat.max_le.mpr ⟨first.enough.trans (chainCapacity_mono (Nat.le_max_left n k)),
    second.enough.trans (chainCapacity_mono (Nat.le_max_right n k))⟩
  least i below := by
    rcases Nat.lt_or_ge i n with before | behind
    · exact (first.least i before).trans_le (Nat.le_max_left _ _)
    · exact (second.least i (by omega)).trans_le (Nat.le_max_right _ _)

theorem largestEnd_append (first second : List (Nat × List UInt8)) :
    largestEnd (first ++ second) = max (largestEnd first) (largestEnd second) := by
  induction first with
  | nil => exact (Nat.zero_max _).symm
  | cons part rest ih =>
    unfold largestEnd at ih ⊢
    rw [List.cons_append, List.map_cons, List.foldr_cons, List.map_cons, List.foldr_cons, ih]
    exact (max_assoc _ _ _).symm

theorem largestEnd_single (part : Nat × List UInt8) : largestEnd [part] = part.1 + part.2.length := Nat.max_zero _

/-- A leaf whose start page has just been allocated. -/
theorem GrownBy.start (room : startOffset vo .start < pageSize) (space : Space lists (held + leafPages page []) t)
    (chained : Chained t.mem [page]) : GrownBy held page vo [] [] [] t where
  noted := rfl
  chained := chained
  requires := ⟨vo_le_capacity room, fun _ impossible => absurd impossible (Nat.not_lt_zero _)⟩
  few := Nat.zero_le _
  owned := ⟨lists, space⟩
  freed := freeLeaf_eq space chained (Nat.zero_le _)

/-- One more part may make the chain longer, and changes nothing in front. -/
theorem GrownBy.write {part : Nat × List UInt8} {log : List (Nat × Nat)} (grown : GrownBy held page vo parts log regions t)
    (room : startOffset vo .start < pageSize) (size : ExactSize vo part) :
    Fits (MetaPage.nextFreePage t.mem + (vo + (part.1 + part.2.length))) (writeLogged page vo part.1 part.2 t) fun log' t' =>
      ∃ new, GrownBy held page vo (parts ++ [part]) (log ++ log') (regions ++ new) t' := by
  obtain ⟨lists, space⟩ := grown.owned
  have stores := stores_self t.mem (leafExtents page regions)
  refine (writeLogged_fits room (size.1.trans_lt (before_lt room 19)) space grown.chained grown.few stores ?_ size.2).mono
    (Nat.add_le_add_left (Nat.div_le_self _ _) _) ?_
  · rw [List.length_map, List.length_range, total_leafExtents]
  · rintro log' t' ⟨new, n, few, requires, length, rfl, reshaped⟩
    obtain ⟨lists', space'⟩ := reshaped.space
    have long : (regions ++ new).length = max regions.length n := by rw [List.length_append, length]
    have short : (regions ++ new).length ≤ 30 := by
      have before := grown.few
      omega
    have noted : log ++ new.zipIdx (regions.length + 1) = (regions ++ new).zipIdx 1 := by
      rw [grown.noted, List.zipIdx_append, Nat.add_comm]
    refine ⟨new, noted, reshaped.chained, ?_, short, ⟨lists', space'⟩, ?_⟩
    · rw [largestEnd_append, largestEnd_single, ← Nat.add_max_add_left, long]
      exact grown.requires.max requires
    · rw [noted]
      exact freeLeaf_eq space' reshaped.chained (short.trans (by decide))

/-- What the parts add to the file at most. -/
def growthCost (vo : Nat) (parts : List (Nat × List UInt8)) : Nat := (parts.map fun part => vo + (part.1 + part.2.length)).sum

theorem GrownBy.writes {log : List (Nat × Nat)} {more : List (Nat × List UInt8)} (grown : GrownBy held page vo parts log regions t)
    (room : startOffset vo .start < pageSize) (sizes : ∀ part ∈ more, ExactSize vo part) :
    Fits (MetaPage.nextFreePage t.mem + growthCost vo more) (writesLogged page vo more t) fun log' t' =>
      ∃ new, GrownBy held page vo (parts ++ more) (log ++ log') (regions ++ new) t' := by
  induction more generalizing parts log regions t with
  | nil => exact .intro rfl ⟨[], by simpa only [List.append_nil] using grown⟩ (Nat.le_add_right _ _)
  | cons part rest ih =>
    have cost : growthCost vo (part :: rest) = vo + (part.1 + part.2.length) + growthCost vo rest := by
      rw [growthCost, growthCost, List.map_cons, List.sum_cons]
    refine (grown.write room (sizes part List.mem_cons_self)).bind (by omega) ?_
    rintro first t₁ ⟨new, grown₁⟩ le₁
    refine (ih grown₁ fun p member => sizes p (List.mem_cons_of_mem _ member)).bind (by omega) ?_
    rintro later t₂ ⟨newer, grown₂⟩ le₂
    refine .intro rfl ⟨new ++ newer, ?_⟩ (le₂.trans (by omega))
    simpa only [List.append_assoc, List.singleton_append] using grown₂

/-- Writes of parts of a value to a new leaf, and further ones behind them: the chain is always as long as the
furthest part requires, the region at each place is the one that was allocated with this order, later writes only
add regions at the end, and freeing the leaf hands over each region once, with its order. -/
theorem chain_after_writes (position : vo ≤ maxKeyLength + 1 + 8) (space : Space lists (held + leafPages page []) t)
    (chained : Chained t.mem [page]) (first second : List (Nat × List UInt8)) (sizes : ∀ part ∈ first ++ second, ExactSize vo part) :
    (∀ parts, writes page vo parts = (writesLogged page vo parts).forget) ∧
    Fits (MetaPage.nextFreePage t.mem + growthCost vo first) (writesLogged page vo first t) fun log t₁ =>
      ∃ regions, GrownBy held page vo first log regions t₁ ∧
        Fits (MetaPage.nextFreePage t₁.mem + growthCost vo second) (writesLogged page vo second t₁) fun log' t₂ =>
          ∃ new, GrownBy held page vo (first ++ second) (log ++ log') (regions ++ new) t₂ := by
  have room : startOffset vo .start < pageSize := by
    have start : startOffset vo .start = LeafNodeStartPage.dataOffset + vo := rfl
    have size : LeafNodeStartPage.dataOffset + (maxKeyLength + 1 + 8) < pageSize := by decide
    omega
  refine ⟨writes_eq page vo, ?_⟩
  refine ((GrownBy.start room space chained).writes room fun part member => sizes part (List.mem_append_left _ member)).mono le_rfl ?_
  rintro log t₁ ⟨regions, grown⟩
  exact ⟨regions, grown, grown.writes room fun part member => sizes part (List.mem_append_right _ member)⟩

/-- In a new file. -/
theorem chain_after_writes_new_file : ∃ lists page t, Space lists (leafPages page []) t ∧
    Fits (MetaPage.nextFreePage t.mem + growthCost 10 [(0, [7]), (5000, [8])]) (writesLogged page 10 [(0, [7]), (5000, [8])] t)
      fun log t₁ => ∃ regions, GrownBy 0 page 10 [(0, [7]), (5000, [8])] log regions t₁ := by
  have space : Space newLists 0 Clients.fresh.tx := Clients.space_start Clients.fresh_start
  have next : MetaPage.nextFreePage Clients.fresh.tx.mem = 41 := by decide +kernel
  obtain ⟨page, t, _, allocated, _⟩ | ⟨_, noRoom⟩ := allocate_fits space (show 0 < 31 by decide)
  · obtain ⟨lists, space', _⟩ := allocated.space
    rw [show page + 2 ^ 0 = page + 1 from rfl] at space'
    have leaf : Multiset.Ico page (page + 1) = leafPages page [] := by
      rw [leafPages, chainRegions, List.zipIdx_singleton, ← Multiset.cons_coe, pagesOf_cons]
      simp [pagesOf]
    rw [leaf] at space'
    have chained : Chained t.mem [page] := by
      refine chained_cons.mpr ⟨?_, fun i p found => by simp at found⟩
      exact (allocated.zero page le_rfl (Nat.lt_succ_self page)).leAt_eq (by decide)
    refine ⟨lists, page, t, by rwa [zero_add] at space', ?_⟩
    have both := (chain_after_writes (show 10 ≤ maxKeyLength + 1 + 8 by decide) space' chained [(0, [7]), (5000, [8])] [] (by
      intro part member
      simp only [List.append_nil, List.mem_cons, List.not_mem_nil, or_false] at member
      rcases member with rfl | rfl <;> exact ⟨by decide, by decide⟩)).2
    refine both.mono le_rfl ?_
    rintro log t₁ ⟨regions, grown, _⟩
    exact ⟨regions, grown⟩
  · rw [next] at noRoom
    exact absurd noRoom (by decide)

end DiskMap
