import DiskMap.Map.GrowChain
import DiskMap.Map.UpdateValue

namespace DiskMap
open ByteMemory MachineInts

namespace BigValue

/-- The loop of `required_continuation_regions` as the machine runs it. -/
def requiredLoop (entrySize : Nat) : Nat → Nat → Nat → Option Nat
  | 0, _, _ => none
  | fuel + 1, result, capacity =>
    if capacity < entrySize then do
      let pagesInNextRegion ← intShl 1 (result + 1)
      let bytes := sub64 (toSize pagesInNextRegion * pageSize % 2 ^ 64) LeafNodeContinuationPage.dataOffset
      requiredLoop entrySize fuel (result + 1) ((capacity + bytes) % 2 ^ 64)
    else some result

def requiredRegions (entrySize : Nat) : Option Nat := requiredLoop entrySize 40 0 LeafNodeStartPage.capacity

variable {vo depth entrySize n : Nat} {t : Tx}

/-- The machine counts as the model does, wherever the model does not leave the `int` range. -/
theorem requiredLoop_exact {fuel fuel' result : Nat} (le : fuel ≤ fuel')
    (done : requiredFrom entrySize fuel result (chainCapacity result) t = .done n t) :
    requiredLoop entrySize fuel' result (chainCapacity result) = some n := by
  induction fuel generalizing fuel' result with
  | zero => cases done
  | succ fuel ih =>
    obtain ⟨rest, rfl⟩ := Nat.exists_eq_add_of_le' le
    rw [requiredFrom] at done
    rw [show rest + (fuel + 1) = (rest + fuel) + 1 by omega, requiredLoop]
    by_cases short : chainCapacity result < entrySize
    · rw [if_pos short] at done ⊢
      by_cases last : 31 ≤ result + 1
      · rw [if_pos last] at done
        cases done
      · rw [if_neg last, Nat.mul_comm _ pageSize] at done
        have power : 2 ^ (result + 1) ≤ 2 ^ 30 := Nat.pow_le_pow_right (by decide) (by omega)
        have bytes : pageSize * 2 ^ (result + 1) ≤ 2 ^ 42 := Nat.mul_le_mul_left pageSize power
        have next : chainCapacity (result + 1) = chainCapacity result +
          (pageSize * 2 ^ (result + 1) - LeafNodeContinuationPage.dataOffset) := rfl
        have small : chainCapacity (result + 1) < 2 ^ 64 :=
          (chainCapacity_mono (show result + 1 ≤ 30 by omega)).trans_lt (by decide)
        have page : pageSize ≤ pageSize * 2 ^ (result + 1) := Nat.le_mul_of_pos_right _ (Nat.two_pow_pos _)
        have header : LeafNodeContinuationPage.dataOffset ≤ pageSize := by decide
        have shifted : intShl 1 (result + 1) = some ((2 ^ (result + 1) : Nat) : Int) := by
          rw [intShl_exact (by rw [Nat.one_mul]; omega) (by omega), Nat.one_mul]
        simp only [shifted, Option.bind_eq_bind, Option.bind_some]
        rw [toSize_exact (by omega), Nat.mul_comm _ pageSize,
          Nat.mod_eq_of_lt (show pageSize * 2 ^ (result + 1) < 2 ^ 64 by omega), sub64_eq (header.trans page) (by omega), ← next, Nat.mod_eq_of_lt small]
        exact ih (Nat.le_add_left _ _) done
    · rw [if_neg short] at done ⊢
      cases done
      rfl

end BigValue

namespace SpaceManager

/-- The `new_next_free_page` that `allocate` computes. -/
def newNextFreePage (nextFreePage order : Nat) : Option Int := do
  let pages ← intShl 1 order
  return nextFreePage + pages

theorem newNextFreePage_exact {nextFreePage order : Nat} (within : order ≤ 30) :
    newNextFreePage nextFreePage order = some ((nextFreePage + 2 ^ order : Nat) : Int) := by
  have power : 2 ^ order ≤ 2 ^ 30 := Nat.pow_le_pow_right (by decide) within
  have shifted : intShl 1 order = some ((2 ^ order : Nat) : Int) := by
    rw [intShl_exact (by rw [Nat.one_mul]; omega) (by omega), Nat.one_mul]
  simp only [newNextFreePage, shifted, Option.bind_eq_bind, Option.bind_some, Option.pure_def, Nat.cast_add]

/-- With an empty free list, `allocate` writes the number that the machine computes. -/
theorem allocate_advances {t : Tx} {order : Nat} (within : order ≤ 30)
    (empty : MetaPage.lastFplPageEntries t.mem order = 0)
    (room : MetaPage.nextFreePage t.mem + 2 ^ order ≤ maxPages) :
    ∃ t', allocate order t = .done (MetaPage.nextFreePage t.mem) t' ∧
      newNextFreePage (MetaPage.nextFreePage t.mem) order = some (MetaPage.nextFreePage t'.mem : Int) := by
  have file : maxPages < 2 ^ 64 := by decide
  refine ⟨t.write 0 MetaPage.nextFreePageOffset 8 (leBytes 8 (MetaPage.nextFreePage t.mem + 2 ^ order)), ?_, ?_⟩
  · simp only [allocate, if_neg (show ¬ 31 ≤ order by omega)]
    rw [getPage_bind, empty, if_pos rfl, allocateFresh, getPage_bind, if_neg (Nat.not_lt.mpr room)]
    rfl
  · have written : MetaPage.nextFreePage (t.write 0 MetaPage.nextFreePageOffset 8
        (leBytes 8 (MetaPage.nextFreePage t.mem + 2 ^ order))).mem = MetaPage.nextFreePage t.mem + 2 ^ order := by
      show leAt (overwrite t.mem (0 * pageSize + MetaPage.nextFreePageOffset) 8 _) MetaPage.nextFreePageOffset 8 = _
      rw [Nat.zero_mul, Nat.zero_add, leAt_overwrite_self]
      exact Nat.mod_eq_of_lt (room.trans_lt file)
    rw [written]
    exact newNextFreePage_exact within

end SpaceManager

open BigValue SpaceManager in
/-- For an entry of this size the three computations with shifts of an `int` are exact: the number of regions,
the bytes skipped at each depth that the regions have, and the pages that each region takes. -/
structure SizesExact (entrySize n : Nat) : Prop where
  required : requiredRegions entrySize = some n
  skipped : ∀ vo depth, startOffset vo .start < pageSize → depth ≤ n →
    regionSkip vo depth = some (pageSize * 2 ^ depth - startOffset vo (regionType depth))
  allocated : ∀ nextFreePage order, 1 ≤ order → order ≤ n → nextFreePage + 2 ^ order < 2 ^ 63 →
    newNextFreePage nextFreePage order = some ((nextFreePage + 2 ^ order : Nat) : Int)

theorem sizesExact_iff {entrySize n : Nat} (requires : BigValue.Requires entrySize n) :
    SizesExact entrySize n ↔ n ≤ 18 := by
  constructor
  · intro exact_
    by_contra many
    have skip := exact_.skipped 2 19 (by decide) (by omega)
    rw [BigValue.regionSkip_negative] at skip
    exact absurd (Option.some.inj skip) (by decide)
  · intro few
    refine ⟨?_, fun vo depth room within => BigValue.regionSkip_exact room (by omega), fun next order _ within _ =>
      SpaceManager.newNextFreePage_exact (by omega)⟩
    have fits : entrySize ≤ chainCapacity 30 := requires.enough.trans (chainCapacity_mono (by omega))
    obtain ⟨k, -, requires', run⟩ := BigValue.requiredContinuationRegions_run (t := { mem := fun _ => 0 }) fits
    have same : k = n := by
      rcases Nat.lt_trichotomy k n with below | equal | above
      · exact absurd requires'.enough (Nat.not_le.mpr (requires.least k below))
      · exact equal
      · exact absurd requires.enough (Nat.not_le.mpr (requires'.least n above))
    rw [← same]
    exact BigValue.requiredLoop_exact (by decide) run

theorem requires_chainCapacity (n : Nat) : BigValue.Requires (chainCapacity n) n where
  enough := le_rfl
  least k below := by
    have page : 2 * pageSize ≤ pageSize * 2 ^ (k + 1) := by
      have power : 2 ^ 1 ≤ 2 ^ (k + 1) := Nat.pow_le_pow_right (by decide) (by omega)
      rw [Nat.mul_comm]
      exact Nat.mul_le_mul_left pageSize power
    have header : LeafNodeContinuationPage.dataOffset < pageSize := by decide
    calc chainCapacity k < chainCapacity k + (pageSize * 2 ^ (k + 1) - LeafNodeContinuationPage.dataOffset) := by omega
      _ = chainCapacity (k + 1) := rfl
      _ ≤ chainCapacity n := chainCapacity_mono below

theorem sizesExact_two_regions : SizesExact (chainCapacity 2) 2 :=
  (sizesExact_iff (requires_chainCapacity 2)).mpr (by decide)

/-- An entry of 4294963030 bytes fills nineteen continuation regions. -/
theorem sizes_inexact_nineteen_regions :
    BigValue.Requires 4294963030 19 ∧ 19 ≤ maxOrder ∧ ¬ SizesExact 4294963030 19 := by
  have size : chainCapacity 19 = 4294963030 := by decide
  refine ⟨size ▸ requires_chainCapacity 19, by decide, fun exact_ => ?_⟩
  have skip := exact_.skipped 2 19 (by decide) le_rfl
  rw [BigValue.regionSkip_negative] at skip
  exact absurd (Option.some.inj skip) (by decide)

end DiskMap
