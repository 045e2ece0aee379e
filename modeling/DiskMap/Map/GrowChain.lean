import DiskMap.Map.BigValue
import DiskMap.Map.Touched

namespace DiskMap
open ByteMemory Extents

namespace BigValue

/-- The loop of `required_continuation_regions`. `1 << (result + 1)` is an `int`. -/
def requiredFrom (entrySize : Nat) : Nat → Nat → Nat → TxProgram Nat
  | 0, _, _ => .stuck
  | fuel + 1, result, capacity =>
    if capacity < entrySize then
      if 31 ≤ result + 1 then .stuck
      else requiredFrom entrySize fuel (result + 1)
        (capacity + (2 ^ (result + 1) * pageSize - LeafNodeContinuationPage.dataOffset))
    else return result

def requiredContinuationRegions (entrySize : Nat) : TxProgram Nat := requiredFrom entrySize 31 0 LeafNodeStartPage.capacity

/-- The loop that follows the chain and lengthens it where it ends. -/
def createContinuationFrom : Nat → Nat → Nat → TxProgram Unit
  | 0, _, _ => pure ()
  | n + 1, order, prev => do
    let next ← getPage fun m => LeafNodeContinuationPage.next m prev
    if next = 0 then
      let page ← SpaceManager.allocate order
      writeInt 8 prev LeafNodeContinuationPage.nextOffset page
      createContinuationFrom n (order + 1) page
    else createContinuationFrom n (order + 1) next

def createContinuationRegions (startPage entrySize : Nat) : TxProgram Unit := do
  let regions ← requiredContinuationRegions entrySize
  createContinuationFrom regions 1 startPage

/-- The same loop, which notes the regions it allocates and their orders. -/
def createContinuationLogged : Nat → Nat → Nat → TxProgram (List (Nat × Nat))
  | 0, _, _ => pure []
  | n + 1, order, prev => do
    let next ← getPage fun m => LeafNodeContinuationPage.next m prev
    if next = 0 then
      let page ← SpaceManager.allocate order
      writeInt 8 prev LeafNodeContinuationPage.nextOffset page
      let log ← createContinuationLogged n (order + 1) page
      return (page, order) :: log
    else createContinuationLogged n (order + 1) next

def createRegionsLogged (startPage entrySize : Nat) : TxProgram (List (Nat × Nat)) := do
  let regions ← requiredContinuationRegions entrySize
  createContinuationLogged regions 1 startPage

theorem createContinuationFrom_eq (n order prev : Nat) :
    createContinuationFrom n order prev = (createContinuationLogged n order prev).forget := by
  induction n generalizing order prev with
  | zero => rfl
  | succ n ih =>
    rw [createContinuationFrom, createContinuationLogged, Program.forget_bind]
    refine congrArg (getPage _ >>= ·) (funext fun next => ?_)
    split
    · simp only [Program.forget_bind, ih]
      rfl
    · exact ih _ _

theorem createContinuationRegions_eq (startPage entrySize : Nat) :
    createContinuationRegions startPage entrySize = (createRegionsLogged startPage entrySize).forget := by
  rw [createContinuationRegions, createRegionsLogged, Program.forget_bind]
  exact congrArg (requiredContinuationRegions _ >>= ·) (funext fun regions => createContinuationFrom_eq _ _ _)

variable {entrySize n k page : Nat} {regions : List Nat} {t t' t'' : Tx} {held : Multiset Nat} {lists : Nat → FreeList}
  {bytes : List UInt8}

/-- So many continuation regions are enough, and no fewer are. -/
structure Requires (entrySize n : Nat) : Prop where
  enough : entrySize ≤ chainCapacity n
  least : ∀ k, k < n → chainCapacity k < entrySize

theorem requiredFrom_run {fuel result : Nat} (least : ∀ k, k < result → chainCapacity k < entrySize)
    (fits : entrySize ≤ chainCapacity 30) (few : result ≤ 30) (enough : 30 < result + fuel) :
    ∃ n, n ≤ 30 ∧ Requires entrySize n ∧ requiredFrom entrySize fuel result (chainCapacity result) t = .done n t := by
  induction fuel generalizing result with
  | zero => omega
  | succ fuel ih =>
    rw [requiredFrom]
    by_cases short : chainCapacity result < entrySize
    · have more : result < 30 := by
        by_contra last
        have is : result = 30 := by omega
        rw [is] at short
        omega
      rw [if_pos short, if_neg (by omega), Nat.mul_comm _ pageSize]
      refine ih (fun k below => ?_) more (by omega)
      rcases Nat.lt_succ_iff_lt_or_eq.mp below with before | rfl
      · exact least k before
      · exact short
    · rw [if_neg short]
      exact ⟨result, few, ⟨Nat.not_lt.mp short, least⟩, rfl⟩

theorem requiredContinuationRegions_run (fits : entrySize ≤ chainCapacity 30) :
    ∃ n, n ≤ 30 ∧ Requires entrySize n ∧ requiredContinuationRegions entrySize t = .done n t :=
  requiredFrom_run (fun _ impossible => absurd impossible (Nat.not_lt_zero _)) fits (Nat.zero_le _) (by omega)

/-- The regions have at most one page for each 512 bytes of the entry. -/
theorem Requires.cost (requires : Requires entrySize n) : 2 ^ (n + 1) - 2 ≤ entrySize / 512 := by
  cases n with
  | zero => exact Nat.zero_le _
  | succ n =>
    have below := requires.least n (Nat.lt_succ_self n)
    have size := two_pow_le_chainCapacity n
    show 2 ^ (n + 2) - 2 ≤ entrySize / 512
    omega

/-- A leaf after its chain has got longer or its data has changed. -/
structure Reshaped (held : Multiset Nat) (page : Nat) (regions : List Nat) (bytes : List UInt8) (t t' : Tx) : Prop where
  space : ∃ lists, Space lists (held + leafPages page regions) t'
  chained : Chained t'.mem (page :: regions)
  stores : Stores t'.mem (leafExtents page regions) bytes
  usage : LeafNodeStartPage.usage t'.mem page = LeafNodeStartPage.usage t.mem page
  entryCount : LeafNodeStartPage.entryCount t'.mem page = LeafNodeStartPage.entryCount t.mem page
  frame : Frame held t t'

theorem Reshaped.refl (space : Space lists (held + leafPages page regions) t) (chained : Chained t.mem (page :: regions))
    (stores : Stores t.mem (leafExtents page regions) bytes) : Reshaped held page regions bytes t t :=
  ⟨⟨lists, space⟩, chained, stores, rfl, rfl, fun p _ => .refl t.mem p, .refl t.mem 1, rfl, rfl⟩

theorem Reshaped.trans {regions' : List Nat} {bytes' : List UInt8} (first : Reshaped held page regions bytes t t')
    (second : Reshaped held page regions' bytes' t' t'') : Reshaped held page regions' bytes' t t'' :=
  ⟨second.space, second.chained, second.stores, second.usage.trans first.usage, second.entryCount.trans first.entryCount,
    first.frame.trans second.frame⟩

/-- The pages of a leaf are different from one another. -/
theorem leaf_nodup (space : Space lists (held + leafPages page regions) t) : (leafPages page regions).Nodup :=
  Multiset.nodup_of_le (Multiset.le_add_left _ _) (Multiset.nodup_of_le (Multiset.le_add_left _ _) space.nodup)

/-- The last region gets a successor, whose pages are zero. -/
theorem append_region (chained : Chained t.mem (page :: regions))
    (stores : Stores t.mem (leafExtents page regions) bytes) (fits : bytes.length ≤ chainCapacity regions.length)
    {prev r : Nat} {t₁ : Tx} (last : (page :: regions)[regions.length]? = some prev)
    (allocated : Allocated lists (held + leafPages page regions) (regions.length + 1) t r t₁) :
    Reshaped held page (regions ++ [r]) bytes t
        (t₁.write prev LeafNodeContinuationPage.nextOffset 8 (leBytes 8 r)) ∧
      MetaPage.nextFreePage (t₁.write prev LeafNodeContinuationPage.nextOffset 8 (leBytes 8 r)).mem = MetaPage.nextFreePage t₁.mem := by
  obtain ⟨lists₁, space₁, _⟩ := allocated.space
  rw [add_assoc, ← leafPages_snoc] at space₁
  have nodup := leaf_nodup space₁
  have mine : prev ∈ leafPages page regions := regionPage_mem (k := 0) last (Nat.two_pow_pos _)
  have fresh : r ∈ leafPages page (regions ++ [r]) := by
    rw [leafPages_snoc]
    exact Multiset.mem_add.mpr (Or.inr (Multiset.mem_Ico.mpr ⟨le_rfl, Nat.lt_add_of_pos_right (Nat.two_pow_pos _)⟩))
  have small : r < 2 ^ 64 := by
    have bounds := space₁.held_bounds (Multiset.mem_add.mpr (Or.inr fresh))
    have bound : MetaPage.nextFreePage t₁.mem ≤ 2 ^ 51 := space₁.bound
    omega
  have touched : Touched (leafPages page (regions ++ [r])) t₁ (t₁.write prev LeafNodeContinuationPage.nextOffset 8 (leBytes 8 r)) :=
    .write (by rw [leafPages_snoc]; exact Multiset.mem_add.mpr (Or.inl mine)) (by decide) _
  obtain ⟨space', next, _⟩ := space₁.touched touched fun p member => Or.inr (Multiset.mem_add.mpr (Or.inr member))
  have frame : Frame held t t₁ := allocated.frame.mono fun p member => Multiset.mem_add.mpr (Or.inl member)
  have leafSame : ∀ p ∈ leafPages page regions, SamePage t.mem t₁.mem p := fun p member =>
    allocated.frame.pages p (Multiset.mem_add.mpr (Or.inr member))
  have zero : ∀ i, i < total [regionExtent (r, regions.length + 1)] → t₁.mem (locate [regionExtent (r, regions.length + 1)] i) = 0 := by
    intro i inside
    rw [total_cons, total_nil, Nat.add_zero] at inside
    have start : (regionExtent (r, regions.length + 1)).1 ≤ (regionExtent (r, regions.length + 1)).1 + i := Nat.le_add_right _ i
    obtain ⟨lower, upper⟩ := regionExtent_inside start (Nat.add_lt_add_left inside _)
    have at_ : locate [regionExtent (r, regions.length + 1)] i = (regionExtent (r, regions.length + 1)).1 + i := locate_first inside
    rw [at_]
    generalize (regionExtent (r, regions.length + 1)).1 + i = x at lower upper
    have page := allocated.zero (x / pageSize) ((Nat.le_div_iff_mul_le (by decide)).mpr ((Nat.le_add_right _ _).trans lower))
      (Nat.div_lt_of_lt_mul (by rwa [Nat.mul_comm])) (x % pageSize) (Nat.mod_lt _ (by decide))
    rwa [Nat.mul_comm, Nat.div_add_mod] at page
  have last' : (page :: (regions ++ [r]))[regions.length]? = some prev := by
    rw [← List.cons_append, List.getElem?_append_left (by simp)]
    exact last
  have header : ∀ x, x < prev * pageSize ∨ prev * pageSize + 8 ≤ x →
      (t₁.write prev LeafNodeContinuationPage.nextOffset 8 (leBytes 8 r)).mem x = t₁.mem x := fun x outside =>
    overwrite_outside (by unfold LeafNodeContinuationPage.nextOffset; omega)
  refine ⟨⟨⟨lists₁, space'⟩, ?_, ?_, ?_, ?_, frame.trans (touched.frame space₁)⟩, next⟩
  · intro i p found
    by_cases here : i = regions.length
    · subst here
      cases Option.some.inj (found.symm.trans last')
      have after : (page :: (regions ++ [r]))[regions.length + 1]? = some r := by simp
      rw [after, LeafNodeContinuationPage.next]
      refine (leAt_overwrite_self _ _ _ _).trans ?_
      exact Nat.mod_eq_of_lt small
    · have different : p ≠ prev := by
        rintro rfl
        have apart := chainRegions_apart nodup found last' here
        have size := Nat.two_pow_pos i
        have size' := Nat.two_pow_pos regions.length
        omega
      have unchanged : LeafNodeContinuationPage.next (t₁.write prev LeafNodeContinuationPage.nextOffset 8 (leBytes 8 r)).mem p =
          LeafNodeContinuationPage.next t₁.mem p :=
        SamePage.leAt_eq (.overwrite different (by decide)) (by decide)
      rw [unchanged]
      have bound := (List.getElem?_eq_some_iff.mp found).1
      rw [List.length_cons, List.length_append, List.length_singleton] at bound
      rcases Nat.lt_or_ge i regions.length with before | beyond
      · have old : (page :: regions)[i]? = some p := by
          rw [← found, ← List.cons_append, List.getElem?_append_left (by simp; omega)]
        have link := chained i p old
        have same := leafSame p (regionPage_mem (k := 0) old (Nat.two_pow_pos i))
        rw [← List.cons_append, List.getElem?_append_left (by simp; omega)]
        exact (same.leAt_eq (by decide)).trans link
      · have is : i = regions.length + 1 := by omega
        subst is
        have new : p = r := by simpa using found.symm
        subst new
        have zero := allocated.zero p le_rfl (Nat.lt_add_of_pos_right (Nat.two_pow_pos _))
        refine (zero.leAt_eq (by decide)).trans ?_
        simp
  · rw [leafExtents_snoc]
    refine Stores.congr (m := t₁.mem) (Stores.grow (stores.congr fun i inside => ?_) ?_ zero) fun i inside => header _ ?_
    · exact (leafSame _ (leafExtents_page inside)).byte
    · rw [total_leafExtents]
      exact fits
    · rw [← leafExtents_snoc] at inside ⊢
      have apart := leafExtents_header nodup last' inside
      have size : 8 ≤ headerSize regions.length := by
        cases regions.length with
        | zero => exact (by decide : 8 ≤ LeafNodeStartPage.dataOffset)
        | succ n => exact (by decide : 8 ≤ LeafNodeContinuationPage.dataOffset)
      omega
  · have before := (leafSame page (start_mem page regions)).leAt_eq (show LeafNodeStartPage.usageOffset + 8 ≤ pageSize by decide)
    refine (leAt_congr fun i within => header _ ?_).trans before
    unfold LeafNodeStartPage.usageOffset pageSize
    omega
  · have before := (leafSame page (start_mem page regions)).leAt_eq (show LeafNodeStartPage.entryCountOffset + 2 ≤ pageSize by decide)
    refine (leAt_congr fun i within => header _ ?_).trans before
    unfold LeafNodeStartPage.entryCountOffset pageSize
    omega

theorem createContinuationLogged_fits {d prev : Nat} (space : Space lists (held + leafPages page regions) t)
    (chained : Chained t.mem (page :: regions)) (stores : Stores t.mem (leafExtents page regions) bytes)
    (fits : bytes.length ≤ chainCapacity regions.length) (found : (page :: regions)[d]? = some prev) (few : d + n ≤ 30) :
    Fits (MetaPage.nextFreePage t.mem + (2 ^ (d + n + 1) - 2 ^ (d + 1))) (createContinuationLogged n (d + 1) prev t) fun log t' =>
      ∃ new, regions.length + new.length = max regions.length (d + n) ∧ log = new.zipIdx (regions.length + 1) ∧
        Reshaped held page (regions ++ new) bytes t t' := by
  have inside : d ≤ regions.length := Nat.le_of_lt_succ (List.getElem?_eq_some_iff.mp found).1
  induction n generalizing lists t regions d prev with
  | zero => exact .intro rfl ⟨[], by rw [List.length_nil]; omega, rfl, by rw [List.append_nil]; exact .refl space chained stores⟩ (Nat.le_add_right _ _)
  | succ n ih =>
    have positive := Nat.two_pow_pos d
    have mono : 2 ^ (d + 1 + 1) ≤ 2 ^ (d + 1 + n + 1) := Nat.pow_le_pow_right (by decide) (by omega)
    have shift : d + (n + 1) = d + 1 + n := by omega
    have link := chained d prev found
    rw [createContinuationLogged, getPage_bind, link, shift]
    rw [List.getElem?_cons_succ]
    by_cases more : d < regions.length
    · have next : (page :: regions)[d + 1]? = some regions[d] := by rw [List.getElem?_cons_succ, List.getElem?_eq_getElem more]
      have mine := regionPage_mem (k := 0) next (Nat.two_pow_pos _)
      have bounds := space.held_bounds (Multiset.mem_add.mpr (Or.inr mine))
      rw [List.getElem?_eq_getElem more, Option.getD_some, if_neg (by omega)]
      exact (ih space chained stores fits next (by omega) more).mono (by omega) fun _ _ post => post
    · have is : d = regions.length := by omega
      subst is
      rw [List.getElem?_eq_none le_rfl, Option.getD_none, if_pos rfl]
      refine (allocate_fits space (by omega)).bind (by omega) fun r t₁ allocated le => ?_
      obtain ⟨reshaped, same⟩ := append_region chained stores fits found allocated
      obtain ⟨lists', space'⟩ := reshaped.space
      have length : (regions ++ [r]).length = regions.length + 1 := by simp
      rw [writeInt_bind]
      have last : (page :: (regions ++ [r]))[regions.length + 1]? = some r := by simp
      have rest := ih space' reshaped.chained reshaped.stores (fits.trans (chainCapacity_mono (by omega))) last (by omega) length.ge
      refine rest.bind (by omega) ?_
      rintro log t' ⟨new, longer, rfl, later⟩ le'
      refine .intro rfl ⟨r :: new, ?_, ?_, ?_⟩ (le'.trans (by omega))
      · rw [List.length_cons]
        omega
      · rw [List.zipIdx_cons, length]
      · rw [← List.append_cons] at later
        exact reshaped.trans later

theorem createRegionsLogged_fits (space : Space lists (held + leafPages page regions) t)
    (chained : Chained t.mem (page :: regions)) (stores : Stores t.mem (leafExtents page regions) bytes)
    (fits : bytes.length ≤ chainCapacity regions.length) (size : entrySize ≤ chainCapacity 30) :
    Fits (MetaPage.nextFreePage t.mem + entrySize / 512) (createRegionsLogged page entrySize t) fun log t' =>
      ∃ new n, n ≤ 30 ∧ Requires entrySize n ∧ regions.length + new.length = max regions.length n ∧
        log = new.zipIdx (regions.length + 1) ∧ Reshaped held page (regions ++ new) bytes t t' := by
  obtain ⟨n, few, requires, run⟩ := requiredContinuationRegions_run (t := t) size
  have cost := requires.cost
  rw [createRegionsLogged, Program.done_bind run]
  refine (createContinuationLogged_fits (d := 0) space chained stores fits rfl (by omega)).mono (by rw [Nat.zero_add]; omega) ?_
  rintro log t' ⟨new, length, noted, reshaped⟩
  exact ⟨new, n, few, requires, by rw [length, Nat.zero_add], noted, reshaped⟩

end BigValue

end DiskMap
