import DiskMap.Map.LeafChain
import DiskMap.Map.Touched

namespace DiskMap
open ByteMemory

/-- The loop of `free_leaf`. There are no lists for regions behind those of the highest order. -/
def freeLeafFrom : Nat → Nat → Nat → TxProgram Unit
  | 0, _, _ => .stuck
  | fuel + 1, page, order => do
    let next ← getPage fun m => LeafNodeContinuationPage.next m page
    SpaceManager.free page order
    if next = 0 then pure () else freeLeafFrom fuel next (order + 1)

def freeLeaf (page : Nat) : TxProgram Unit := freeLeafFrom (maxOrder + 1) page 0

variable {lists : Nat → FreeList} {held : Multiset Nat} {t : Tx} {page order : Nat} {rest : List Nat}

theorem pagesOf_zipIdx_cons (page order : Nat) (rest : List Nat) :
    pagesOf ((page :: rest).zipIdx order : List (Nat × Nat)) =
      Multiset.Ico page (page + 2 ^ order) + pagesOf (rest.zipIdx (order + 1) : List (Nat × Nat)) := by
  rw [List.zipIdx_cons, ← Multiset.cons_coe, pagesOf_cons]

theorem mem_pagesOf_zipIdx {q : Nat} (member : q ∈ rest) : q ∈ pagesOf (rest.zipIdx order : List (Nat × Nat)) := by
  obtain ⟨i, found⟩ := List.mem_iff_getElem?.mp member
  refine mem_pagesOf.mpr ⟨(q, order + i), Multiset.mem_coe.mpr ?_, le_rfl, Nat.lt_add_of_pos_right (Nat.two_pow_pos _)⟩
  rw [List.mk_mem_zipIdx_iff_le_and_getElem?_sub]
  exact ⟨Nat.le_add_right _ _, by rwa [Nat.add_sub_cancel_left]⟩

theorem freeLeafFrom_fits {fuel : Nat} (space : Space lists (held + pagesOf ((page :: rest).zipIdx order : List (Nat × Nat))) t)
    (chained : Chained t.mem (page :: rest)) (within : order + rest.length ≤ maxOrder) (enough : rest.length < fuel) :
    Fits (MetaPage.nextFreePage t.mem + (rest.length + 1)) (freeLeafFrom fuel page order t) fun _ t' =>
      (∃ lists', Space lists' held t') ∧ Frame held t t' := by
  induction rest generalizing lists t page order fuel with
  | nil =>
    obtain ⟨fuel, rfl⟩ := Nat.exists_eq_succ_of_ne_zero (Nat.ne_of_gt enough)
    rw [pagesOf_zipIdx_cons] at space
    have last : LeafNodeContinuationPage.next t.mem page = 0 := (chained_cons.mp chained).1
    rw [freeLeafFrom, getPage_bind, last, if_pos rfl]
    refine (free_fits (show Space lists (held + _) t by simpa [pagesOf] using space) within).bind le_rfl fun _ t' freed le => ?_
    obtain ⟨lists', space', _⟩ := freed.space
    exact .intro rfl ⟨⟨lists', space'⟩, freed.frame⟩ le
  | cons q rest ih =>
    obtain ⟨fuel, rfl⟩ := Nat.exists_eq_succ_of_ne_zero (Nat.ne_of_gt (Nat.zero_lt_of_lt enough))
    obtain ⟨first, later⟩ := chained_cons.mp chained
    rw [pagesOf_zipIdx_cons, add_comm (Multiset.Ico _ _), ← add_assoc] at space
    have next : LeafNodeContinuationPage.next t.mem page = q := first
    have mine : ∀ p ∈ q :: rest, p ∈ held + pagesOf ((q :: rest).zipIdx (order + 1) : List (Nat × Nat)) := fun p member =>
      Multiset.mem_add.mpr (Or.inr (mem_pagesOf_zipIdx member))
    have bounds := space.held_bounds (Multiset.mem_add.mpr (Or.inl (mine q List.mem_cons_self)))
    rw [List.length_cons] at within enough ⊢
    rw [freeLeafFrom, getPage_bind, next, if_neg (by omega)]
    refine (free_fits space (by omega)).bind (by omega) fun _ t₁ freed le => ?_
    obtain ⟨lists₁, space₁, _⟩ := freed.space
    refine (ih space₁ (later.congr fun p member => freed.frame.pages p (mine p member)) (by omega) (by omega)).mono (by omega) ?_
    rintro _ t' ⟨space', frame⟩
    refine ⟨space', ?_⟩
    exact (freed.frame.mono fun p member => Multiset.mem_add.mpr (Or.inl member)).trans frame

theorem freeLeaf_fits {regions : List Nat} (space : Space lists (held + leafPages page regions) t)
    (chained : Chained t.mem (page :: regions)) (few : regions.length ≤ maxOrder) :
    Fits (MetaPage.nextFreePage t.mem + (regions.length + 1)) (freeLeaf page t) fun _ t' =>
      (∃ lists', Space lists' held t') ∧ Frame held t t' :=
  freeLeafFrom_fits space chained (by omega) (Nat.lt_succ_of_le few)

/-- There is no room on the top page of a free list, and no page above it. -/
def ListFull (m : Mem) (order : Nat) : Prop :=
  MetaPage.lastFplPageEntries m order = fplPageCapacity ∧ FPLPage.next m (MetaPage.lastFplPage m order) = 0

instance (m : Mem) (order : Nat) : Decidable (ListFull m order) := inferInstanceAs (Decidable (_ ∧ _))

theorem Space.listFull_iff (space : Space lists held t) (within : order ≤ maxOrder) :
    ListFull t.mem order ↔ (lists order).entries.length = fplPageCapacity ∧ (lists order).spare = [] := by
  have at_ := space.stored order within
  have links := at_.stored.above
  rw [ListFull, at_.count, at_.page]
  refine and_congr_right fun _ => ?_
  cases above : (lists order).spare with
  | nil =>
    rw [above] at links
    exact iff_of_true links rfl
  | cons q rest =>
    rw [above] at links
    have member : q ∈ (lists order).pages := PagedStack.mem_pages.mpr (Or.inr (Or.inr (by rw [above]; exact List.mem_cons_self)))
    have bounds := space.fpl_bounds within member
    have next : FPLPage.next t.mem (lists order).page = q := links.1
    rw [next]
    exact iff_of_false (by omega) (List.cons_ne_nil q rest)

/-- What freeing leaves alone besides the pages of the clients. -/
structure Listed (lists : Nat → FreeList) (held : Multiset Nat) (order : Nat) (t t' : Tx) : Prop where
  space : ∃ s, Space (Function.update lists order s) held t' ∧ (lists order).pages.Perm s.pages
  frame : Frame held t t'
  same : ∀ p, 1 ≤ p → p ∉ fplPages lists → SamePage t.mem t'.mem p
  next : MetaPage.nextFreePage t'.mem = MetaPage.nextFreePage t.mem

theorem Space.listed_open {page : Nat} {s : FreeList} {t' : Tx} (space : Space lists (held + Multiset.Ico page (page + 2 ^ order)) t)
    (within : order ≤ maxOrder) (space' : Space (Function.update lists order s) held t') (perm : (lists order).pages.Perm s.pages)
    (same : ∀ p, 1 ≤ p → p ∉ (lists order).pages → SamePage t.mem t'.mem p)
    (kv : MetaPage.kvEntryCount t'.mem = MetaPage.kvEntryCount t.mem)
    (next : MetaPage.nextFreePage t'.mem = MetaPage.nextFreePage t.mem) (stray : t'.strayWrites = t.strayWrites) :
    Listed lists held order t t' :=
  ⟨⟨s, space', perm⟩, (space.freed within space' same kv next stray).frame,
    fun p low outside => same p low fun member => outside (Space.mem_fplPages.mpr ⟨order, within, member⟩), next⟩

/-- With room in the list the region is only listed. -/
theorem free_open (space : Space lists (held + Multiset.Ico page (page + 2 ^ order)) t) (within : order ≤ maxOrder)
    (open_ : ¬ ListFull t.mem order) : (SpaceManager.free page order t).Ends fun _ t' => Listed lists held order t t' := by
  have at_ := space.stored order within
  have mine : page ∈ held + Multiset.Ico page (page + 2 ^ order) := by
    refine Multiset.mem_add.mpr (Or.inr (Multiset.mem_Ico.mpr ⟨le_rfl, ?_⟩))
    have positive := Nat.two_pow_pos order
    omega
  have reserved := space.held_maxOrder mine
  have bounds := space.held_bounds mine
  have bound : MetaPage.nextFreePage t.mem ≤ 2 ^ 51 := space.bound
  have quiet : ∀ p ∈ (lists order).pages, Tx.onFreeList t p = false := fun p member =>
    space.not_onFreeList (Or.inr (Or.inl (Space.mem_fplPages.mpr ⟨order, within, member⟩)))
  rw [space.listFull_iff within, not_and] at open_
  unfold SpaceManager.free
  rw [if_neg (by omega), getPage_bind, at_.count, getPage_bind, at_.page]
  by_cases roomy : (lists order).entries.length < fplPageCapacity
  · obtain ⟨space', kv, next, same⟩ := space.push_space within roomy (by omega) rfl rfl
    rw [if_pos roomy, Program.done_bind (listRegion_run (quiet _ (PagedStack.mem_pages.mpr (Or.inl rfl))) _), writeInt_run,
      Tx.write_quiet (space.meta_quiet _)]
    exact .intro rfl (space.listed_open within space' (List.Perm.refl _) same kv next rfl)
  · have full : (lists order).entries.length = fplPageCapacity := le_antisymm at_.stored.room (Nat.not_lt.mp roomy)
    obtain ⟨q, rest, above⟩ := List.exists_cons_of_ne_nil (open_ full)
    have links := at_.stored.above
    rw [above] at links
    have next : FPLPage.next t.mem (lists order).page = q := links.1
    have member : q ∈ (lists order).pages := PagedStack.mem_pages.mpr (Or.inr (Or.inr (by rw [above]; exact List.mem_cons_self)))
    have low := space.fpl_bounds within member
    have perm : (lists order).pages.Perm ((lists order).advance q rest page).pages := by
      rw [PagedStack.pages, above]
      exact (PagedStack.advance_pages q rest page).symm
    obtain ⟨space', kv, next', same⟩ := space.advance_space within full above (by omega) rfl rfl rfl
    rw [if_neg roomy, getPage_bind, next, if_neg (by omega), Program.done_bind (listRegion_run (quiet q member) 0), writeInt_bind,
      Tx.write_quiet (space.meta_quiet _), writeInt_run, Tx.write_quiet (space.meta_quiet _)]
    exact .intro rfl (space.listed_open within space' perm same kv next' rfl)

/-- The pages of a leaf keep their bytes when the lists have room for its regions. -/
theorem freeLeafFrom_open {fuel : Nat} (space : Space lists (held + pagesOf ((page :: rest).zipIdx order : List (Nat × Nat))) t)
    (chained : Chained t.mem (page :: rest)) (within : order + rest.length ≤ maxOrder) (enough : rest.length < fuel)
    (open_ : ∀ o, order ≤ o → o ≤ order + rest.length → ¬ ListFull t.mem o) :
    (freeLeafFrom fuel page order t).Ends fun _ t' => (∃ lists', Space lists' held t') ∧ Frame held t t' ∧
      (∀ p, 1 ≤ p → p ∉ fplPages lists → SamePage t.mem t'.mem p) ∧ MetaPage.nextFreePage t'.mem = MetaPage.nextFreePage t.mem := by
  induction rest generalizing lists t page order fuel with
  | nil =>
    obtain ⟨fuel, rfl⟩ := Nat.exists_eq_succ_of_ne_zero (Nat.ne_of_gt enough)
    rw [pagesOf_zipIdx_cons] at space
    have last : LeafNodeContinuationPage.next t.mem page = 0 := (chained_cons.mp chained).1
    rw [freeLeafFrom, getPage_bind, last, if_pos rfl]
    refine (free_open (show Space lists (held + _) t by simpa [pagesOf] using space) within (open_ order le_rfl (Nat.le_add_right _ _))).bind
      fun _ t' listed => ?_
    obtain ⟨s, space', _⟩ := listed.space
    exact .intro rfl ⟨⟨_, space'⟩, listed.frame, listed.same, listed.next⟩
  | cons q rest ih =>
    obtain ⟨fuel, rfl⟩ := Nat.exists_eq_succ_of_ne_zero (Nat.ne_of_gt (Nat.zero_lt_of_lt enough))
    obtain ⟨first, later⟩ := chained_cons.mp chained
    rw [pagesOf_zipIdx_cons, add_comm (Multiset.Ico _ _), ← add_assoc] at space
    have next : LeafNodeContinuationPage.next t.mem page = q := first
    have mine : ∀ p ∈ q :: rest, p ∈ held + pagesOf ((q :: rest).zipIdx (order + 1) : List (Nat × Nat)) := fun p member =>
      Multiset.mem_add.mpr (Or.inr (mem_pagesOf_zipIdx member))
    have bounds := space.held_bounds (Multiset.mem_add.mpr (Or.inl (mine q List.mem_cons_self)))
    rw [List.length_cons] at within enough open_
    rw [freeLeafFrom, getPage_bind, next, if_neg (by omega)]
    refine (free_open space (by omega) (open_ order le_rfl (by omega))).bind fun _ t₁ listed => ?_
    obtain ⟨s, space₁, perm⟩ := listed.space
    have pages := fplPages_update (by omega : order ≤ maxOrder) perm
    have open₁ : ∀ o, order + 1 ≤ o → o ≤ order + 1 + rest.length → ¬ ListFull t₁.mem o := by
      intro o lower upper
      have before := open_ o (by omega) (by omega)
      rw [space.listFull_iff (by omega)] at before
      rw [space₁.listFull_iff (by omega), Function.update_of_ne (by omega)]
      exact before
    refine (ih space₁ (later.congr fun p member => listed.frame.pages p (mine p member)) (by omega) (by omega) open₁).mono ?_
    rintro _ t' ⟨space', frame, same, next'⟩
    refine ⟨space', ?_, fun p low outside => ?_, next'.trans listed.next⟩
    · exact (listed.frame.mono fun p member => Multiset.mem_add.mpr (Or.inl member)).trans frame
    · exact (listed.same p low outside).trans (same p low (by rw [pages]; exact outside))

theorem freeLeaf_open {regions : List Nat} (space : Space lists (held + leafPages page regions) t)
    (chained : Chained t.mem (page :: regions)) (few : regions.length ≤ maxOrder)
    (open_ : ∀ order, order ≤ regions.length → ¬ ListFull t.mem order) :
    (freeLeaf page t).Ends fun _ t' => (∃ lists', Space lists' held t') ∧ Frame held t t' ∧ SamePage t.mem t'.mem page ∧
      MetaPage.nextFreePage t'.mem = MetaPage.nextFreePage t.mem := by
  have mine : page ∈ held + leafPages page regions := Multiset.mem_add.mpr (Or.inr (start_mem page regions))
  have bounds := space.held_bounds mine
  refine (freeLeafFrom_open space chained (by omega) (Nat.lt_succ_of_le few) fun o _ upper => open_ o (by omega)).mono
    fun _ t' ⟨space', frame, same, next⟩ => ⟨space', frame, same page (by omega) fun fpl => (space.apart.1 fpl).2 mine, next⟩

end DiskMap
