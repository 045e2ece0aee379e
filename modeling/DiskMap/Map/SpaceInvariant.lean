import DiskMap.Map.FreeLists

namespace DiskMap
open ByteMemory

variable {lists : Nat → FreeList} {held : Multiset Nat} {t t' : Tx} {m m' : Mem} {order : Nat}

theorem fplLinks_sameOn {pages : List Nat} (same : ∀ page ∈ pages, SamePage m m' page) :
    PagedStack.SameOn (fplLinks m) (fplLinks m') fplPageCapacity pages where
  null := rfl
  previous page member := (FPLPage.congr (same page member)).1
  next page member := (FPLPage.congr (same page member)).2.1
  entry page member := (FPLPage.congr (same page member)).2.2

/-- One list changes, and the pages of the others stay as they are. -/
theorem Space.stored_update (space : Space lists held t) {s : FreeList} {kv next : Nat} (within : order ≤ maxOrder)
    (fields : MetaIs m' kv next (Function.update (MetaPage.lastFplPage t.mem) order s.page)
      (Function.update (MetaPage.lastFplPageEntries t.mem) order s.entries.length))
    (stored : s.Stored (fplLinks m') fplPageCapacity)
    (others : ∀ o, o ≤ maxOrder → o ≠ order → ∀ page ∈ (lists o).pages, SamePage t.mem m' page) :
    ∀ o, o ≤ maxOrder → FreeListAt m' o (Function.update lists order s o) := by
  intro o within'
  by_cases same : o = order
  · subst same
    have page := fields.lastFplPage o within
    have count := fields.lastFplPageEntries o within
    rw [Function.update_self] at page count ⊢
    exact ⟨page, count, stored⟩
  · have page := fields.lastFplPage o within'
    have count := fields.lastFplPageEntries o within'
    rw [Function.update_of_ne same] at page count ⊢
    have before := space.stored o within'
    exact ⟨page.trans before.page, count.trans before.count,
      before.stored.congr (fplLinks_sameOn (others o within' same))⟩

theorem Space.base_update (space : Space lists held t) {s : FreeList} (grown : ∀ page ∈ (lists order).pages, page ∈ s.pages) :
    ∀ o, o ≤ maxOrder → o + 2 ∈ (Function.update lists order s o).pages := by
  intro o within
  by_cases same : o = order
  · subst same
    rw [Function.update_self]
    exact grown _ (space.base o within)
  · rw [Function.update_of_ne same]
    exact space.base o within

theorem Space.mem_freeListed (space : Space lists held t) {page : Nat} (within : order ≤ maxOrder)
    (member : page ∈ (lists order).elements) : (page, order) ∈ t.freeListed := by
  have inside : (page, order) ∈ freeRegions lists := by
    refine Multiset.mem_sum.mpr ⟨order, Finset.mem_range.mpr (Nat.lt_succ_of_le within), ?_⟩
    exact Multiset.mem_coe.mpr (List.mem_map_of_mem member)
  rw [← space.listed] at inside
  exact Multiset.mem_coe.mp inside

/-- The result of `allocate`: a region that the caller holds from now on. -/
structure Allocated (lists : Nat → FreeList) (held : Multiset Nat) (order : Nat) (t : Tx) (page : Nat) (t' : Tx) : Prop where
  space : ∃ lists', Space lists' (held + Multiset.Ico page (page + 2 ^ order)) t' ∧ fplPages lists' = fplPages lists ∧
    ∀ o, o ≠ order → lists' o = lists o
  frame : Frame held t t'
  zero : ∀ p, page ≤ p → p < page + 2 ^ order → ZeroPage t'.mem p
  next : MetaPage.nextFreePage t'.mem ≤ MetaPage.nextFreePage t.mem + 2 ^ order

theorem allocateFresh_allocated (space : Space lists held t)
    (room : MetaPage.nextFreePage t.mem + 2 ^ order ≤ maxPages) :
    (SpaceManager.allocateFresh order t).Ends (Allocated lists held order t) := by
  let next := MetaPage.nextFreePage t.mem
  have quiet := space.not_onFreeList (Or.inl (show 0 < 2 by omega))
  have small : next + 2 ^ order < 2 ^ 64 := lt_of_le_of_lt room (by decide)
  have ended : SpaceManager.allocateFresh order t = .done next { t with
      mem := overwrite t.mem (0 * pageSize + MetaPage.nextFreePageOffset) 8 (leBytes 8 (next + 2 ^ order)) } := by
    unfold SpaceManager.allocateFresh getPage writeInt
    rw [Program.read_bind, if_neg (Nat.not_lt.mpr room), Program.modify_bind, Program.pure_run, Tx.write_quiet quiet]
  have fields := (MetaIs.refl t.mem).setNextFreePage small
  have same : ∀ page, 1 ≤ page → SamePage t.mem
      (overwrite t.mem (0 * pageSize + MetaPage.nextFreePageOffset) 8 (leBytes 8 (next + 2 ^ order))) page :=
    fun page low => .overwrite (by omega) (by decide)
  refine .intro ended ⟨⟨lists, ?_, rfl, fun _ _ => rfl⟩, ?_, ?_, fields.nextFreePage.le⟩
  · refine
      { stored := fun o within => ?_
        base := space.base
        listed := space.listed
        owned := ?_
        bound := ?_
        fresh := fun page above => ?_ }
    · have before := space.stored o within
      refine ⟨(fields.lastFplPage o within).trans before.page, (fields.lastFplPageEntries o within).trans before.count,
        before.stored.congr (fplLinks_sameOn fun page member => same page ?_)⟩
      have bounds := space.fpl_bounds within member
      omega
    · show fplPages lists + pagesOf t.freeListed + (held + Multiset.Ico next (next + 2 ^ order)) = _
      have low : 2 ≤ next := by
        have bounds := space.fpl_bounds (Nat.zero_le _) (space.base 0 (Nat.zero_le _))
        omega
      rw [← add_assoc, space.owned, fields.nextFreePage]
      exact Multiset.Ico_add_Ico_eq_Ico low (Nat.le_add_right _ _)
    · rw [fields.nextFreePage]
      exact room
    · rw [fields.nextFreePage] at above
      have positive := Nat.two_pow_pos order
      exact (space.fresh page (by omega)).congr (same page (by omega))
  · refine ⟨fun page member => same page ?_, same 1 le_rfl, fields.kvEntryCount, rfl⟩
    have bounds := space.held_bounds member
    omega
  · intro p lower _
    have bounds := space.fpl_bounds (Nat.zero_le _) (space.base 0 (Nat.zero_le _))
    exact (space.fresh p lower).congr (same p (by omega))

theorem overwrite_zeros_succ (m : Mem) (page n : Nat) :
    overwrite (overwrite m (page * pageSize) (n * pageSize) []) ((page + n) * pageSize) pageSize [] =
      overwrite m (page * pageSize) ((n + 1) * pageSize) [] := by
  have next : (page + n) * pageSize = page * pageSize + n * pageSize := Nat.add_mul _ _ _
  have total : (n + 1) * pageSize = n * pageSize + pageSize := Nat.succ_mul _ _
  rw [next, total]
  generalize page * pageSize = first
  generalize n * pageSize = length
  funext a
  simp only [overwrite, List.getD_nil]
  split
  · rw [if_pos (by omega)]
  · split
    · rw [if_pos (by omega)]
    · rw [if_neg (by omega)]

theorem clearRegion_run (page n : Nat) (t : Tx) :
    SpaceManager.clearRegion page n t = .done () { t with mem := overwrite t.mem (page * pageSize) (n * pageSize) [] } := by
  induction n with
  | zero =>
    have nothing : overwrite t.mem (page * pageSize) (0 * pageSize) [] = t.mem := by
      funext a
      exact overwrite_outside (by omega)
    rw [SpaceManager.clearRegion, Program.pure_run, nothing]
  | succ n ih =>
    rw [SpaceManager.clearRegion, Program.done_bind ih, ← overwrite_zeros_succ]
    rfl

theorem samePage_clear {first n page : Nat} (outside : page < first ∨ first + n ≤ page) :
    SamePage m (overwrite m (first * pageSize) (n * pageSize) []) page := by
  intro i within
  refine overwrite_outside ?_
  unfold pageSize at within ⊢
  omega

theorem zeroPage_clear {first n page : Nat} (lower : first ≤ page) (upper : page < first + n) :
    ZeroPage (overwrite m (first * pageSize) (n * pageSize) []) page := by
  intro i within
  rw [overwrite_inside, List.getD_nil]
  · unfold pageSize
    omega
  · unfold pageSize at within ⊢
    omega

/-- The list without its last region, as the meta page shows it. -/
theorem pop_fields {s : FreeList} {entries : List Nat} {a : Nat} (stored : s.Stored (fplLinks m) fplPageCapacity)
    (last : s.entries = entries ++ [a]) (positive : ∀ page ∈ s.pages, page ≠ 0) :
    if entries.length = 0 ∧ FPLPage.previous m s.page ≠ 0 then
      s.pop.page = FPLPage.previous m s.page ∧ s.pop.entries.length = fplPageCapacity
    else s.pop.page = s.page ∧ s.pop.entries.length = entries.length := by
  have rest : s.entries.dropLast = entries := by rw [last, List.dropLast_concat]
  have below := stored.below
  unfold PagedStack.pop
  rw [rest]
  cases entries with
  | nil =>
    cases full : s.full with
    | nil =>
      rw [full] at below
      have none_ : FPLPage.previous m s.page = 0 := PagedStack.below_nil.mp below
      rw [if_neg (fun both => both.2 none_)]
      exact ⟨rfl, rfl⟩
    | cons top deeper =>
      obtain ⟨q, entries⟩ := top
      rw [full] at below
      have linked := PagedStack.below_cons.mp below
      have link : FPLPage.previous m s.page = q := linked.1
      have member : q ∈ s.pages := PagedStack.mem_pages.mpr (Or.inr (Or.inl (by rw [full]; exact List.mem_cons_self)))
      rw [link, if_pos ⟨rfl, positive q member⟩]
      exact ⟨rfl, linked.2.2.1⟩
  | cons first more =>
    rw [if_neg (fun both => by cases both.1)]
    exact ⟨rfl, rfl⟩

/-- The regions of one list are those that the others do not have. -/
theorem Space.listed_update (space : Space lists held t) {s : FreeList} (within : order ≤ maxOrder) {page : Nat}
    (perm : (lists order).elements.Perm (page :: s.elements)) :
    ((t.freeListed.erase (page, order) : List (Nat × Nat)) : Multiset (Nat × Nat)) =
      freeRegions (Function.update lists order s) := by
  have shrunk : ((lists order).elements.map (fun page => (page, order)) : Multiset (Nat × Nat)) =
      (s.elements.map fun page => (page, order) : List (Nat × Nat)) + {(page, order)} := by
    rw [Multiset.coe_eq_coe.mpr (perm.map _), List.map_cons, ← Multiset.cons_coe, ← Multiset.singleton_add, add_comm]
  have total : freeRegions lists = freeRegions (Function.update lists order s) + {(page, order)} :=
    sum_update_shrink (f := fun o list => ((list.elements.map fun page => (page, o) : List (Nat × Nat)) : Multiset (Nat × Nat))) within shrunk
  have member : (page, order) ∈ t.freeListed :=
    space.mem_freeListed within (perm.mem_iff.mpr List.mem_cons_self)
  have whole : (page, order) ::ₘ ((t.freeListed.erase (page, order) : List (Nat × Nat)) : Multiset (Nat × Nat)) =
      (page, order) ::ₘ freeRegions (Function.update lists order s) := by
    rw [Multiset.cons_coe, ← Multiset.coe_eq_coe.mpr (List.perm_cons_erase member), space.listed, total, add_comm,
      Multiset.singleton_add]
  exact (Multiset.cons_inj_right _).mp whole

theorem fplPages_update {s : FreeList} (within : order ≤ maxOrder) (perm : (lists order).pages.Perm s.pages) :
    fplPages (Function.update lists order s) = fplPages lists := by
  have same : (s.pages : Multiset Nat) = (lists order).pages + 0 := by
    rw [add_zero, Multiset.coe_eq_coe.mpr perm]
  exact (sum_update_grow (f := fun _ list => (list.pages : Multiset Nat)) within same).trans (add_zero _)

theorem pagesOf_erase {regions : List (Nat × Nat)} {region : Nat × Nat} (member : region ∈ regions) :
    pagesOf regions = Multiset.Ico region.1 (region.1 + 2 ^ region.2) + pagesOf (regions.erase region : List (Nat × Nat)) := by
  rw [← pagesOf_cons, Multiset.cons_coe, Multiset.coe_eq_coe.mpr (List.perm_cons_erase member)]

/-- A free-listed region meets neither a free-page-list page nor a page of a client. -/
theorem Space.outside_region (space : Space lists held t) {region : Nat × Nat} (member : region ∈ t.freeListed) {page : Nat}
    (elsewhere : page < 2 ∨ page ∈ fplPages lists ∨ page ∈ held ∨ MetaPage.nextFreePage t.mem ≤ page) :
    page < region.1 ∨ region.1 + 2 ^ region.2 ≤ page := by
  by_contra inside
  have free : page ∈ pagesOf t.freeListed := mem_pagesOf.mpr ⟨region, Multiset.mem_coe.mpr member, by omega, by omega⟩
  have bounds := space.mem_iff.mp (Or.inr (Or.inl free))
  rcases elsewhere with low | fpl | mine | high
  · omega
  · exact (space.apart.1 fpl).1 free
  · exact space.apart.2 free mine
  · omega

/-- What `allocateFreed` leaves behind: the last region is cleared and out of the list. -/
theorem Space.popped (space : Space lists held t) (within : order ≤ maxOrder) {entries : List Nat} {a : Nat}
    (last : (lists order).entries = entries ++ [a])
    (fields : MetaIs m' (MetaPage.kvEntryCount t.mem) (MetaPage.nextFreePage t.mem)
      (Function.update (MetaPage.lastFplPage t.mem) order (lists order).pop.page)
      (Function.update (MetaPage.lastFplPageEntries t.mem) order (lists order).pop.entries.length))
    (same : ∀ page, 1 ≤ page → SamePage (overwrite t.mem (a * pageSize) (2 ^ order * pageSize) []) m' page) :
    Allocated lists held order t a { t with mem := m', freeListed := t.freeListed.erase (a, order) } := by
  obtain ⟨pages, elements⟩ := PagedStack.pop_of_snoc last
  have member : (a, order) ∈ t.freeListed := space.mem_freeListed within (elements.mem_iff.mpr List.mem_cons_self)
  have keeps : ∀ page, 1 ≤ page → page < 2 ∨ page ∈ fplPages lists ∨ page ∈ held ∨ MetaPage.nextFreePage t.mem ≤ page →
      SamePage t.mem m' page :=
    fun page low elsewhere => (samePage_clear (space.outside_region member elsewhere)).trans (same page low)
  have fpl : ∀ o, o ≤ maxOrder → ∀ page ∈ (lists o).pages, SamePage t.mem m' page := by
    intro o within' page inside
    have bounds := space.fpl_bounds within' inside
    exact keeps page (by omega) (Or.inr (Or.inl (Space.mem_fplPages.mpr ⟨o, within', inside⟩)))
  have low : 2 ≤ MetaPage.nextFreePage t.mem := by
    have bounds := space.fpl_bounds (Nat.zero_le _) (space.base 0 (Nat.zero_le _))
    omega
  refine ⟨⟨Function.update lists order (lists order).pop, ?_, fplPages_update within pages,
    fun o other => Function.update_of_ne other _ _⟩, ?_, fun p lower upper => ?_,
    fields.nextFreePage.le.trans (Nat.le_add_right _ _)⟩
  · refine
      { stored := space.stored_update within fields ?_ fun o within' _ => fpl o within'
        base := space.base_update fun page inside => pages.mem_iff.mp inside
        listed := space.listed_update within elements
        owned := ?_
        bound := by rw [fields.nextFreePage]; exact space.bound
        fresh := fun page above => ?_ }
    · refine ((space.stored order within).stored.pop last (by decide)).congr (fplLinks_sameOn fun page inside => ?_)
      exact fpl order within page (pages.mem_iff.mpr inside)
    · rw [fplPages_update within pages, fields.nextFreePage, ← space.owned, pagesOf_erase member]
      show _ + pagesOf _ + (held + _) = _ + (_ + pagesOf _) + held
      rw [add_comm held, add_left_comm, add_assoc, add_assoc, add_assoc, add_left_comm]
    · rw [fields.nextFreePage] at above
      exact (space.fresh page above).congr (keeps page (by omega) (Or.inr (Or.inr (Or.inr above))))
  · refine ⟨fun page mine => ?_, keeps 1 le_rfl (Or.inl (by omega)), fields.kvEntryCount, rfl⟩
    have bounds := space.held_bounds mine
    exact keeps page (by omega) (Or.inr (Or.inr (Or.inl mine)))
  · have free : p ∈ pagesOf t.freeListed := mem_pagesOf.mpr ⟨(a, order), Multiset.mem_coe.mpr member, lower, upper⟩
    have bounds := space.mem_iff.mp (Or.inr (Or.inl free))
    exact (zeroPage_clear lower upper).congr (same p (by omega))

theorem allocateFreed_allocated (space : Space lists held t) (within : order ≤ maxOrder)
    (listed : (lists order).entries ≠ []) :
    (SpaceManager.allocateFreed order (lists order).entries.length t).Ends (Allocated lists held order t) := by
  obtain ⟨entries, a, last⟩ : ∃ entries a, (lists order).entries = entries ++ [a] :=
    ⟨_, _, (List.dropLast_append_getLast listed).symm⟩
  have at_ := space.stored order within
  have positive : ∀ page ∈ (lists order).pages, page ≠ 0 := by
    intro page inside
    have bounds := space.fpl_bounds within inside
    omega
  have count : (lists order).entries.length - 1 = entries.length := by
    rw [last, List.length_append, List.length_singleton, Nat.add_sub_cancel]
  have entry : FPLPage.entries t.mem (lists order).page ((lists order).entries.length - 1) = a := by
    have holds := at_.stored.holds
    rw [last] at holds
    rw [count]
    exact holds.dropLast.2
  have member : (a, order) ∈ t.freeListed :=
    space.mem_freeListed within ((PagedStack.pop_of_snoc last).2.mem_iff.mpr List.mem_cons_self)
  obtain ⟨cleared, is⟩ : ∃ cleared, overwrite t.mem (a * pageSize) (2 ^ order * pageSize) [] = cleared := ⟨_, rfl⟩
  have top : SamePage t.mem cleared (lists order).page := by
    rw [← is]
    refine samePage_clear (space.outside_region member (Or.inr (Or.inl ?_)))
    exact Space.mem_fplPages.mpr ⟨order, within, PagedStack.mem_pages.mpr (Or.inl rfl)⟩
  have previous : FPLPage.previous cleared (lists order).page = FPLPage.previous t.mem (lists order).page :=
    (FPLPage.congr top).1
  have quiet : ∀ mem, Tx.onFreeList { t with mem } 0 = false := fun _ => space.not_onFreeList (Or.inl (by omega))
  have fields := (MetaIs.refl t.mem).congr (samePage_clear (space.outside_region member (Or.inl (by omega))))
  rw [is] at fields
  have popped := pop_fields at_.stored last positive
  have meta_ : ∀ m offset length bytes, offset + length ≤ pageSize → ∀ page, 1 ≤ page →
      SamePage m (overwrite m (0 * pageSize + offset) length bytes) page :=
    fun _ _ _ _ inside _ low => .overwrite (by omega) inside
  have small : entries.length < 2 ^ 32 := by
    have room := at_.stored.room
    have bound : fplPageCapacity < 2 ^ 32 := by decide
    omega
  obtain ⟨m', dropped, fields', same⟩ : ∃ m', SpaceManager.dropEntry order (lists order).entries.length
      (FPLPage.previous t.mem (lists order).page) { t with mem := cleared } = .done () { t with mem := m' } ∧
      MetaIs m' (MetaPage.kvEntryCount t.mem) (MetaPage.nextFreePage t.mem)
        (Function.update (MetaPage.lastFplPage t.mem) order (lists order).pop.page)
        (Function.update (MetaPage.lastFplPageEntries t.mem) order (lists order).pop.entries.length) ∧
      ∀ page, 1 ≤ page → SamePage cleared m' page := by
    unfold SpaceManager.dropEntry
    rw [count]
    by_cases lower : entries.length = 0 ∧ FPLPage.previous t.mem (lists order).page ≠ 0
    · rw [if_pos lower] at popped ⊢
      rw [writeInt_bind, Tx.write_quiet (quiet _), writeInt_run, Tx.write_quiet (quiet _)]
      refine ⟨_, rfl, ?_, fun page low => (meta_ _ _ _ _ ?_ page low).trans (meta_ _ _ _ _ ?_ page low)⟩
      · rw [popped.1, popped.2]
        exact (fields.setLastFplPage within (leAt_lt _ _ 8)).setLastFplPageEntries within (by decide)
      · exact MetaPage.lastFplPageOffset_inside within
      · exact MetaPage.lastFplPageEntriesOffset_inside within
    · rw [if_neg lower] at popped ⊢
      rw [writeInt_run, Tx.write_quiet (quiet _)]
      refine ⟨_, rfl, ?_, meta_ _ _ _ _ (MetaPage.lastFplPageEntriesOffset_inside within)⟩
      rw [popped.1, popped.2, ← at_.page, Function.update_eq_self]
      exact fields.setLastFplPageEntries within small
  refine .intro (?_ : _ = Outcome.done a _) (space.popped within last fields' (is ▸ same))
  simp only [SpaceManager.allocateFreed, getPage_bind, at_.page, entry]
  rw [Program.done_bind (clearRegion_run _ _ _), is, getPage_bind, previous]
  rw [Program.done_bind dropped, Program.modify_bind, Program.pure_run]

theorem allocate_allocated (space : Space lists held t) (small : order < 31)
    (room : (lists order).entries = [] → MetaPage.nextFreePage t.mem + 2 ^ order ≤ maxPages) :
    (SpaceManager.allocate order t).Ends (Allocated lists held order t) := by
  have within : order ≤ maxOrder := le_trans (Nat.le_of_lt_succ small) (by decide)
  have count := (space.stored order within).count
  unfold SpaceManager.allocate
  rw [if_neg (Nat.not_le.mpr small), getPage_bind, count]
  by_cases listed : (lists order).entries = []
  · rw [if_pos (List.length_eq_zero_iff.mpr listed)]
    exact allocateFresh_allocated space (room listed)
  · rw [if_neg (fun empty => listed (List.length_eq_zero_iff.mp empty))]
    exact allocateFreed_allocated space within listed

/-- The only other outcome: the file would get too long. -/
theorem allocate_stuck (space : Space lists held t) (small : order < 31) (empty : (lists order).entries = [])
    (noRoom : maxPages < MetaPage.nextFreePage t.mem + 2 ^ order) : SpaceManager.allocate order t = .stuck := by
  have within : order ≤ maxOrder := le_trans (Nat.le_of_lt_succ small) (by decide)
  unfold SpaceManager.allocate
  rw [if_neg (Nat.not_le.mpr small), getPage_bind, (space.stored order within).count, empty, List.length_nil, if_pos rfl]
  unfold SpaceManager.allocateFresh
  rw [getPage_bind, if_pos noRoom]
  rfl

end DiskMap
