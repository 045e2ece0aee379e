import DiskMap.Map.SpaceInvariant

namespace DiskMap
open ByteMemory

variable {lists : Nat → FreeList} {held : Multiset Nat} {t t' : Tx} {m m' : Mem} {order : Nat}

/-- The region goes from the client to the list. -/
theorem Space.listed_grow (space : Space lists held t) {s : FreeList} (within : order ≤ maxOrder) {page : Nat}
    (perm : s.elements.Perm (page :: (lists order).elements)) :
    (((page, order) :: t.freeListed : List (Nat × Nat)) : Multiset (Nat × Nat)) =
      freeRegions (Function.update lists order s) := by
  have grown : (s.elements.map (fun page => (page, order)) : Multiset (Nat × Nat)) =
      ((lists order).elements.map fun page => (page, order) : List (Nat × Nat)) + {(page, order)} := by
    rw [Multiset.coe_eq_coe.mpr (perm.map _), List.map_cons, ← Multiset.cons_coe, ← Multiset.singleton_add, add_comm]
  have total : freeRegions (Function.update lists order s) = freeRegions lists + {(page, order)} :=
    sum_update_grow (f := fun o list => ((list.elements.map fun page => (page, o) : List (Nat × Nat)) : Multiset (Nat × Nat))) within grown
  rw [total, ← space.listed, add_comm, Multiset.singleton_add, Multiset.cons_coe]

/-- A page with one more entry on top, once the meta page shows the new list. -/
theorem Space.pushed {s : FreeList} {page : Nat} (space : Space lists (held + Multiset.Ico page (page + 2 ^ order)) t)
    (within : order ≤ maxOrder) (pages : (lists order).pages.Perm s.pages)
    (elements : s.elements.Perm (page :: (lists order).elements)) (stored : s.Stored (fplLinks m') fplPageCapacity)
    (fields : MetaIs m' (MetaPage.kvEntryCount t.mem) (MetaPage.nextFreePage t.mem)
      (Function.update (MetaPage.lastFplPage t.mem) order s.page)
      (Function.update (MetaPage.lastFplPageEntries t.mem) order s.entries.length))
    (same : ∀ p, 1 ≤ p → p ∉ (lists order).pages → SamePage t.mem m' p) :
    Space (Function.update lists order s) held { t with mem := m', freeListed := (page, order) :: t.freeListed } := by
  refine
    { stored := space.stored_update within fields stored fun o within' different p inside => same p ?_ ?_
      base := space.base_update fun p inside => pages.mem_iff.mp inside
      listed := space.listed_grow within elements
      owned := ?_
      bound := by rw [fields.nextFreePage]; exact space.bound
      fresh := fun p above => ?_ }
  · have bounds := space.fpl_bounds within' inside
    omega
  · exact space.pages_disjoint within' within different inside
  · rw [fplPages_update within pages, fields.nextFreePage, ← space.owned]
    show _ + pagesOf ((((page, order) :: t.freeListed : List (Nat × Nat))) : Multiset (Nat × Nat)) + held = _
    rw [← Multiset.cons_coe, pagesOf_cons]
    show _ + (Multiset.Ico page (page + 2 ^ order) + _) + held = _
    rw [add_comm (Multiset.Ico _ _), add_assoc, add_assoc, add_comm (Multiset.Ico _ _), add_assoc]
  · rw [fields.nextFreePage] at above
    have low := space.fpl_bounds (Nat.zero_le _) (space.base 0 (Nat.zero_le _))
    refine (space.fresh p above).congr (same p (by omega) fun inside => ?_)
    have bounds := space.fpl_bounds within inside
    omega

theorem meta_samePage (m : Mem) {offset length : Nat} (inside : offset + length ≤ pageSize) (bytes : List UInt8)
    {page : Nat} (low : 1 ≤ page) : SamePage m (overwrite m (0 * pageSize + offset) length bytes) page :=
  .overwrite (by omega) inside

/-- Entry `index` of the list page is the new region, all other entries and links are as before. -/
theorem fplLinks_setEntry {top index page : Nat}
    (is : m' = overwrite m (top * pageSize + FPLPage.entriesOffset index) 8 (leBytes 8 page)) (small : page < 2 ^ 64)
    (within : index < fplPageCapacity) (pages : List Nat) :
    PagedStack.SameOn (fplLinks m) (fplLinks m') 0 pages ∧ FPLPage.entries m' top index = page ∧
      (∀ p i, i < fplPageCapacity → (p, i) ≠ (top, index) → FPLPage.entries m' p i = FPLPage.entries m p i) ∧
      ∀ p, p ≠ top → SamePage m m' p := by
  have inside : FPLPage.entriesOffset index + 8 ≤ pageSize := by
    unfold FPLPage.entriesOffset pageSize
    unfold fplPageCapacity pageSize at within
    omega
  have other : ∀ p, p ≠ top → SamePage m m' p := fun p different => is ▸ .overwrite different inside
  obtain ⟨previous, next, here, others⟩ := FPLPage.setEntry m top index small
  simp only [← is] at previous next here others
  refine ⟨⟨rfl, fun p _ => ?_, fun p _ => ?_, fun _ _ i below => absurd below (Nat.not_lt_zero i)⟩, here,
    fun p i below different => ?_, other⟩
  · by_cases same : p = top
    · subst same
      exact previous
    · exact (FPLPage.congr (other p same)).1
  · by_cases same : p = top
    · subst same
      exact next
    · exact (FPLPage.congr (other p same)).2.1
  · by_cases same : p = top
    · subst same
      exact others i fun same => different (by rw [same])
    · exact (FPLPage.congr (other p same)).2.2 i below

/-- There is room on the top page. -/
theorem Space.push_space {page : Nat} (space : Space lists (held + Multiset.Ico page (page + 2 ^ order)) t)
    (within : order ≤ maxOrder) (room : (lists order).entries.length < fplPageCapacity) (small : page < 2 ^ 64)
    (entry : m = overwrite t.mem ((lists order).page * pageSize + FPLPage.entriesOffset (lists order).entries.length) 8
      (leBytes 8 page))
    (counted : m' = overwrite m (0 * pageSize + MetaPage.lastFplPageEntriesOffset order) 4
      (leBytes 4 ((lists order).entries.length + 1))) :
    Space (Function.update lists order ((lists order).push page)) held
        { t with mem := m', freeListed := (page, order) :: t.freeListed } ∧
      MetaPage.kvEntryCount m' = MetaPage.kvEntryCount t.mem ∧ MetaPage.nextFreePage m' = MetaPage.nextFreePage t.mem ∧
      ∀ p, 1 ≤ p → p ∉ (lists order).pages → SamePage t.mem m' p := by
  have at_ := space.stored order within
  have member : (lists order).page ∈ (lists order).pages := PagedStack.mem_pages.mpr (Or.inl rfl)
  have low := space.fpl_bounds within member
  obtain ⟨links, here, entries, others⟩ := fplLinks_setEntry entry small room (lists order).pages
  have after : ∀ p, 1 ≤ p → SamePage m m' p := fun p above =>
    counted ▸ meta_samePage m (MetaPage.lastFplPageEntriesOffset_inside within) _ above
  have bound : fplPageCapacity < 2 ^ 32 := by decide
  have fields := ((MetaIs.refl t.mem).congr (others 0 (by omega))).setLastFplPageEntries within
    (show (lists order).entries.length + 1 < 2 ^ 32 by omega)
  rw [← counted] at fields
  have same : ∀ p, 1 ≤ p → p ∉ (lists order).pages → SamePage t.mem m' p := fun p above outside =>
    (others p fun top => outside (top ▸ member)).trans (after p above)
  refine ⟨space.pushed within (List.Perm.refl _) ?_ ?_ ?_ same, fields.kvEntryCount, fields.nextFreePage, same⟩
  · rw [PagedStack.push_elements]
    exact List.perm_append_singleton page _
  · refine (at_.stored.push (space.pages_nodup within) room links (fun p _ i => entries p i) here).congr
      (fplLinks_sameOn fun p inside => after p ?_)
    have bounds := space.fpl_bounds within inside
    omega
  · have unchanged : Function.update (MetaPage.lastFplPage t.mem) order (lists order).page = MetaPage.lastFplPage t.mem := by
      rw [← at_.page, Function.update_eq_self]
    have length : ((lists order).push page).entries.length = (lists order).entries.length + 1 := List.length_append
    rw [length, show ((lists order).push page).page = (lists order).page from rfl, unchanged]
    exact fields

/-- The top page is full, and the list moves on to the page above it. -/
theorem Space.advance_space {page q : Nat} {rest : List Nat} {m'' : Mem}
    (space : Space lists (held + Multiset.Ico page (page + 2 ^ order)) t) (within : order ≤ maxOrder)
    (full : (lists order).entries.length = fplPageCapacity) (above : (lists order).spare = q :: rest) (small : page < 2 ^ 64)
    (entry : m = overwrite t.mem (q * pageSize + FPLPage.entriesOffset 0) 8 (leBytes 8 page))
    (moved : m' = overwrite m (0 * pageSize + MetaPage.lastFplPageOffset order) 8 (leBytes 8 q))
    (counted : m'' = overwrite m' (0 * pageSize + MetaPage.lastFplPageEntriesOffset order) 4 (leBytes 4 1)) :
    Space (Function.update lists order ((lists order).advance q rest page)) held
        { t with mem := m'', freeListed := (page, order) :: t.freeListed } ∧
      MetaPage.kvEntryCount m'' = MetaPage.kvEntryCount t.mem ∧ MetaPage.nextFreePage m'' = MetaPage.nextFreePage t.mem ∧
      ∀ p, 1 ≤ p → p ∉ (lists order).pages → SamePage t.mem m'' p := by
  have at_ := space.stored order within
  have member : q ∈ (lists order).pages :=
    PagedStack.mem_pages.mpr (Or.inr (Or.inr (by rw [above]; exact List.mem_cons_self)))
  have bounds := space.fpl_bounds within member
  have bound := space.bound
  have smallQ : q < 2 ^ 64 := by
    unfold maxPages at bound
    omega
  obtain ⟨links, here, entries, others⟩ := fplLinks_setEntry entry small (by decide) (q :: rest ++ (lists order).pages)
  have after : ∀ p, 1 ≤ p → SamePage m m'' p := fun p low =>
    (moved ▸ meta_samePage m (MetaPage.lastFplPageOffset_inside within) _ low : SamePage m m' p).trans
      (counted ▸ meta_samePage m' (MetaPage.lastFplPageEntriesOffset_inside within) _ low)
  have fields := ((MetaIs.refl t.mem).congr (others 0 (by omega))).setLastFplPage within smallQ
  rw [← moved] at fields
  have fields' := fields.setLastFplPageEntries within (show 1 < 2 ^ 32 by decide)
  rw [← counted] at fields'
  have same : ∀ p, 1 ≤ p → p ∉ (lists order).pages → SamePage t.mem m'' p := fun p low outside =>
    (others p fun top => outside (top ▸ member)).trans (after p low)
  have lower : ∀ p ∈ (lists order).page :: (lists order).full.map Prod.fst, p ≠ q := by
    have distinct := space.pages_nodup within
    rw [PagedStack.pages, above, ← List.cons_append] at distinct
    rintro p inside rfl
    exact (List.nodup_append.mp distinct).2.2 p inside p List.mem_cons_self rfl
  have perm : (lists order).pages.Perm ((lists order).advance q rest page).pages := by
    rw [PagedStack.pages, above]
    exact (PagedStack.advance_pages q rest page).symm
  have linked : PagedStack.Above (fplLinks t.mem) (lists order).page (q :: rest) := above ▸ at_.stored.above
  refine ⟨space.pushed within perm (PagedStack.advance_elements q rest page) ?_ fields' same, fields'.kvEntryCount, fields'.nextFreePage, same⟩
  refine (at_.stored.advance full linked (by decide) links (fun p inside i below => entries p i below fun pair =>
    lower p inside (congrArg Prod.fst pair)) here).congr (fplLinks_sameOn fun p inside => after p ?_)
  have low := space.fpl_bounds within (perm.mem_iff.mpr inside)
  omega

/-- A page that a client gives up becomes the page above the top one. -/
theorem Space.link_space {q : Nat} {m'' : Mem} (space : Space lists (held + Multiset.Ico q (q + 2 ^ 0)) t)
    (within : order ≤ maxOrder) (none_ : (lists order).spare = [])
    (cleared : m = overwrite t.mem (q * pageSize + 0) pageSize [])
    (down : m' = overwrite m (q * pageSize + FPLPage.previousOffset) 8 (leBytes 8 (lists order).page))
    (up : m'' = overwrite m' ((lists order).page * pageSize + FPLPage.nextOffset) 8 (leBytes 8 q)) :
    Space (Function.update lists order { lists order with spare := [q] }) held { t with mem := m'' } ∧
      MetaPage.nextFreePage m'' = MetaPage.nextFreePage t.mem ∧ ∀ p, p ≠ q → p ∉ (lists order).pages → SamePage t.mem m'' p := by
  have at_ := space.stored order within
  have member : (lists order).page ∈ (lists order).pages := PagedStack.mem_pages.mpr (Or.inl rfl)
  have mine : q ∈ held + Multiset.Ico q (q + 2 ^ 0) :=
    Multiset.mem_add.mpr (Or.inr (Multiset.mem_Ico.mpr ⟨le_rfl, by omega⟩))
  have outside : ∀ o, o ≤ maxOrder → q ∉ (lists o).pages := fun o within' inside =>
    (space.apart.1 (Space.mem_fplPages.mpr ⟨o, within', inside⟩)).2 mine
  have different : (lists order).page ≠ q := fun same => outside order within (same ▸ member)
  have bounds := space.held_bounds mine
  have topBounds := space.fpl_bounds within member
  have bound := space.bound
  unfold maxPages at bound
  have clear : ∀ p, p ≠ q → SamePage t.mem m p := fun p other => cleared ▸ .overwrite other (by omega)
  have set : ∀ p, p ≠ q → SamePage m m' p := fun p other => down ▸ .overwrite other (by decide)
  have hook : ∀ p, p ≠ (lists order).page → SamePage m' m'' p := fun p other => up ▸ .overwrite other (by decide)
  have same : ∀ p, p ≠ q → p ≠ (lists order).page → SamePage t.mem m'' p := fun p other other' =>
    ((clear p other).trans (set p other)).trans (hook p other')
  have zero : ZeroPage m q := by
    intro i inside
    rw [cleared, overwrite_inside (by omega) (by omega), List.getD_nil]
  obtain ⟨previousQ, nextQ, _⟩ := FPLPage.setPrevious m q (show (lists order).page < 2 ^ 64 by omega)
  obtain ⟨previousTop, nextTop, entriesTop⟩ := FPLPage.setNext m' (lists order).page (show q < 2 ^ 64 by omega)
  simp only [← down] at previousQ nextQ
  simp only [← up] at previousTop nextTop entriesTop
  have before := FPLPage.congr ((clear _ different).trans (set _ different))
  have hookQ := FPLPage.congr (hook q (Ne.symm different))
  have stored : PagedStack.Stored (fplLinks m'') fplPageCapacity { lists order with spare := [q] } := by
    refine at_.stored.link (space.pages_nodup within) rfl (fun p inside => ?_) (fun p inside other => ?_)
      (fun p inside i below => ?_) nextTop (hookQ.1.trans previousQ) ?_
    · by_cases top : p = (lists order).page
      · subst top
        exact previousTop.trans before.1
      · exact (FPLPage.congr (same p (fun eq => outside order within (eq ▸ inside)) top)).1
    · exact (FPLPage.congr (same p (fun eq => outside order within (eq ▸ inside)) other)).2.1
    · by_cases top : p = (lists order).page
      · subst top
        exact (entriesTop i).trans (before.2.2 i below)
      · exact (FPLPage.congr (same p (fun eq => outside order within (eq ▸ inside)) top)).2.2 i below
    · exact hookQ.2.1.trans (nextQ.trans (zero.leAt_eq (by decide)))
  have fields := (MetaIs.refl t.mem).congr (same 0 (by omega) (by omega))
  have perm : ({ lists order with spare := [q] } : FreeList).pages.Perm (q :: (lists order).pages) := by
    rw [PagedStack.pages, PagedStack.pages, none_, List.append_nil]
    exact (List.Perm.cons _ (List.perm_append_singleton q _)).trans (List.Perm.swap q _ _)
  have keepPage : Function.update (MetaPage.lastFplPage t.mem) order (lists order).page = MetaPage.lastFplPage t.mem := by
    rw [← at_.page, Function.update_eq_self]
  have keepCount : Function.update (MetaPage.lastFplPageEntries t.mem) order (lists order).entries.length =
      MetaPage.lastFplPageEntries t.mem := by
    rw [← at_.count, Function.update_eq_self]
  refine ⟨?_, fields.nextFreePage, fun p other beyond => same p other fun top => beyond (top ▸ member)⟩
  refine
    { stored := space.stored_update within (keepPage.symm ▸ keepCount.symm ▸ fields) stored fun o within' other p inside =>
        same p (fun eq => outside o within' (eq ▸ inside))
          (fun top => space.pages_disjoint within within' (Ne.symm other) member (top ▸ inside))
      base := space.base_update fun p inside => perm.mem_iff.mpr (List.mem_cons_of_mem _ inside)
      listed := ?_
      owned := ?_
      bound := by rw [fields.nextFreePage]; exact space.bound
      fresh := fun p above => ?_ }
  · have nothing : freeRegions (Function.update lists order { lists order with spare := [q] }) = freeRegions lists + 0 :=
      sum_update_grow (f := fun o list => ((list.elements.map fun page => (page, o) : List (Nat × Nat)) : Multiset (Nat × Nat)))
        within (add_zero _).symm
    rw [nothing, add_zero]
    exact space.listed
  · have grown : (({ lists order with spare := [q] } : FreeList).pages : Multiset Nat) = (lists order).pages + {q} := by
      rw [Multiset.coe_eq_coe.mpr perm, ← Multiset.cons_coe, ← Multiset.singleton_add, add_comm]
    have total : fplPages (Function.update lists order { lists order with spare := [q] }) = fplPages lists + {q} :=
      sum_update_grow (f := fun _ list => (list.pages : Multiset Nat)) within grown
    have single : Multiset.Ico q (q + 2 ^ 0) = {q} := by
      have nodup : (Multiset.Ico q (q + 2 ^ 0)).Nodup := Multiset.nodup_Ico
      refine (Multiset.Nodup.ext nodup (Multiset.nodup_singleton q)).mpr fun p => ?_
      rw [Multiset.mem_Ico, Multiset.mem_singleton]
      omega
    rw [total, fields.nextFreePage, ← space.owned, single]
    show _ + {q} + pagesOf t.freeListed + held = _
    rw [add_right_comm (fplPages lists), add_assoc (fplPages lists + _), add_comm held]
  · rw [fields.nextFreePage] at above
    have far : p ≠ q ∧ p ≠ (lists order).page := by omega
    exact (space.fresh p above).congr (same p far.1 far.2)

theorem listRegion_run {page top : Nat} (quiet : t.onFreeList top = false) (index : Nat) :
    SpaceManager.listRegion page order top index t = .done () { t with
      mem := overwrite t.mem (top * pageSize + FPLPage.entriesOffset index) 8 (leBytes 8 page)
      freeListed := (page, order) :: t.freeListed } := by
  unfold SpaceManager.listRegion
  rw [writeInt_bind, Tx.write_quiet quiet]
  rfl

/-- No region reaches down to the meta page. -/
theorem Space.meta_quiet {page : Nat} (space : Space lists (held + Multiset.Ico page (page + 2 ^ order)) t) (mem : Mem) :
    Tx.onFreeList { t with mem, freeListed := (page, order) :: t.freeListed } 0 = false := by
  rw [← Bool.not_eq_true, onFreeList_iff]
  show ¬ 0 ∈ pagesOf (((page, order) :: t.freeListed : List (Nat × Nat)) : Multiset (Nat × Nat))
  rw [← Multiset.cons_coe, pagesOf_cons, Multiset.mem_add, Multiset.mem_Ico]
  rintro (region | free)
  · have mine : page ∈ held + Multiset.Ico page (page + 2 ^ order) := by
      refine Multiset.mem_add.mpr (Or.inr (Multiset.mem_Ico.mpr ⟨le_rfl, ?_⟩))
      have positive := Nat.two_pow_pos order
      omega
    have bounds := space.held_bounds mine
    omega
  · have bounds := space.mem_iff.mp (Or.inr (Or.inl free))
    omega

/-- What `free` does: the region is on the free list, or a page of it has become a page of that list. -/
structure Freed (held region : Multiset Nat) (t t' : Tx) : Prop where
  space : ∃ lists, Space lists held t' ∧ ∀ page ∈ region, SamePage t.mem t'.mem page ∨ page ∈ fplPages lists
  frame : Frame held t t'
  next : MetaPage.nextFreePage t'.mem ≤ MetaPage.nextFreePage t.mem + 1

theorem Space.freed {page : Nat} {lists' : Nat → FreeList} (space : Space lists (held + Multiset.Ico page (page + 2 ^ order)) t)
    (within : order ≤ maxOrder) (space' : Space lists' held t')
    (same : ∀ p, 1 ≤ p → p ∉ (lists order).pages → SamePage t.mem t'.mem p)
    (kv : MetaPage.kvEntryCount t'.mem = MetaPage.kvEntryCount t.mem)
    (next : MetaPage.nextFreePage t'.mem = MetaPage.nextFreePage t.mem) (stray : t'.strayWrites = t.strayWrites) :
    Freed held (Multiset.Ico page (page + 2 ^ order)) t t' := by
  have mine : ∀ p ∈ held + Multiset.Ico page (page + 2 ^ order), SamePage t.mem t'.mem p := by
    intro p inside
    have bounds := space.held_bounds inside
    exact same p (by omega) fun fpl => (space.apart.1 (Space.mem_fplPages.mpr ⟨order, within, fpl⟩)).2 inside
  refine ⟨⟨lists', space', fun p inside => Or.inl (mine p (Multiset.mem_add.mpr (Or.inr inside)))⟩,
    ⟨fun p inside => mine p (Multiset.mem_add.mpr (Or.inl inside)), same 1 le_rfl fun fpl => ?_, kv, stray⟩,
    next.le.trans (Nat.le_succ _)⟩
  have bounds := space.fpl_bounds within fpl
  omega

/-- Moving on to the page above a full top page. -/
theorem advance_freed {page q : Nat} {rest : List Nat} (space : Space lists (held + Multiset.Ico page (page + 2 ^ order)) t)
    (within : order ≤ maxOrder) (full : (lists order).entries.length = fplPageCapacity)
    (above : (lists order).spare = q :: rest) (small : page < 2 ^ 64) :
    ((do
      SpaceManager.listRegion page order q 0
      writeInt 8 0 (MetaPage.lastFplPageOffset order) q
      writeInt 4 0 (MetaPage.lastFplPageEntriesOffset order) 1 : TxProgram Unit) t).Ends
      fun _ t' => Freed held (Multiset.Ico page (page + 2 ^ order)) t t' ∧
        MetaPage.nextFreePage t'.mem = MetaPage.nextFreePage t.mem := by
  have member : q ∈ (lists order).pages :=
    PagedStack.mem_pages.mpr (Or.inr (Or.inr (by rw [above]; exact List.mem_cons_self)))
  have quiet := space.not_onFreeList (Or.inr (Or.inl (Space.mem_fplPages.mpr ⟨order, within, member⟩)))
  obtain ⟨space', kv, next, same⟩ := space.advance_space within full above small rfl rfl rfl
  rw [Program.done_bind (listRegion_run quiet 0), writeInt_bind, Tx.write_quiet (space.meta_quiet _), writeInt_run,
    Tx.write_quiet (space.meta_quiet _)]
  exact .intro rfl ⟨space.freed within space' same kv next rfl, next⟩

theorem Space.held_ne {held' : Multiset Nat} (space : Space lists (held + held') t) {p q : Nat} (mine : p ∈ held)
    (other : q ∈ held') : p ≠ q := by
  rintro rfl
  have both := (Multiset.nodup_add.mp space.nodup).2.1
  exact Multiset.disjoint_left.mp (Multiset.nodup_add.mp both).2.2 mine other

/-- Linking a page leaves the pages of the clients alone. -/
theorem Space.linked_frame {q : Nat} (space : Space lists (held + Multiset.Ico q (q + 2 ^ 0)) t) (within : order ≤ maxOrder)
    (same : ∀ p, p ≠ q → p ∉ (lists order).pages → SamePage t.mem m' p) : Frame held t { t with mem := m' } := by
  have mine : q ∈ Multiset.Ico q (q + 2 ^ 0) := Multiset.mem_Ico.mpr ⟨le_rfl, by omega⟩
  have low := space.held_bounds (Multiset.mem_add.mpr (Or.inr mine))
  have outside : ∀ p, p < 2 → p ∉ (lists order).pages := by
    intro p small fpl
    have bounds := space.fpl_bounds within fpl
    omega
  refine ⟨fun p inside => same p (space.held_ne inside mine) fun fpl => ?_, same 1 (by omega) (outside 1 (by omega)), ?_, rfl⟩
  · exact (space.apart.1 (Space.mem_fplPages.mpr ⟨order, within, fpl⟩)).2 (Multiset.mem_add.mpr (Or.inl inside))
  · exact ((MetaIs.refl t.mem).congr (same 0 (by omega) (outside 0 (by omega)))).kvEntryCount

theorem Frame.mono {held' : Multiset Nat} (frame : Frame held t t') (fewer : ∀ page ∈ held', page ∈ held) : Frame held' t t' :=
  { frame with pages := fun page member => frame.pages page (fewer page member) }

/-- The freed page itself becomes the page above the top one. -/
theorem free_converts {page : Nat} (space : Space lists (held + Multiset.Ico page (page + 2 ^ 0)) t)
    (none_ : (lists 0).spare = []) :
    ((do
      clearPage page
      writeInt 8 page FPLPage.previousOffset (lists 0).page
      writeInt 8 (lists 0).page FPLPage.nextOffset page : TxProgram Unit) t).Ends
      fun _ t' => Freed held (Multiset.Ico page (page + 2 ^ 0)) t t' := by
  have within : 0 ≤ maxOrder := Nat.zero_le _
  have mine : page ∈ Multiset.Ico page (page + 2 ^ 0) := Multiset.mem_Ico.mpr ⟨le_rfl, by omega⟩
  have topMember : (lists 0).page ∈ (lists 0).pages := PagedStack.mem_pages.mpr (Or.inl rfl)
  have quiet : ∀ mem, Tx.onFreeList { t with mem } page = false := fun _ =>
    space.not_onFreeList (Or.inr (Or.inr (Multiset.mem_add.mpr (Or.inr mine))))
  have quietTop : ∀ mem, Tx.onFreeList { t with mem } (lists 0).page = false := fun _ =>
    space.not_onFreeList (Or.inr (Or.inl (Space.mem_fplPages.mpr ⟨0, within, topMember⟩)))
  obtain ⟨space', next, same⟩ := space.link_space within none_ rfl rfl rfl
  rw [clearPage_bind, Tx.write_quiet (quiet t.mem), writeInt_bind, Tx.write_quiet (quiet _), writeInt_run,
    Tx.write_quiet (quietTop _)]
  refine .intro rfl ⟨⟨_, space', fun p inside => Or.inr ?_⟩, space.linked_frame within same, next.le.trans (Nat.le_succ _)⟩
  have is : p = page := by
    have bounds := Multiset.mem_Ico.mp inside
    omega
  refine Space.mem_fplPages.mpr ⟨0, within, ?_⟩
  rw [Function.update_self, is]
  exact PagedStack.mem_pages.mpr (Or.inr (Or.inr List.mem_cons_self))

/-- A page for the list is allocated first. -/
theorem free_extends {page : Nat} (space : Space lists (held + Multiset.Ico page (page + 2 ^ order)) t)
    (within : order ≤ maxOrder) (other : order ≠ 0) (none_ : (lists order).spare = [])
    (full : (lists order).entries.length = fplPageCapacity) (small : page < 2 ^ 64)
    (room : (lists 0).entries = [] → MetaPage.nextFreePage t.mem + 1 ≤ maxPages) :
    ((do
      let newFpl ← SpaceManager.allocate 0
      clearPage newFpl
      let last ← getPage fun m => MetaPage.lastFplPage m order
      writeInt 8 newFpl FPLPage.previousOffset last
      writeInt 8 (lists order).page FPLPage.nextOffset newFpl
      SpaceManager.listRegion page order newFpl 0
      writeInt 8 0 (MetaPage.lastFplPageOffset order) newFpl
      writeInt 4 0 (MetaPage.lastFplPageEntriesOffset order) 1 : TxProgram Unit) t).Ends
      fun _ t' => Freed held (Multiset.Ico page (page + 2 ^ order)) t t' := by
  refine (allocate_allocated space (by omega) room).bind fun q t₁ allocated => ?_
  obtain ⟨lists₁, space₁, _, others⟩ := allocated.space
  have list := others order other
  have mine : q ∈ Multiset.Ico q (q + 2 ^ 0) := Multiset.mem_Ico.mpr ⟨le_rfl, by omega⟩
  have topMember : (lists₁ order).page ∈ (lists₁ order).pages := PagedStack.mem_pages.mpr (Or.inl rfl)
  have quiet : ∀ mem, Tx.onFreeList { t₁ with mem } q = false := fun _ =>
    space₁.not_onFreeList (Or.inr (Or.inr (Multiset.mem_add.mpr (Or.inr mine))))
  have quietTop : ∀ mem, Tx.onFreeList { t₁ with mem } (lists₁ order).page = false := fun _ =>
    space₁.not_onFreeList (Or.inr (Or.inl (Space.mem_fplPages.mpr ⟨order, within, topMember⟩)))
  rw [← list] at none_ full ⊢
  obtain ⟨m, cleared⟩ : ∃ m, m = overwrite t₁.mem (q * pageSize + 0) pageSize [] := ⟨_, rfl⟩
  have last : MetaPage.lastFplPage m order = (lists₁ order).page := by
    have low := space₁.held_bounds (Multiset.mem_add.mpr (Or.inr mine))
    have fields := (MetaIs.refl t₁.mem).congr (cleared ▸ .overwrite (by omega) (by omega) : SamePage t₁.mem m 0)
    exact (fields.lastFplPage order within).trans (space₁.stored order within).page
  obtain ⟨space₂, next, same⟩ := space₁.link_space within none_ cleared rfl rfl
  rw [clearPage_bind, Tx.write_quiet (quiet t₁.mem), ← cleared, getPage_bind, last, writeInt_bind, Tx.write_quiet (quiet _),
    writeInt_bind, Tx.write_quiet (quietTop _)]
  have frame := allocated.frame.trans (space₁.linked_frame within same)
  refine (advance_freed space₂ within ?_ (?_ : _ = q :: ([] : List Nat)) small).mono fun _ t' ⟨freed, next'⟩ => ?_
  · rw [Function.update_self]
    exact full
  · rw [Function.update_self]
  · obtain ⟨lists', space', region⟩ := freed.space
    refine ⟨⟨lists', space', fun p inside => ?_⟩,
      (frame.mono fun p inside => Multiset.mem_add.mpr (Or.inl inside)).trans freed.frame, (next'.trans next).le.trans allocated.next⟩
    exact (region p inside).imp_left (frame.pages p (Multiset.mem_add.mpr (Or.inr inside))).trans

/-- No page can be allocated for the list. -/
def NoRoom (lists : Nat → FreeList) (order : Nat) (t : Tx) : Prop :=
  order ≠ 0 ∧ (lists 0).entries = [] ∧ maxPages < MetaPage.nextFreePage t.mem + 1

theorem free_outcome {page : Nat} (space : Space lists (held + Multiset.Ico page (page + 2 ^ order)) t) (within : order ≤ maxOrder) :
    (SpaceManager.free page order t).Ends (fun _ t' => Freed held (Multiset.Ico page (page + 2 ^ order)) t t') ∨
      SpaceManager.free page order t = .stuck ∧ NoRoom lists order t := by
  have at_ := space.stored order within
  have mine : page ∈ held + Multiset.Ico page (page + 2 ^ order) := by
    refine Multiset.mem_add.mpr (Or.inr (Multiset.mem_Ico.mpr ⟨le_rfl, ?_⟩))
    have positive := Nat.two_pow_pos order
    omega
  have reserved := space.held_maxOrder mine
  have bounds := space.held_bounds mine
  have bound : MetaPage.nextFreePage t.mem ≤ 2 ^ 51 := space.bound
  have small : page < 2 ^ 63 := by omega
  have quiet : ∀ p ∈ (lists order).pages, ∀ mem, Tx.onFreeList { t with mem } p = false := fun p member _ =>
    space.not_onFreeList (Or.inr (Or.inl (Space.mem_fplPages.mpr ⟨order, within, member⟩)))
  have topMember : (lists order).page ∈ (lists order).pages := PagedStack.mem_pages.mpr (Or.inl rfl)
  unfold SpaceManager.free
  rw [if_neg (by omega), getPage_bind, at_.count, getPage_bind, at_.page]
  by_cases roomy : (lists order).entries.length < fplPageCapacity
  · rw [if_pos roomy, Program.done_bind (listRegion_run (quiet _ topMember _) _), writeInt_run,
      Tx.write_quiet (space.meta_quiet _)]
    obtain ⟨space', kv, next, same⟩ := space.push_space within roomy (by omega) rfl rfl
    exact Or.inl (.intro rfl (space.freed within space' same kv next rfl))
  · have full : (lists order).entries.length = fplPageCapacity := le_antisymm at_.stored.room (Nat.not_lt.mp roomy)
    have aboveLinks := at_.stored.above
    rw [if_neg roomy, getPage_bind]
    cases above : (lists order).spare with
    | cons q rest =>
      rw [above] at aboveLinks
      have next : FPLPage.next t.mem (lists order).page = q := aboveLinks.1
      have member : q ∈ (lists order).pages :=
        PagedStack.mem_pages.mpr (Or.inr (Or.inr (by rw [above]; exact List.mem_cons_self)))
      have low := space.fpl_bounds within member
      rw [next, if_neg (by omega)]
      exact Or.inl ((advance_freed space within full above (by omega)).mono fun _ _ both => both.1)
    | nil =>
      rw [above] at aboveLinks
      have next : FPLPage.next t.mem (lists order).page = 0 := aboveLinks
      rw [next, if_pos rfl]
      by_cases single : order = 0
      · subst single
        rw [if_pos rfl]
        exact Or.inl (free_converts space above)
      · rw [if_neg single]
        by_cases room : (lists 0).entries = [] → MetaPage.nextFreePage t.mem + 1 ≤ maxPages
        · exact Or.inl (free_extends space within single above full (by omega) room)
        · obtain ⟨empty, noRoom⟩ := Classical.not_imp.mp room
          have never := allocate_stuck space (by omega) empty (Nat.not_le.mp noRoom)
          exact Or.inr ⟨Program.stuck_bind never _, single, empty, Nat.not_le.mp noRoom⟩

end DiskMap
