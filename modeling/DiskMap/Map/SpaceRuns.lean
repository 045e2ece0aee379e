import DiskMap.Library.GuardedRun
import DiskMap.Map.Touched

namespace DiskMap
open ByteMemory GuardedRun

variable {lists : Nat → FreeList} {held : Multiset Nat} {t t' : Tx} {m m' : Mem} {order : Nat}

/-- The empty lists of a new file. -/
def newLists (order : Nat) : FreeList := { full := [], page := order + 2, entries := [], spare := [] }

theorem initializeFpl_run {kv next : Nat} {page count : Nat → Nat} {n : Nat} (within : n ≤ maxOrder + 1)
    (none_ : t.freeListed = []) (fields : MetaIs t.mem kv next page count) :
    ∃ m', initializeFpl n t = .done () { t with mem := m' } ∧ (∀ p, 1 ≤ p → SamePage t.mem m' p) ∧
      MetaIs m' kv next (fun order => if order < n then order + 2 else page order) (fun order => if order < n then 0 else count order) := by
  induction n with
  | zero => exact ⟨t.mem, rfl, fun p _ => .refl t.mem p, by simpa using fields⟩
  | succ n ih =>
    obtain ⟨m', ended, same, fields'⟩ := ih (by omega)
    have quiet : ∀ mem, Tx.onFreeList { t with mem } 0 = false := by
      intro mem
      rw [Tx.onFreeList, none_]
      rfl
    have inside : n ≤ maxOrder := Nat.le_of_succ_le_succ within
    have next := (fields'.setLastFplPage inside (show n + 2 < 2 ^ 64 by unfold maxOrder at inside; omega)).setLastFplPageEntries
      inside (show 0 < 2 ^ 32 by decide)
    refine ⟨overwrite (overwrite m' (0 * pageSize + MetaPage.lastFplPageOffset n) 8 (leBytes 8 (n + 2)))
      (0 * pageSize + MetaPage.lastFplPageEntriesOffset n) 4 (leBytes 4 0), ?_, fun p low => ?_, ?_⟩
    · rw [initializeFpl, Program.done_bind ended, writeInt_bind, Tx.write_quiet (quiet _), writeInt_run, Tx.write_quiet (quiet _)]
    · exact ((same p low).trans (meta_samePage _ (MetaPage.lastFplPageOffset_inside inside) _ low)).trans
        (meta_samePage _ (MetaPage.lastFplPageEntriesOffset_inside inside) _ low)
    · refine ⟨next.kvEntryCount, next.nextFreePage, fun o within' => (next.lastFplPage o within').trans ?_,
        fun o within' => (next.lastFplPageEntries o within').trans ?_⟩
      · rw [Function.update_apply]
        split
        · rw [if_pos (by omega)]
          omega
        · rename_i different
          by_cases before : o < n
          · rw [if_pos before, if_pos (by omega)]
          · rw [if_neg before, if_neg (by omega)]
      · rw [Function.update_apply]
        split
        · rw [if_pos (by omega)]
        · rename_i different
          by_cases before : o < n
          · rw [if_pos before, if_pos (by omega)]
          · rw [if_neg before, if_neg (by omega)]

theorem newLists_owned : fplPages newLists + pagesOf (([] : List (Nat × Nat)) : Multiset (Nat × Nat)) + 0 =
    Multiset.Ico 2 (maxOrder + 3) := by
  decide +kernel

/-- The constructor sets up empty lists, and the pages behind them belong to nobody yet. -/
theorem construct_space (zero : ∀ page, 2 ≤ page → ZeroPage m page) :
    (construct { mem := m }).Ends fun _ t' => Space newLists 0 t' ∧ t'.freeListed = [] ∧ t'.strayWrites = [] ∧
      SamePage m t'.mem 1 ∧ MetaPage.kvEntryCount t'.mem = 0 ∧ MetaPage.nextFreePage t'.mem = maxOrder + 3 := by
  have quiet : ∀ mem, Tx.onFreeList { mem } 0 = false := fun _ => rfl
  have fields := ((MetaIs.refl m).setKvEntryCount (show 0 < 2 ^ 64 by decide)).setNextFreePage
    (show maxOrder + 3 < 2 ^ 64 by decide)
  obtain ⟨m₁, is₁⟩ : ∃ m₁, overwrite (overwrite m (0 * pageSize + MetaPage.kvEntryCountOffset) 8 (leBytes 8 0))
      (0 * pageSize + MetaPage.nextFreePageOffset) 8 (leBytes 8 (maxOrder + 3)) = m₁ := ⟨_, rfl⟩
  rw [is₁] at fields
  obtain ⟨m', ended, same, fields'⟩ := initializeFpl_run (t := { mem := m₁ }) (le_refl (maxOrder + 1)) rfl fields
  have last := fields'.setMagic magic
  have first : ∀ p, 1 ≤ p → SamePage m m₁ p := fun p low => is₁ ▸
    (meta_samePage _ (by decide) _ low).trans (meta_samePage _ (by decide) _ low)
  have keeps : ∀ p, 1 ≤ p → SamePage m (overwrite m' (0 * pageSize + 0) 8 magic) p := fun p low =>
    ((first p low).trans (same p low)).trans (meta_samePage _ (by decide) _ low)
  obtain ⟨m'', is⟩ : ∃ m'', m'' = overwrite m' (0 * pageSize + 0) 8 magic := ⟨_, rfl⟩
  rw [← is] at last keeps
  have done : construct { mem := m } = .done () { mem := m'' } := by
    unfold construct
    rw [writeInt_bind, Tx.write_quiet (quiet m), writeInt_bind, Tx.write_quiet (quiet _), is₁,
      Program.done_bind ended, writePage_run, Tx.write_quiet (quiet _), show magic.length = 8 from rfl, is]
  have space : Space newLists 0 { mem := m'' } := by
    refine
      { stored := fun o within => ?_
        base := fun o within => List.mem_cons_self
        listed := (show ((([] : List (Nat × Nat))) : Multiset (Nat × Nat)) = freeRegions newLists by decide +kernel)
        owned := by rw [last.nextFreePage]; exact newLists_owned
        bound := by rw [last.nextFreePage]; decide
        fresh := fun page above => ?_ }
    · have page := last.lastFplPage o within
      have count := last.lastFplPageEntries o within
      rw [if_pos (Nat.lt_succ_of_le within)] at page count
      have blank : ZeroPage m'' (o + 2) := (zero (o + 2) (by omega)).congr (keeps (o + 2) (by omega))
      have previous : FPLPage.previous m'' (o + 2) = 0 := blank.leAt_eq (by decide)
      have next : FPLPage.next m'' (o + 2) = 0 := blank.leAt_eq (by decide)
      exact ⟨page, count, PagedStack.below_nil.mpr previous, next, .nil _, Nat.zero_le _, fun _ => rfl⟩
    · rw [last.nextFreePage] at above
      exact (zero page (by omega)).congr (keeps page (by omega))
  exact .intro done ⟨space, rfl, rfl, keeps 1 le_rfl, last.kvEntryCount, last.nextFreePage⟩

/-- A client writes to a page that it holds. -/
theorem Space.write_held (space : Space lists held t) {page : Nat} (mine : page ∈ held) {offset length : Nat}
    (inside : offset + length ≤ pageSize) (bytes : List UInt8) :
    Space lists held (t.write page offset length bytes) ∧ (t.write page offset length bytes).strayWrites = t.strayWrites := by
  have touched : Touched {page} t (t.write page offset length bytes) := .write (Multiset.mem_singleton_self page) inside bytes
  obtain ⟨space', _, _, stray⟩ := space.touched touched fun p member => Or.inr (Multiset.mem_singleton.mp member ▸ mine)
  exact ⟨space', stray⟩

/-- The clients of the space manager, and the regions that they hold. -/
structure Clients where
  tx : Tx
  regions : List (Nat × Nat)

inductive SpaceOp
  | allocate (order : Nat)
  | free (page order : Nat)
  | write (page offset : Nat) (bytes : List UInt8)

namespace Clients

def step (c : Clients) : SpaceOp → Option Clients
  | .allocate order =>
    match SpaceManager.allocate order c.tx with
    | .done page tx => some { tx, regions := (page, order) :: c.regions }
    | _ => none
  | .free page order =>
    match SpaceManager.free page order c.tx with
    | .done _ tx => some { tx, regions := c.regions.erase (page, order) }
    | _ => none
  | .write page offset bytes => some { c with tx := c.tx.write page offset bytes.length bytes }

/-- Clients write only inside regions that they hold, and free only such regions. -/
def Admitted (c : Clients) : SpaceOp → Prop
  | .allocate order => order ≤ 30
  | .free page order => order ≤ 30 ∧ (page, order) ∈ c.regions
  | .write page offset bytes => page ∈ pagesOf c.regions ∧ offset + bytes.length ≤ pageSize

/-- A new file, with zeros behind the root page. -/
def Start (c : Clients) : Prop :=
  ∃ m, (∀ page, 2 ≤ page → ZeroPage m page) ∧ construct { mem := m } = .done () c.tx ∧ c.regions = []

/-- Every page behind the ones that the constructor has set up is in exactly one held region,
free-listed region or free-page-list page. -/
structure Accounted (lists : Nat → FreeList) (c : Clients) : Prop where
  stored : ∀ order, order ≤ maxOrder → FreeListAt c.tx.mem order (lists order)
  once : ∀ page, maxOrder + 3 ≤ page → page < MetaPage.nextFreePage c.tx.mem →
    (fplPages lists + pagesOf (freeRegions lists) + pagesOf c.regions).count page = 1

/-- The region of `2 ^ order` pages from `page` on is zero and belongs to nobody else. -/
def Exclusive (lists : Nat → FreeList) (c : Clients) (order page : Nat) (tx : Tx) : Prop :=
  ∀ p, page ≤ p → p < page + 2 ^ order →
    ZeroPage tx.mem p ∧ maxOrder + 3 ≤ p ∧ p ∉ pagesOf c.regions ∧ p ∉ fplPages lists

variable {c c' : Clients}

theorem space_step {op : SpaceOp} (space : Space lists (pagesOf c.regions) c.tx) (admitted : c.Admitted op)
    (run : c.step op = some c') : ∃ lists', Space lists' (pagesOf c'.regions) c'.tx := by
  cases op with
  | allocate order =>
    have within : order ≤ 30 := admitted
    by_cases room : (lists order).entries = [] → MetaPage.nextFreePage c.tx.mem + 2 ^ order ≤ maxPages
    · obtain ⟨page, tx, ended, allocated⟩ := allocate_allocated space (Nat.lt_succ_of_le within) room
      simp only [step, ended] at run
      cases run
      obtain ⟨lists', space', _⟩ := allocated.space
      refine ⟨lists', ?_⟩
      rw [← Multiset.cons_coe, pagesOf_cons, add_comm]
      exact space'
    · obtain ⟨empty, noRoom⟩ := Classical.not_imp.mp room
      simp only [step, allocate_stuck space (Nat.lt_succ_of_le within) empty (Nat.not_le.mp noRoom)] at run
      cases run
  | free page order =>
    obtain ⟨small, mine⟩ := admitted
    have within : order ≤ maxOrder := small.trans (by decide)
    rw [pagesOf_erase mine, add_comm] at space
    rcases free_outcome space within with ⟨_, tx, ended, freed⟩ | ⟨never, _⟩
    · simp only [step, ended] at run
      cases run
      obtain ⟨lists', space', _⟩ := freed.space
      exact ⟨lists', space'⟩
    · simp only [step, never] at run
      cases run
  | write page offset bytes =>
    cases run
    exact ⟨lists, (space.write_held admitted.1 admitted.2 bytes).1⟩

theorem space_start (start : c.Start) : Space newLists (pagesOf c.regions) c.tx := by
  obtain ⟨m, zero, constructed, none_⟩ := start
  obtain ⟨_, tx, ended, space, _⟩ := construct_space zero
  cases constructed.symm.trans ended
  rw [none_]
  exact space

theorem space_accounted (space : Space lists (pagesOf c.regions) c.tx) : Accounted lists c where
  stored := space.stored
  once page lower upper := by
    have low : 2 ≤ page := (by decide : 2 ≤ maxOrder + 3).trans lower
    rw [← space.listed, space.owned]
    exact Multiset.count_eq_one_of_mem Multiset.nodup_Ico (Multiset.mem_Ico.mpr ⟨low, upper⟩)

/-- In every run, every page is accounted for, and `allocate` returns a region of zeros that nobody
else owns, unless the file would get too long. -/
theorem allocate_exclusive {start : Clients} (begun : start.Start) (reach : Reaches step Admitted start c) :
    ∃ lists, Accounted lists c ∧ ∀ order, order ≤ 30 →
      (SpaceManager.allocate order c.tx).Ends (Exclusive lists c order) ∨
        SpaceManager.allocate order c.tx = .stuck ∧ maxPages < MetaPage.nextFreePage c.tx.mem + 2 ^ order := by
  obtain ⟨lists, space⟩ : ∃ lists, Space lists (pagesOf c.regions) c.tx :=
    reach.invariant (P := fun c => ∃ lists, Space lists (pagesOf c.regions) c.tx) ⟨_, space_start begun⟩
      fun _ _ _ ⟨_, space⟩ admitted run => space_step space admitted run
  refine ⟨lists, space_accounted space, fun order within => ?_⟩
  have small : order < 31 := Nat.lt_succ_of_le within
  by_cases room : (lists order).entries = [] → MetaPage.nextFreePage c.tx.mem + 2 ^ order ≤ maxPages
  · refine Or.inl ((allocate_allocated space small room).mono fun page tx allocated p lower upper => ?_)
    obtain ⟨lists', space', same, _⟩ := allocated.space
    have mine : p ∈ Multiset.Ico page (page + 2 ^ order) := Multiset.mem_Ico.mpr ⟨lower, upper⟩
    have held : p ∈ pagesOf c.regions + Multiset.Ico page (page + 2 ^ order) := Multiset.mem_add.mpr (Or.inr mine)
    refine ⟨allocated.zero p lower upper, space'.held_maxOrder held, fun other => space'.held_ne other mine rfl, fun fpl => ?_⟩
    rw [← same] at fpl
    exact (space'.apart.1 fpl).2 held
  · obtain ⟨empty, noRoom⟩ := Classical.not_imp.mp room
    exact Or.inr ⟨allocate_stuck space small empty (Nat.not_le.mp noRoom), Nat.not_le.mp noRoom⟩

/-- The clients of a new file that is all zeros. -/
def fresh : Clients :=
  match construct { mem := fun _ => 0 } with
  | .done _ tx => { tx, regions := [] }
  | _ => { tx := { mem := fun _ => 0 }, regions := [] }

theorem fresh_start : fresh.Start := by
  refine ⟨fun _ => 0, fun _ _ _ _ => rfl, ?_, ?_⟩
  all_goals
    obtain ⟨_, tx, ended, _⟩ := construct_space (m := fun _ => 0) fun _ _ _ _ => rfl
    rw [fresh, ended]

instance (c : Clients) (op : SpaceOp) : Decidable (c.Admitted op) := by
  cases op <;> unfold Admitted <;> infer_instance

/-- A region is used, freed and allocated again while another one is held. -/
def reuse : List SpaceOp :=
  [.allocate 1, .allocate 0, .write 42 7 [5], .free 41 1, .allocate 1]

theorem allocate_exclusive_reuse :
    (run step Admitted fresh reuse).map regions = some [(41, 1), (43, 0)] ∧
    ∃ lists, Accounted lists ((run step Admitted fresh reuse).getD fresh) ∧ ∀ order, order ≤ 30 →
      (SpaceManager.allocate order ((run step Admitted fresh reuse).getD fresh).tx).Ends
          (Exclusive lists ((run step Admitted fresh reuse).getD fresh) order) ∨
        SpaceManager.allocate order ((run step Admitted fresh reuse).getD fresh).tx = .stuck ∧
          maxPages < MetaPage.nextFreePage ((run step Admitted fresh reuse).getD fresh).tx.mem + 2 ^ order :=
  ⟨by decide +kernel, allocate_exclusive fresh_start (.of_isSome (by decide +kernel))⟩

end Clients

end DiskMap
