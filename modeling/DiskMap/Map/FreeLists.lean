import DiskMap.Library.PagedStack
import DiskMap.Map.SpaceManager
import Mathlib.Algebra.BigOperators.Group.Finset.Basic
import Mathlib.Algebra.Order.BigOperators.Group.Finset
import Mathlib.Algebra.Order.Group.Multiset
import Mathlib.Order.Interval.Finset.Nat
import Mathlib.Order.Interval.Multiset

namespace DiskMap
open ByteMemory

def fplLinks (m : Mem) : PageLinks Nat Nat where
  null := 0
  previous := FPLPage.previous m
  next := FPLPage.next m
  entry := FPLPage.entries m

/-- A free page list: a stack of the first pages of regions. -/
abbrev FreeList := PagedStack Nat Nat

structure FreeListAt (m : Mem) (order : Nat) (s : FreeList) : Prop where
  page : MetaPage.lastFplPage m order = s.page
  count : MetaPage.lastFplPageEntries m order = s.entries.length
  stored : s.Stored (fplLinks m) fplPageCapacity

/-- The pages of regions that are given by their first page and their order. -/
def pagesOf (regions : Multiset (Nat × Nat)) : Multiset Nat :=
  regions.bind fun region => Multiset.Ico region.1 (region.1 + 2 ^ region.2)

def fplPages (lists : Nat → FreeList) : Multiset Nat :=
  ∑ order ∈ Finset.range (maxOrder + 1), ((lists order).pages : Multiset Nat)

def freeRegions (lists : Nat → FreeList) : Multiset (Nat × Nat) :=
  ∑ order ∈ Finset.range (maxOrder + 1), ((lists order).elements.map fun page => (page, order) : List (Nat × Nat))

/-- The free lists and the clients, who hold the pages `held`, own every page behind the root once. -/
structure Space (lists : Nat → FreeList) (held : Multiset Nat) (t : Tx) : Prop where
  stored : ∀ order, order ≤ maxOrder → FreeListAt t.mem order (lists order)
  base : ∀ order, order ≤ maxOrder → order + 2 ∈ (lists order).pages
  listed : (t.freeListed : Multiset (Nat × Nat)) = freeRegions lists
  owned : fplPages lists + pagesOf t.freeListed + held = Multiset.Ico 2 (MetaPage.nextFreePage t.mem)
  bound : MetaPage.nextFreePage t.mem ≤ maxPages
  fresh : ∀ page, MetaPage.nextFreePage t.mem ≤ page → ZeroPage t.mem page

/-- What a call of the space manager leaves alone. -/
structure Frame (held : Multiset Nat) (t t' : Tx) : Prop where
  pages : ∀ page ∈ held, SamePage t.mem t'.mem page
  root : SamePage t.mem t'.mem 1
  kvEntryCount : MetaPage.kvEntryCount t'.mem = MetaPage.kvEntryCount t.mem
  strayWrites : t'.strayWrites = t.strayWrites

theorem Frame.trans {held : Multiset Nat} {t t' t'' : Tx} (first : Frame held t t') (second : Frame held t' t'') :
    Frame held t t'' :=
  ⟨fun page member => (first.pages page member).trans (second.pages page member), first.root.trans second.root,
    second.kvEntryCount.trans first.kvEntryCount, second.strayWrites.trans first.strayWrites⟩

theorem mem_pagesOf {regions : Multiset (Nat × Nat)} {page : Nat} :
    page ∈ pagesOf regions ↔ ∃ region ∈ regions, region.1 ≤ page ∧ page < region.1 + 2 ^ region.2 := by
  simp only [pagesOf, Multiset.mem_bind, Multiset.mem_Ico]

theorem onFreeList_iff {t : Tx} {page : Nat} : t.onFreeList page = true ↔ page ∈ pagesOf t.freeListed := by
  rw [mem_pagesOf]
  simp only [Tx.onFreeList, List.any_eq_true, Bool.and_eq_true, decide_eq_true_eq, Multiset.mem_coe]

@[simp] theorem pagesOf_cons (region : Nat × Nat) (regions : Multiset (Nat × Nat)) :
    pagesOf (region ::ₘ regions) = Multiset.Ico region.1 (region.1 + 2 ^ region.2) + pagesOf regions :=
  Multiset.cons_bind _ _ _

section Update

variable {β : Type} {f : Nat → FreeList → Multiset β} {lists : Nat → FreeList} {order : Nat} {s : FreeList}

theorem sum_update (within : order ≤ maxOrder) :
    ∑ o ∈ Finset.range (maxOrder + 1), f o (Function.update lists order s o) + f order (lists order) =
      ∑ o ∈ Finset.range (maxOrder + 1), f o (lists o) + f order s := by
  have member : order ∈ Finset.range (maxOrder + 1) := Finset.mem_range.mpr (Nat.lt_succ_of_le within)
  rw [← Finset.add_sum_erase _ _ member, ← Finset.add_sum_erase _ (fun o => f o (lists o)) member,
    Function.update_self]
  have rest : ∑ o ∈ (Finset.range (maxOrder + 1)).erase order, f o (Function.update lists order s o) =
      ∑ o ∈ (Finset.range (maxOrder + 1)).erase order, f o (lists o) := by
    refine Finset.sum_congr rfl fun o other => ?_
    rw [Function.update_of_ne (Finset.ne_of_mem_erase other)]
  rw [rest]
  rw [add_assoc, add_comm, add_comm (f order (lists order))]

theorem sum_update_grow (within : order ≤ maxOrder) {extra : Multiset β} (grown : f order s = f order (lists order) + extra) :
    ∑ o ∈ Finset.range (maxOrder + 1), f o (Function.update lists order s o) =
      ∑ o ∈ Finset.range (maxOrder + 1), f o (lists o) + extra := by
  have total := @sum_update β f lists order s within
  rw [grown, ← add_assoc, add_right_comm] at total
  exact add_right_cancel total

theorem sum_update_shrink (within : order ≤ maxOrder) {extra : Multiset β} (shrunk : f order (lists order) = f order s + extra) :
    ∑ o ∈ Finset.range (maxOrder + 1), f o (lists o) =
      ∑ o ∈ Finset.range (maxOrder + 1), f o (Function.update lists order s o) + extra := by
  have total := @sum_update β f lists order s within
  rw [shrunk, ← add_assoc, add_right_comm] at total
  exact (add_right_cancel total).symm

end Update

namespace Space

variable {lists : Nat → FreeList} {held : Multiset Nat} {t t' : Tx}

theorem nodup (space : Space lists held t) : (fplPages lists + pagesOf t.freeListed + held).Nodup := by
  rw [space.owned]
  exact Multiset.nodup_Ico

theorem pages_le {order : Nat} (within : order ≤ maxOrder) : ((lists order).pages : Multiset Nat) ≤ fplPages lists :=
  Finset.single_le_sum (f := fun o => ((lists o).pages : Multiset Nat)) (fun _ _ => Multiset.zero_le _)
    (Finset.mem_range.mpr (Nat.lt_succ_of_le within))

theorem mem_fplPages {page : Nat} : page ∈ fplPages lists ↔ ∃ order, order ≤ maxOrder ∧ page ∈ (lists order).pages := by
  simp only [fplPages, Multiset.mem_sum, Finset.mem_range, Nat.lt_succ_iff, Multiset.mem_coe]

theorem pages_nodup (space : Space lists held t) {order : Nat} (within : order ≤ maxOrder) : (lists order).pages.Nodup := by
  have all := Multiset.nodup_of_le ((Multiset.le_add_right _ _).trans (Multiset.le_add_right _ _)) space.nodup
  exact Multiset.coe_nodup.mp (Multiset.nodup_of_le (pages_le within) all)

theorem pages_disjoint (space : Space lists held t) {order order' : Nat} (within : order ≤ maxOrder)
    (within' : order' ≤ maxOrder) (different : order ≠ order') {page : Nat} (member : page ∈ (lists order).pages) :
    page ∉ (lists order').pages := by
  have all := Multiset.nodup_of_le ((Multiset.le_add_right _ _).trans (Multiset.le_add_right _ _)) space.nodup
  have both : ((lists order).pages : Multiset Nat) + (lists order').pages ≤ fplPages lists := by
    rw [← Finset.sum_pair (f := fun o => ((lists o).pages : Multiset Nat)) different]
    refine Finset.sum_le_sum_of_subset fun o member => Finset.mem_range.mpr ?_
    rcases Finset.mem_insert.mp member with rfl | last
    · omega
    · rw [Finset.mem_singleton.mp last]
      omega
  have apart := (Multiset.nodup_add.mp (Multiset.nodup_of_le both all)).2.2
  exact fun other => Multiset.disjoint_left.mp apart (Multiset.mem_coe.mpr member) (Multiset.mem_coe.mpr other)

theorem mem_iff (space : Space lists held t) {page : Nat} :
    page ∈ fplPages lists ∨ page ∈ pagesOf t.freeListed ∨ page ∈ held ↔ 2 ≤ page ∧ page < MetaPage.nextFreePage t.mem := by
  rw [← Multiset.mem_Ico, ← space.owned, Multiset.mem_add, Multiset.mem_add, or_assoc]

theorem fpl_bounds (space : Space lists held t) {order page : Nat} (within : order ≤ maxOrder)
    (member : page ∈ (lists order).pages) : 2 ≤ page ∧ page < MetaPage.nextFreePage t.mem :=
  space.mem_iff.mp (Or.inl (mem_fplPages.mpr ⟨order, within, member⟩))

theorem held_bounds (space : Space lists held t) {page : Nat} (member : page ∈ held) :
    2 ≤ page ∧ page < MetaPage.nextFreePage t.mem :=
  space.mem_iff.mp (Or.inr (Or.inr member))

/-- Pages that are not in a list are behind those that the constructor has set up. -/
theorem not_fpl (space : Space lists held t) {page : Nat} (lower : 2 ≤ page) (outside : page ∉ fplPages lists) :
    maxOrder + 3 ≤ page := by
  by_contra below
  have member := space.base (page - 2) (by omega)
  rw [Nat.sub_add_cancel lower] at member
  exact outside (mem_fplPages.mpr ⟨page - 2, by omega, member⟩)

theorem apart (space : Space lists held t) {page : Nat} :
    (page ∈ fplPages lists → page ∉ pagesOf t.freeListed ∧ page ∉ held) ∧ (page ∈ pagesOf t.freeListed → page ∉ held) := by
  obtain ⟨first, _, last⟩ := Multiset.nodup_add.mp space.nodup
  obtain ⟨_, _, between⟩ := Multiset.nodup_add.mp first
  refine ⟨fun fpl => ⟨fun free => ?_, fun mine => ?_⟩, fun free mine => ?_⟩
  · exact Multiset.disjoint_left.mp between fpl free
  · exact Multiset.disjoint_left.mp last (Multiset.mem_add.mpr (Or.inl fpl)) mine
  · exact Multiset.disjoint_left.mp last (Multiset.mem_add.mpr (Or.inr free)) mine

theorem held_maxOrder (space : Space lists held t) {page : Nat} (member : page ∈ held) : maxOrder + 3 ≤ page :=
  space.not_fpl (space.held_bounds member).1 fun fpl => (space.apart.1 fpl).2 member

theorem not_onFreeList (space : Space lists held t) {page : Nat} (outside : page < 2 ∨ page ∈ fplPages lists ∨ page ∈ held) :
    t.onFreeList page = false := by
  rw [← Bool.not_eq_true, onFreeList_iff]
  intro free
  rcases outside with low | fpl | mine
  · have bounds := space.mem_iff.mp (Or.inr (Or.inl free))
    omega
  · exact (space.apart.1 fpl).1 free
  · exact space.apart.2 free mine

end Space

end DiskMap
