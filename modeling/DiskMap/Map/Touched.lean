import DiskMap.Map.Freeing

namespace DiskMap
open ByteMemory

/-- A program of a client of the space manager: it ends with the property, and the file does not have more pages
then, or the file would get too long. -/
abbrev Fits {α : Type} (bound : Nat) (o : Outcome Tx α) (post : α → Tx → Prop) : Prop :=
  o.Within (fun t => MetaPage.nextFreePage t.mem) maxPages bound post

/-- The root page, and the pages that clients hold. -/
def Owns (held : Multiset Nat) (page : Nat) : Prop := page = 1 ∨ page ∈ held

/-- Of all pages only these have been written to. -/
structure Touched (pages : Multiset Nat) (t t' : Tx) : Prop where
  others : ∀ p, p ∉ pages → SamePage t.mem t'.mem p
  freeListed : t'.freeListed = t.freeListed
  strayWrites : (∀ p ∈ pages, t.onFreeList p = false) → t'.strayWrites = t.strayWrites

variable {lists : Nat → FreeList} {held pages : Multiset Nat} {t t' t'' : Tx} {order : Nat}

namespace Touched

theorem refl (pages : Multiset Nat) (t : Tx) : Touched pages t t := ⟨fun p _ => .refl t.mem p, rfl, fun _ => rfl⟩

theorem trans (first : Touched pages t t') (second : Touched pages t' t'') : Touched pages t t'' where
  others p other := (first.others p other).trans (second.others p other)
  freeListed := second.freeListed.trans first.freeListed
  strayWrites quiet := by
    refine (second.strayWrites fun p member => ?_).trans (first.strayWrites quiet)
    rw [Tx.onFreeList, first.freeListed]
    exact quiet p member

theorem mono {pages' : Multiset Nat} (touched : Touched pages t t') (more : ∀ p ∈ pages, p ∈ pages') : Touched pages' t t' where
  others p other := touched.others p fun member => other (more p member)
  freeListed := touched.freeListed
  strayWrites quiet := touched.strayWrites fun p member => quiet p (more p member)

theorem ofWroteOnly {page : Nat} (wrote : WroteOnly page t t') : Touched {page} t t' where
  others p other := wrote.others p fun same => other (Multiset.mem_singleton.mpr same)
  freeListed := wrote.freeListed
  strayWrites quiet := wrote.strayWrites (quiet page (Multiset.mem_singleton_self page))

theorem write {page offset length : Nat} (member : page ∈ pages) (inside : offset + length ≤ pageSize) (bytes : List UInt8) :
    Touched pages t (t.write page offset length bytes) :=
  (ofWroteOnly (.write inside bytes)).mono fun _ same => Multiset.mem_singleton.mp same ▸ member

end Touched

theorem Space.quiet (space : Space lists held t) {page : Nat} (owns : Owns held page) : t.onFreeList page = false :=
  space.not_onFreeList (owns.imp (fun root => by omega) Or.inr)

theorem Space.owned_ne (space : Space lists held t) {page : Nat} (owns : Owns held page) :
    page ≠ 0 ∧ page < MetaPage.nextFreePage t.mem ∧ page ∉ fplPages lists := by
  have low := space.fpl_bounds (Nat.zero_le _) (space.base 0 (Nat.zero_le _))
  rcases owns with rfl | mine
  · refine ⟨by omega, by omega, fun fpl => ?_⟩
    have bounds := space.mem_iff.mp (Or.inl fpl)
    omega
  · have bounds := space.held_bounds mine
    exact ⟨by omega, bounds.2, fun fpl => (space.apart.1 fpl).2 mine⟩

/-- Clients may write to their pages. -/
theorem Space.touched (space : Space lists held t) (touched : Touched pages t t') (owns : ∀ p ∈ pages, Owns held p) :
    Space lists held t' ∧ MetaPage.nextFreePage t'.mem = MetaPage.nextFreePage t.mem ∧
      MetaPage.kvEntryCount t'.mem = MetaPage.kvEntryCount t.mem ∧ t'.strayWrites = t.strayWrites := by
  have fields := (MetaIs.refl t.mem).congr (touched.others 0 fun member => (space.owned_ne (owns 0 member)).1 rfl)
  have stray := touched.strayWrites fun p member => space.quiet (owns p member)
  refine ⟨⟨fun o within => ?_, space.base, touched.freeListed ▸ space.listed, ?_, ?_, fun p above => ?_⟩, fields.nextFreePage,
    fields.kvEntryCount, stray⟩
  · have before := space.stored o within
    refine ⟨(fields.lastFplPage o within).trans before.page, (fields.lastFplPageEntries o within).trans before.count,
      before.stored.congr (fplLinks_sameOn fun p member => touched.others p fun mine => ?_)⟩
    exact (space.owned_ne (owns p mine)).2.2 (Space.mem_fplPages.mpr ⟨o, within, member⟩)
  · rw [fields.nextFreePage, touched.freeListed]
    exact space.owned
  · rw [fields.nextFreePage]
    exact space.bound
  · rw [fields.nextFreePage] at above
    refine (space.fresh p above).congr (touched.others p fun mine => ?_)
    have bounds := (space.owned_ne (owns p mine)).2.1
    omega

/-- The other pages stay as they are. -/
theorem Touched.frame (touched : Touched pages t t') (space : Space lists (held + pages) t) : Frame held t t' := by
  have owns : ∀ p ∈ pages, Owns (held + pages) p := fun p member => Or.inr (Multiset.mem_add.mpr (Or.inr member))
  obtain ⟨_, _, kv, stray⟩ := space.touched touched owns
  refine ⟨fun p mine => touched.others p fun member => space.held_ne mine member rfl, touched.others 1 fun member => ?_, kv, stray⟩
  have bounds := space.held_bounds (Multiset.mem_add.mpr (Or.inr member))
  omega

theorem allocate_fits (space : Space lists held t) (small : order < 31) :
    Fits (MetaPage.nextFreePage t.mem + 2 ^ order) (SpaceManager.allocate order t) (Allocated lists held order t) := by
  by_cases room : (lists order).entries = [] → MetaPage.nextFreePage t.mem + 2 ^ order ≤ maxPages
  · exact Or.inl ((allocate_allocated space small room).mono fun _ _ allocated => ⟨allocated, allocated.next⟩)
  · obtain ⟨empty, noRoom⟩ := Classical.not_imp.mp room
    exact Or.inr ⟨allocate_stuck space small empty (Nat.not_le.mp noRoom), Nat.not_le.mp noRoom⟩

theorem free_fits {page : Nat} (space : Space lists (held + Multiset.Ico page (page + 2 ^ order)) t) (within : order ≤ maxOrder) :
    Fits (MetaPage.nextFreePage t.mem + 1) (SpaceManager.free page order t) fun _ t' =>
      Freed held (Multiset.Ico page (page + 2 ^ order)) t t' := by
  rcases free_outcome space within with ends | ⟨never, _, _, noRoom⟩
  · exact Or.inl (ends.mono fun _ _ freed => ⟨freed, freed.next⟩)
  · exact Or.inr ⟨never, noRoom⟩

end DiskMap
