import DiskMap.Map.Remove

namespace DiskMap
open ByteMemory DiskMap.Tree

/-- The only child of a node besides the one in the hole. -/
def Branch.OnlyChild (b : Branch) (sub : Tree) : Prop :=
  sub ≠ empty ∧ ∃ i, i ≠ b.index ∧ b.children i = sub ∧ ∀ j, j ≠ b.index → j ≠ i → b.children j = empty

/-- The tree after the leaf at the end of a path is gone. -/
inductive Collapsed : List Branch → Tree → Prop
  | keeps {b : Branch} {rest : List Branch} (more : rest = [] ∨ ∀ sub, ¬ b.OnlyChild sub) : Collapsed (b :: rest) (plug (b :: rest) empty)
  | raises {b c : Branch} {rest : List Branch} {sub : Tree} (only : b.OnlyChild sub) : Collapsed (b :: c :: rest) (plug (c :: rest) sub)

section Count

variable {m : Mem} {parent i : Nat} {indexes : List Nat}

/-- With one child found, the loop looks for a second one. -/
theorem countSiblings_one (value : Nat) :
    ((indexes.filter fun i => InternalNodePage.entries m parent i ≠ 0) = [] → countSiblings m parent indexes (1, value) = (1, value)) ∧
      ((countSiblings m parent indexes (1, value)).1 = 1 → (indexes.filter fun i => InternalNodePage.entries m parent i ≠ 0) = []) := by
  induction indexes with
  | nil => exact ⟨fun _ => rfl, fun _ => rfl⟩
  | cons i rest ih =>
    rw [countSiblings]
    by_cases empty : InternalNodePage.entries m parent i = 0
    · rw [if_pos empty, List.filter_cons_of_neg (by simpa using empty)]
      exact ih
    · rw [if_neg empty, if_pos (by decide), List.filter_cons_of_pos (by simpa using empty)]
      exact ⟨nofun, nofun⟩

theorem countSiblings_zero (value : Nat) :
    ((indexes.filter fun i => InternalNodePage.entries m parent i ≠ 0) = [i] →
        countSiblings m parent indexes (0, value) = (1, InternalNodePage.entries m parent i)) ∧
      ((countSiblings m parent indexes (0, value)).1 = 1 → ∃ i, (indexes.filter fun i => InternalNodePage.entries m parent i ≠ 0) = [i]) := by
  induction indexes with
  | nil => exact ⟨nofun, nofun⟩
  | cons j rest ih =>
    rw [countSiblings]
    by_cases empty : InternalNodePage.entries m parent j = 0
    · rw [if_pos empty, List.filter_cons_of_neg (by simpa using empty)]
      exact ih
    · rw [if_neg empty, if_neg (by decide), List.filter_cons_of_pos (by simpa using empty)]
      obtain ⟨alone, back⟩ := @countSiblings_one m parent rest (InternalNodePage.entries m parent j)
      refine ⟨fun is => ?_, fun one => ⟨j, congrArg (j :: ·) (back one)⟩⟩
      injection is with same none_
      rw [← same]
      exact alone none_

/-- The one child of a node is found. -/
theorem countSiblings_node {page : Nat} {children : Fin branchingFactor → Tree} (rep : (node page children).Rep m) :
    (∀ i, children i ≠ empty → (∀ j, j ≠ i → children j = empty) →
        countSiblings m page (List.range branchingFactor) (0, 0) = (1, (children i).entry)) ∧
      ((countSiblings m page (List.range branchingFactor) (0, 0)).1 = 1 → ∃ i, children i ≠ empty ∧ ∀ j, j ≠ i → children j = empty) := by
  have nonzero : ∀ j : Fin branchingFactor, InternalNodePage.entries m page j ≠ 0 ↔ children j ≠ empty := fun j => by
    rw [(rep.2 j).1]
    refine not_congr ⟨eq_empty_of_entry (rep.2 j).2, fun is => ?_⟩
    rw [is]
    rfl
  have member : ∀ j : Fin branchingFactor, j.val ∈ (List.range branchingFactor).filter (fun i => InternalNodePage.entries m page i ≠ 0) ↔
      children j ≠ empty := fun j => by
    rw [List.mem_filter, List.mem_range, decide_eq_true_iff, nonzero j]
    exact and_iff_right j.isLt
  have nodup := (@List.nodup_range branchingFactor).filter fun i => decide (InternalNodePage.entries m page i ≠ 0)
  constructor
  · intro i some_ others
    rw [← (rep.2 i).1]
    refine (countSiblings_zero 0).1 ?_
    by_contra other
    rcases (nodup.ne_singleton_iff i.val).mp other with none_ | ⟨k, inside, different⟩
    · exact List.ne_nil_of_mem ((member i).mpr some_) none_
    · have bound := List.mem_range.mp (List.mem_filter.mp inside).1
      exact (member ⟨k, bound⟩).mp inside (others ⟨k, bound⟩ fun same => different (congrArg Fin.val same))
  · intro one
    obtain ⟨k, is⟩ := (countSiblings_zero (i := 0) 0).2 one
    have inside : k ∈ (List.range branchingFactor).filter (fun i => InternalNodePage.entries m page i ≠ 0) := by
      rw [is]
      exact List.mem_singleton_self k
    have bound := List.mem_range.mp (List.mem_filter.mp inside).1
    refine ⟨⟨k, bound⟩, (member ⟨k, bound⟩).mp inside, fun j other => ?_⟩
    by_contra some_
    have again := (member j).mpr some_
    rw [is, List.mem_singleton] at again
    exact other (Fin.ext again)

end Count

variable {t t₁ t' : Tx} {held held' : Multiset Nat} {lists : Nat → FreeList} {parent index kv : Nat} {sub : Tree} {b : Branch}
  {rest : List Branch}

theorem Branch.OnlyChild.sum {α : Type} (only : b.OnlyChild sub) (f : Tree → Multiset α) (nothing : f empty = 0) :
    ∑ i ∈ Finset.univ.erase b.index, f (b.children i) = f sub := by
  obtain ⟨_, i, other, is, others⟩ := only
  rw [Finset.sum_eq_single_of_mem i (Finset.mem_erase.mpr ⟨other, Finset.mem_univ i⟩), is]
  intro j member different
  rw [others j (Finset.ne_of_mem_erase member) different, nothing]

theorem Branch.OnlyChild.pathEntries (only : b.OnlyChild sub) : pathEntries (b :: rest) = sub.entries + Tree.pathEntries rest := by
  change 0 + ∑ i ∈ Finset.univ.erase b.index, (b.children i).entries + Tree.pathEntries rest = _
  rw [only.sum Tree.entries rfl, zero_add]

/-- The pages of a node that has a hole and one child. -/
theorem Branch.OnlyChild.pages (only : b.OnlyChild sub) : (node b.page (Function.update b.children b.index empty)).pages = sub.pages + {b.page} := by
  rw [pages_node, Tree.sum_update b.children b.index Tree.pages, only.sum Tree.pages rfl, empty_pages, zero_add, add_comm]

/-- What happens to pages that are not held any more does not matter. -/
theorem Regrown.framed (regrown : Regrown held' parent index sub kv t t₁) (space : Space lists (held + sub.pages) t')
    (frame : Frame (held + sub.pages) t₁ t') (fewer : ∀ p ∈ held, p ∈ held') (owns : Owns held parent) (inside : index < branchingFactor) :
    Regrown held parent index sub kv t t' := by
  have same : ∀ p, Owns held p → SamePage t₁.mem t'.mem p := fun p theirs =>
    frame.owned theirs fun _ member => Multiset.mem_add.mpr (Or.inl member)
  exact
    { space := ⟨lists, space⟩
      rep := regrown.rep.congr fun p member => frame.pages p (Multiset.mem_add.mpr (Or.inr member))
      entry := (InternalNodePage.entries_congr (same parent owns) inside).trans regrown.entry
      siblings := fun i bound other => (InternalNodePage.entries_congr (same parent owns) bound).trans (regrown.siblings i bound other)
      frame := fun p theirs other => (regrown.frame p (theirs.imp_right (fewer p)) other).trans (same p theirs)
      kvEntryCount := frame.kvEntryCount.trans regrown.kvEntryCount
      strayWrites := frame.strayWrites.trans regrown.strayWrites }

/-- Once the leaf at the end of a path is gone, its node goes too if it has one child left and is not the root. -/
theorem collapse_fits (rooted : Rooted (plug (b :: rest) empty) lists t) :
    Fits (MetaPage.nextFreePage t.mem + 1) (collapse b.page (aboveNode rest) t) fun _ t' => ∃ tree' lists', Rooted tree' lists' t' ∧
      Collapsed (b :: rest) tree' ∧ MetaPage.kvEntryCount t'.mem = MetaPage.kvEntryCount t.mem ∧ t'.strayWrites = t.strayWrites := by
  cases rest with
  | nil => exact .intro rfl ⟨_, lists, rooted, .keeps (Or.inl rfl), rfl, rfl⟩ (Nat.le_succ _)
  | cons c rest =>
    obtain ⟨children, is⟩ : ∃ children, Function.update b.children b.index empty = children := ⟨_, rfl⟩
    have hole : children b.index = empty := by rw [← is, Function.update_self]
    have others : ∀ i, i ≠ b.index → children i = b.children i := fun i other => by rw [← is, Function.update_of_ne other]
    have shape : plug (b :: c :: rest) empty = plug (c :: rest) (node b.page children) := by rw [← is, plug]
    rw [shape] at rooted
    obtain ⟨path, rep⟩ := rep_plug.mp rooted.rep
    obtain ⟨found, one⟩ := countSiblings_node rep
    rw [aboveNode, List.head?_cons, Option.map_some, collapse, getPage_bind]
    by_cases single : ∃ sub, b.OnlyChild sub
    · obtain ⟨sub, only⟩ := single
      have pages := only.pages
      rw [is] at pages
      obtain ⟨some_, i, other, here, empties⟩ := id only
      have child : children i = sub := (others i other).trans here
      have counted := found i (child ▸ some_) fun j different => by
        by_cases same : j = b.index
        · rw [same, hole]
        · rw [others j same, empties j same different]
      rw [counted, child]
      simp only
      rw [if_pos trivial, writeInt_bind]
      have subRep : sub.Rep t.mem := child ▸ (rep.2 i).2
      have owns : Owns ((pathPages (c :: rest)).erase rootPage) c.page := Rooted.owns_path (mem_pathPages_cons.mpr (Or.inl rfl))
      have region : ({b.page} : Multiset Nat) = Multiset.Ico b.page (b.page + 2 ^ 0) := (single_page b.page).symm.trans (leafPages_nil b.page)
      have space := rooted.space
      rw [rooted.erase_pages, pages, region, ← add_assoc, add_right_comm] at space
      obtain ⟨regrown, next⟩ := setEntry_regrown space ⟨fun p _ => .refl t.mem p, .refl t.mem 1, rfl, rfl⟩
        (owns.imp_right fun member => Multiset.mem_add.mpr (Or.inl member)) c.index.isLt subRep
      obtain ⟨lists₁, space₁⟩ := regrown.space
      rw [add_right_comm] at space₁
      refine (free_fits space₁ (Nat.zero_le _)).mono (Nat.add_le_add_right next.le _) ?_
      rintro _ t' ⟨⟨lists', space', _⟩, frame, _⟩
      have whole := regrown.framed space' frame (fun p member => Multiset.mem_add.mpr (Or.inl member)) owns c.index.isLt
      obtain ⟨lists'', rooted'⟩ := rooted.regrow whole
      exact ⟨_, lists'', rooted', .raises only, whole.kvEntryCount, whole.strayWrites⟩
    · have several : (countSiblings t.mem b.page (List.range branchingFactor) (0, 0)).1 ≠ 1 := fun is_one => by
        obtain ⟨i, some_, empties⟩ := one is_one
        have other : i ≠ b.index := fun same => some_ (same ▸ hole)
        refine single ⟨b.children i, others i other ▸ some_, i, other, rfl, fun j elsewhere different => ?_⟩
        rw [← others j elsewhere]
        exact empties j different
      obtain ⟨found, count⟩ : ∃ found, countSiblings t.mem b.page (List.range branchingFactor) (0, 0) = found := ⟨_, rfl⟩
      rw [count] at several ⊢
      simp only
      rw [if_neg several]
      refine .intro rfl ⟨_, lists, rooted, ?_, rfl, rfl⟩ (Nat.le_succ _)
      rw [← shape]
      exact .keeps (Or.inr fun sub only => single ⟨sub, only⟩)

end DiskMap
