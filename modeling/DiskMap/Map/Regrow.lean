import DiskMap.Map.FindParent
import DiskMap.Map.FreeLeaf

namespace DiskMap
open ByteMemory DiskMap.Tree

/-- The end of `create_subtree`: an entry of an internal node gets a new value, and the leaf that it has pointed to is freed. -/
def replaceEntry (parent parentEntry newParentEntry : Nat) : TxProgram Unit := do
  let value ← getPage fun m => InternalNodePage.entries m parent parentEntry
  if value ≠ 0 then
    if getMsb value ≠ 0 then .throw "create_subtree: parent entry points to internal node"
    else freeLeaf (clearMsb value)
  writeInt 8 parent (InternalNodePage.entriesOffset parentEntry) newParentEntry

/-- An entry of an internal node, and the leaf behind it, if there is one. -/
structure Hole (lists : Nat → FreeList) (held : Multiset Nat) (parent index : Nat) (sub : Tree) (t : Tx) : Prop where
  space : Space lists (held + sub.pages) t
  leaf : sub.isNode = false
  rep : sub.Rep t.mem
  owns : Owns held parent
  inside : index < branchingFactor
  entry : InternalNodePage.entries t.mem parent index = sub.entry

/-- Behind one entry of an internal node there is another tree now. Everything else that belongs to clients is
as it was, except for the number of entries in the meta page. -/
structure Regrown (held : Multiset Nat) (parent index : Nat) (sub : Tree) (kvEntryCount : Nat) (t t' : Tx) : Prop where
  space : ∃ lists, Space lists (held + sub.pages) t'
  rep : sub.Rep t'.mem
  entry : InternalNodePage.entries t'.mem parent index = sub.entry
  siblings : ∀ i, i < branchingFactor → i ≠ index →
    InternalNodePage.entries t'.mem parent i = InternalNodePage.entries t.mem parent i
  frame : ∀ p, Owns held p → p ≠ parent → SamePage t.mem t'.mem p
  kvEntryCount : MetaPage.kvEntryCount t'.mem = kvEntryCount
  strayWrites : t'.strayWrites = t.strayWrites

/-- The regions of a leaf that is freed. -/
def Tree.regionCount : Tree → Nat
  | .leaf _ _ regions => regions.length + 1
  | _ => 0

variable {t t₁ t' : Tx} {held : Multiset Nat} {lists : Nat → FreeList} {parent index kv : Nat} {old sub : Tree} {b : Branch}
  {rest : List Branch} {depth : Nat}

theorem Frame.owned {held' : Multiset Nat} (frame : Frame held t t') {p : Nat} (owns : Owns held' p) (fewer : ∀ q ∈ held', q ∈ held) :
    SamePage t.mem t'.mem p := by
  rcases owns with rfl | mine
  · exact frame.root
  · exact frame.pages p (fewer p mine)

/-- The new tree is linked. -/
theorem setEntry_regrown (space : Space lists (held + sub.pages) t₁) (frame : Frame (held + sub.pages) t t₁) (owns : Owns held parent)
    (inside : index < branchingFactor) (rep : sub.Rep t₁.mem) :
    Regrown held parent index sub (MetaPage.kvEntryCount t.mem) t
        (t₁.write parent (InternalNodePage.entriesOffset index) 8 (leBytes 8 sub.entry)) ∧
      MetaPage.nextFreePage (t₁.write parent (InternalNodePage.entriesOffset index) 8 (leBytes 8 sub.entry)).mem =
        MetaPage.nextFreePage t₁.mem := by
  have wrote : WroteOnly parent t₁ (t₁.write parent (InternalNodePage.entriesOffset index) 8 (leBytes 8 sub.entry)) :=
    .write (InternalNodePage.entriesOffset_inside inside) _
  have keeps : ∀ p ∈ held, p ∈ held + sub.pages := fun p member => Multiset.mem_add.mpr (Or.inl member)
  have mine : Owns (held + sub.pages) parent := owns.imp_right (keeps parent)
  obtain ⟨space', next, kv, stray⟩ := space.touched (.ofWroteOnly wrote) fun p member => Multiset.mem_singleton.mp member ▸ mine
  obtain ⟨entry, siblings⟩ := InternalNodePage.setEntry t₁.mem parent index (entry_lt rep)
  have before := frame.owned owns keeps
  refine ⟨⟨⟨lists, space'⟩, rep.congr fun p member => wrote.others p ?_, entry, fun i bound other => ?_, fun p theirs other => ?_,
    kv.trans frame.kvEntryCount, stray.trans frame.strayWrites⟩, next⟩
  · rintro rfl
    rcases owns with rfl | held
    · have bounds := space.held_bounds (Multiset.mem_add.mpr (Or.inr member))
      omega
    · exact space.held_ne held member rfl
  · exact (siblings i other).trans (InternalNodePage.entries_congr before bound)
  · exact (frame.owned theirs keeps).trans (wrote.others p other)

theorem Hole.frame (hole : Hole lists held parent index old t) {lists₁ : Nat → FreeList} {held' : Multiset Nat}
    (space : Space lists₁ (held' + old.pages) t₁) (frame : Frame (held + old.pages) t t₁) (owns : Owns held' parent) :
    Hole lists₁ held' parent index old t₁ where
  space := space
  leaf := hole.leaf
  rep := hole.rep.congr fun p member => frame.pages p (Multiset.mem_add.mpr (Or.inr member))
  owns := owns
  inside := hole.inside
  entry := (InternalNodePage.entries_congr (frame.owned hole.owns fun _ member => Multiset.mem_add.mpr (Or.inl member)) hole.inside).trans
    hole.entry

theorem replaceEntry_fits (hole : Hole lists (held + sub.pages) parent index old t) (owns : Owns held parent) (rep : sub.Rep t.mem) :
    Fits (MetaPage.nextFreePage t.mem + old.regionCount) (replaceEntry parent index sub.entry t) fun _ t' =>
      Regrown held parent index sub (MetaPage.kvEntryCount t.mem) t t' := by
  obtain ⟨space, leaf, oldRep, _, inside, entry⟩ := hole
  rw [replaceEntry, getPage_bind, entry]
  cases old with
  | node page children => cases leaf
  | empty =>
    have space₁ : Space lists (held + sub.pages) t := by
      have nothing : held + sub.pages + (empty : Tree).pages = held + sub.pages := add_zero _
      rwa [nothing] at space
    obtain ⟨regrown, next⟩ := setEntry_regrown space₁ ⟨fun p _ => .refl t.mem p, .refl t.mem 1, rfl, rfl⟩ owns inside rep
    rw [Tree.entry, if_neg (fun h => h rfl)]
    exact .intro rfl regrown (next.le.trans (Nat.le_add_right _ _))
  | leaf page entries regions =>
    obtain ⟨nonzero, low, at_⟩ := oldRep
    rw [Tree.entry, if_pos nonzero, getMsb_leaf low, if_neg (fun h => h rfl), clearMsb_leaf low]
    refine (freeLeaf_fits space at_.links (at_.few.trans (by decide))).bind le_rfl ?_
    rintro _ t₁ ⟨⟨lists₁, space₁⟩, frame⟩ le
    have rep₁ := rep.congr fun p member => frame.pages p (Multiset.mem_add.mpr (Or.inr member))
    obtain ⟨regrown, next⟩ := setEntry_regrown space₁ frame owns inside rep₁
    exact .intro rfl regrown (next.le.trans le)

/-- The whole tree after one of its entries has got another tree. -/
theorem Regrown.rep_plug (regrown : Regrown held b.page b.index sub kv t t') (rep : (plug (b :: rest) old).Rep t.mem)
    (nodup : (pathPages (b :: rest)).Nodup) (owns : ∀ p ∈ pathPages (b :: rest), Owns held p) : (plug (b :: rest) sub).Rep t'.mem := by
  obtain ⟨⟨_, low, others, path⟩, _⟩ := Tree.rep_plug.mp rep
  have same : ∀ p, (∃ i, i ≠ b.index ∧ p ∈ (b.children i).pages) ∨ p ∈ pathPages rest → SamePage t.mem t'.mem p := fun p elsewhere =>
    regrown.frame p (owns p (mem_pathPages_cons.mpr (Or.inr elsewhere))) (pathPages_ne nodup elsewhere)
  refine Tree.rep_plug.mpr ⟨⟨regrown.entry, low, fun i other => ⟨?_, ?_⟩, path.congr fun p member => same p (Or.inr member)⟩, regrown.rep⟩
  · exact (regrown.siblings i i.isLt fun eq => other (Fin.ext eq)).trans (others i other).1
  · exact (others i other).2.congr fun p member => same p (Or.inl ⟨i, other, member⟩)

/-- Only the leaf itself changes. -/
theorem Hole.touched (hole : Hole lists held parent index old t) (touched : Touched old.pages t t') (pages : sub.pages = old.pages)
    (entry : sub.entry = old.entry) (rep : sub.Rep t'.mem) :
    Regrown held parent index sub (MetaPage.kvEntryCount t.mem) t t' ∧ MetaPage.nextFreePage t'.mem = MetaPage.nextFreePage t.mem := by
  obtain ⟨space', next, kv, stray⟩ := hole.space.touched touched fun p member => Or.inr (Multiset.mem_add.mpr (Or.inr member))
  have same : ∀ p, Owns held p → SamePage t.mem t'.mem p := fun p owns => (touched.frame hole.space).owned owns fun _ member => member
  refine ⟨⟨⟨lists, by rw [pages]; exact space'⟩, rep, ?_, fun i bound _ => InternalNodePage.entries_congr (same parent hole.owns) bound,
    fun p theirs _ => same p theirs, kv, stray⟩, next⟩
  rw [InternalNodePage.entries_congr (same parent hole.owns) hole.inside, hole.entry, entry]

/-- What has happened before left the pages alone. -/
theorem Regrown.before (regrown : Regrown held parent index sub kv t₁ t') (owns : Owns held parent)
    (same : ∀ p, Owns held p → SamePage t.mem t₁.mem p) (stray : t₁.strayWrites = t.strayWrites) :
    Regrown held parent index sub kv t t' where
  space := regrown.space
  rep := regrown.rep
  entry := regrown.entry
  siblings i bound other := (regrown.siblings i bound other).trans (InternalNodePage.entries_congr (same parent owns) bound)
  frame p theirs other := (same p theirs).trans (regrown.frame p theirs other)
  kvEntryCount := regrown.kvEntryCount
  strayWrites := regrown.strayWrites.trans stray

theorem empty_pages : empty.pages = 0 := rfl

theorem plug_child (page : Nat) (children : Fin branchingFactor → Tree) (i : Fin branchingFactor) :
    plug [⟨page, children, i⟩] (children i) = node page children := by
  rw [plug, plug, Function.update_eq_self]

/-- The children of a page of zeros. -/
def Tree.noChildren : Fin branchingFactor → Tree := fun _ => empty

theorem noChildren_apply (i : Fin branchingFactor) : noChildren i = empty := rfl

theorem blank_rep {q : Nat} (zero : ZeroPage t.mem q) (low : q < 2 ^ 63) : (node q noChildren).Rep t.mem :=
  ⟨low, fun i => ⟨zero.leAt_eq (InternalNodePage.entriesOffset_inside i.isLt), trivial⟩⟩

theorem blank_pages (q : Nat) : (node q noChildren).pages = {q} := by simp [pages_node, noChildren, empty_pages]

theorem blank_entries (q : Nat) : (node q noChildren).entries = 0 := by simp [Tree.entries, collect, noChildren]

section Update

variable {q : Nat} {children : Fin branchingFactor → Tree} {i : Fin branchingFactor} (blank : children i = empty)

include blank

theorem pathPages_empty : pathPages [⟨q, children, i⟩] = (node q children).pages := by
  rw [← plug_child q children i, pages_plug, blank, empty_pages, add_zero]

theorem pages_update : (node q (Function.update children i sub)).pages = (node q children).pages + sub.pages := by
  rw [← pathPages_empty blank]
  exact (pages_plug : (plug [⟨q, children, i⟩] sub).pages = pathPages [⟨q, children, i⟩] + sub.pages)

theorem entries_update : (node q (Function.update children i sub)).entries = (node q children).entries + sub.entries := by
  have before : (node q children).entries = pathEntries [⟨q, children, i⟩] := by
    rw [← plug_child q children i, entries_plug, blank]
    exact add_zero _
  rw [before]
  exact (entries_plug : (plug [⟨q, children, i⟩] sub).entries = pathEntries [⟨q, children, i⟩] + sub.entries)

/-- A node gets a child, while the caller may hold more. -/
theorem Regrown.child (extra : Multiset Nat) (regrown : Regrown (held + (node q children).pages) q i sub (MetaPage.kvEntryCount t.mem) t t')
    (rep : (node q children).Rep t.mem) (space : Space lists (held + ((node q children).pages + extra)) t) :
    (node q (Function.update children i sub)).Rep t'.mem ∧
      (∃ lists, Space lists (held + (node q (Function.update children i sub)).pages) t') ∧ Frame held t t' := by
  have shape := plug_child q children i
  rw [blank] at shape
  have mine : q ∈ (node q children).pages + extra := Multiset.mem_add.mpr (Or.inl (mem_pages_node.mpr (Or.inl rfl)))
  have nodup := Multiset.nodup_of_le (Multiset.le_add_left _ _) (Multiset.nodup_of_le (Multiset.le_add_left _ _) space.nodup)
  replace nodup := Multiset.nodup_of_le (Multiset.le_add_right _ _) nodup
  rw [← pathPages_empty blank] at nodup
  obtain ⟨lists', space'⟩ := regrown.space
  have before : (plug [⟨q, children, i⟩] empty).Rep t.mem := by
    rw [shape]
    exact rep
  refine ⟨Regrown.rep_plug regrown before nodup fun p member => ?_, ⟨lists', ?_⟩, ?_⟩
  · rw [pathPages_empty blank] at member
    exact Or.inr (Multiset.mem_add.mpr (Or.inr member))
  · rw [pages_update blank, ← add_assoc]
    exact space'
  · have other : ∀ p, Owns held p → p ≠ q := by
      rintro p (rfl | theirs) rfl
      · have bounds := space.held_bounds (Multiset.mem_add.mpr (Or.inr mine))
        omega
      · exact space.held_ne theirs mine rfl
    have keeps : ∀ p, Owns held p → SamePage t.mem t'.mem p := fun p owns =>
      regrown.frame p (owns.imp_right fun member => Multiset.mem_add.mpr (Or.inl member)) (other p owns)
    exact ⟨fun p member => keeps p (Or.inr member), keeps 1 (Or.inl rfl), regrown.kvEntryCount, regrown.strayWrites⟩

end Update

theorem needed_update {children : Fin branchingFactor → Tree} {i : Fin branchingFactor} (others : ∀ j, (children j).Needed) (needed : sub.Needed)
    (j : Fin branchingFactor) : (Function.update children i sub j).Needed := by
  by_cases same : j = i
  · subst same
    rw [Function.update_self]
    exact needed
  · rw [Function.update_of_ne same]
    exact others j

theorem placed_update {q : Nat} {children : Fin branchingFactor → Tree} {i : Fin branchingFactor} (others : (node q children).Placed depth)
    (placed : sub.Placed (depth + 1)) (digits : ∀ e ∈ sub.entries, digit e.key depth = i) :
    (node q (Function.update children i sub)).Placed depth := by
  intro j
  by_cases same : j = i
  · subst same
    rw [Function.update_self]
    exact ⟨placed, digits⟩
  · rw [Function.update_of_ne same]
    exact others j

end DiskMap
