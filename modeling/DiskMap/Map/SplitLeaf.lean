import DiskMap.Map.WriteAtNode

namespace DiskMap
open ByteMemory LeafNodeStartPage DiskMap.Tree

variable {t t' : Tx} {held : Multiset Nat} {lists : Nat → FreeList} {parent depth : Nat} {new : KVEntry}

/-- A program that puts a leaf and a new entry below a new node. -/
def SplitsBelow (run : Nat → TxProgram Unit) (leaf : Tree) (depth bound : Nat) (new : KVEntry) : Prop :=
  ∀ ⦃lists held t⦄ q, Space lists (held + {q} + leaf.pages) t → ZeroPage t.mem q → q < 2 ^ 63 → leaf.Rep t.mem →
    Fits (MetaPage.nextFreePage t.mem + bound) (run q t) fun _ t' => ∃ children : Fin branchingFactor → Tree,
      (node q children).Rep t'.mem ∧ (node q children).Sorts depth (leaf.entries + {new}) ∧
        (∃ lists, Space lists (held + (node q children).pages) t') ∧ Frame held t t'

/-- A new node takes the place of the leaf. -/
theorem splitLeafFrom_down {key existingKey buffer : List UInt8} {fuel leafPage bound : Nat} {leaf : Tree}
    (below : SplitsBelow (fun q => splitLeafFrom key existingKey buffer leafPage fuel q (depth + 1)) leaf (depth + 1) bound new)
    (space : Space lists (held + leaf.pages) t) (rep : leaf.Rep t.mem) (owns : Owns held parent)
    (same : digit existingKey depth = digit key depth) :
    Fits (MetaPage.nextFreePage t.mem + (1 + bound)) (splitLeafFrom key existingKey buffer leafPage (fuel + 1) parent depth t)
      fun _ t' => ∃ sub : Tree, sub.Sorts (depth + 1) (leaf.entries + {new}) ∧
        Regrown held parent (digit key depth) sub (MetaPage.kvEntryCount t.mem) t t' := by
  rw [splitLeafFrom]
  simp only [getBucket_digit, same, if_true]
  refine (allocate_fits space (by omega)).bind (by omega) fun q t₁ allocated le => ?_
  obtain ⟨⟨lists₁, space₁⟩, zero, _, low⟩ := allocated_leaf allocated
  rw [single_page] at space₁
  rw [setMsb_node low, writeInt_bind]
  obtain ⟨t₂, is₂⟩ : ∃ t₂, t₁.write parent (InternalNodePage.entriesOffset (digit key depth)) 8 (leBytes 8 (q + 2 ^ 63)) = t₂ := ⟨_, rfl⟩
  rw [is₂]
  have wrote : WroteOnly parent t₁ t₂ := by
    rw [← is₂]
    exact .write (InternalNodePage.entriesOffset_inside (digit key depth).isLt) _
  obtain ⟨entry, siblings⟩ := InternalNodePage.setEntry t₁.mem parent (digit key depth) (show q + 2 ^ 63 < 2 ^ 64 by omega)
  have mem : overwrite t₁.mem (parent * pageSize + InternalNodePage.entriesOffset (digit key depth)) 8 (leBytes 8 (q + 2 ^ 63)) = t₂.mem := by
    rw [← is₂]
    rfl
  rw [mem] at entry siblings
  have keeps : ∀ p ∈ held, p ∈ held + leaf.pages := fun p member => Multiset.mem_add.mpr (Or.inl member)
  have before : ∀ p, Owns held p → SamePage t.mem t₁.mem p := fun p theirs => allocated.frame.owned theirs keeps
  have mine : Owns (held + leaf.pages + {q}) parent := owns.imp_right fun member => Multiset.mem_add.mpr (Or.inl (keeps parent member))
  obtain ⟨space₂, next, kv, stray⟩ := space₁.touched (.ofWroteOnly wrote) fun p member => Multiset.mem_singleton.mp member ▸ mine
  have other : ∀ p, p ∈ leaf.pages + {q} → p ≠ parent := by
    rw [add_assoc] at space₁
    rintro p member rfl
    rcases owns with rfl | theirs
    · have bounds := space₁.held_bounds (Multiset.mem_add.mpr (Or.inr member))
      omega
    · exact space₁.held_ne theirs member rfl
  rw [add_right_comm] at space₂
  have rep₂ := (rep.congr fun p member => allocated.frame.pages p (Multiset.mem_add.mpr (Or.inr member))).congr fun p member =>
    wrote.others p (other p (Multiset.mem_add.mpr (Or.inl member)))
  have zero₂ := zero.congr (wrote.others q (other q (Multiset.mem_add.mpr (Or.inr (Multiset.mem_singleton_self q)))))
  refine (below q space₂ zero₂ low rep₂).mono (by omega) ?_
  rintro _ t' ⟨children, rep', sorts, space', frame⟩
  have after : ∀ p, Owns held p → SamePage t₂.mem t'.mem p := fun p theirs => frame.owned theirs fun _ member => member
  refine ⟨node q children, sorts, ⟨space', rep', ?_, fun i bound other => ?_, fun p theirs other => ?_, ?_, ?_⟩⟩
  · exact (InternalNodePage.entries_congr (after parent owns) (digit key depth).isLt).trans entry
  · rw [InternalNodePage.entries_congr (after parent owns) bound, siblings i other, InternalNodePage.entries_congr (before parent owns) bound]
  · exact ((before p theirs).trans (wrote.others p other)).trans (after p theirs)
  · exact (frame.kvEntryCount.trans kv).trans allocated.frame.kvEntryCount
  · exact (frame.strayWrites.trans stray).trans allocated.frame.strayWrites

theorem splitLeafFrom_below (existing : KVEntry) (leafPage : Nat) (regions : List Nat) {key buffer : List UInt8} {fuel d : Nat}
    (storable : Storable [⟨key, buffer⟩]) (deeper : depth ≤ d) (bound : d < splitsPerHash)
    (apart : digit existing.key d ≠ digit key d) (crowded : Crowded ((leaf leafPage [existing] regions).entries + {⟨key, buffer⟩})) (enough : splitsPerHash ≤ fuel + depth) :
    SplitsBelow (fun q => splitLeafFrom key existing.key buffer leafPage fuel q depth) (.leaf leafPage [existing] regions) depth
      (1 + KVEntry.size ⟨key, buffer⟩ / 512 + 2 * (splitsPerHash - depth)) ⟨key, buffer⟩ := by
  induction fuel generalizing depth with
  | zero => omega
  | succ fuel ih =>
    intro lists held t q space zero low rep
    have mine : q ∈ held + {q} := Multiset.mem_add.mpr (Or.inr (Multiset.mem_singleton_self q))
    have blank := blank_rep zero low
    have placedBlank : (node q noChildren).Placed depth := fun _ => ⟨trivial, fun e impossible => absurd impossible (Multiset.notMem_zero e)⟩
    have noEntries := blank_entries q
    by_cases same : digit existing.key depth = digit key depth
    · have shallow : depth + 1 ≤ d := by
        rcases Nat.lt_or_eq_of_le deeper with below | rfl
        · exact below
        · exact absurd same apart
      refine (splitLeafFrom_down (ih shallow (by omega)) space rep (Or.inr mine) same).mono (by omega) ?_
      rintro _ t' ⟨sub, ⟨placed, content, needed⟩, regrown⟩
      rw [← blank_pages q] at regrown space
      rw [add_assoc] at space
      obtain ⟨rep', space', frame⟩ := regrown.child (noChildren_apply _) _ blank space
      refine ⟨_, rep', .node (placed_update placedBlank placed fun e member => ?_) ?_ crowded (needed_update (fun _ => trivial) needed),
        space', frame⟩
      · rw [content] at member
        rcases Multiset.mem_add.mp member with old | added
        · rw [Multiset.mem_singleton.mp old]
          exact same
        · rw [Multiset.mem_singleton.mp added]
      · rw [entries_update (noChildren_apply _), noEntries, zero_add, content]
    · dsimp only
      rw [splitLeafFrom]
      simp only [getBucket_digit, Fin.val_inj, if_neg same]
      rw [setMsb_leaf rep.2.1, writeInt_bind]
      obtain ⟨linked, next⟩ := setEntry_regrown space ⟨fun p _ => .refl t.mem p, .refl t.mem 1, rfl, rfl⟩ (Or.inr mine)
        (digit existing.key depth).isLt rep
      change Fits _ (createSubtree q (digit key depth) depth [⟨key, buffer⟩]
        (t.write q (InternalNodePage.entriesOffset (digit existing.key depth)) 8 (leBytes 8 leafPage))) _
      change MetaPage.nextFreePage
        (t.write q (InternalNodePage.entriesOffset (digit existing.key depth)) 8 (leBytes 8 leafPage)).mem = _ at next
      change Regrown _ _ _ _ _ _ (t.write q (InternalNodePage.entriesOffset (digit existing.key depth)) 8 (leBytes 8 leafPage)) at linked
      generalize t.write q (InternalNodePage.entriesOffset (digit existing.key depth)) 8 (leBytes 8 leafPage) = t₁ at linked next
      rw [← blank_pages q] at linked space
      rw [add_assoc] at space
      obtain ⟨rep₁, ⟨lists₁, space₁⟩, frame₁⟩ := linked.child (noChildren_apply _) _ blank space
      have entries₁ : (node q (Function.update noChildren (digit existing.key depth) (leaf leafPage [existing] regions))).entries =
          (node q noChildren).entries + (leaf leafPage [existing] regions).entries := entries_update (noChildren_apply _)
      have placed₁ : (node q (Function.update noChildren (digit existing.key depth) (leaf leafPage [existing] regions))).Placed depth :=
        placed_update placedBlank trivial fun e member => by rw [Multiset.mem_singleton.mp member]
      have free : Function.update noChildren (digit existing.key depth) (leaf leafPage [existing] regions) (digit key depth) = empty :=
        Function.update_of_ne (Ne.symm same) _ _
      have needed₁ : ∀ i, (Function.update noChildren (digit existing.key depth) (leaf leafPage [existing] regions) i).Needed :=
        needed_update (fun _ => trivial) trivial
      generalize Function.update noChildren (digit existing.key depth) (leaf leafPage [existing] regions) = children at *
      have hole : Hole lists₁ (held + (node q children).pages) q (digit key depth) empty t₁ :=
        { space := by
            rw [empty_pages, add_zero]
            exact space₁
          leaf := rfl
          rep := trivial
          owns := Or.inr (Multiset.mem_add.mpr (Or.inr (mem_pages_node.mpr (Or.inl rfl))))
          inside := (digit key depth).isLt
          entry := by rw [(rep₁.2 (digit key depth)).1, free] }
      have cost := subtreeCost_singleton (depth + 1) ⟨key, buffer⟩
      have none_ : empty.regionCount = 0 := rfl
      refine (createSubtree_fits hole storable (List.cons_ne_nil _ _) (splits_singleton _) (agree_singleton _ _)).mono (by omega) ?_
      rintro _ t' ⟨sub, ⟨placed, content, needed⟩, regrown⟩
      obtain ⟨rep', space', frame⟩ := regrown.child free 0 rep₁ (by rw [add_zero]; exact space₁)
      refine ⟨_, rep', .node (placed_update placed₁ placed fun e member => ?_) ?_ crowded (needed_update needed₁ needed), space',
        frame₁.trans frame⟩
      · rw [content] at member
        rw [List.mem_singleton.mp (Multiset.mem_coe.mp member)]
      · rw [entries_update free, entries₁, noEntries, zero_add, content]
        rfl

end DiskMap
