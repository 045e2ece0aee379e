import DiskMap.Map.Collapse
import DiskMap.Map.HashCollisions

namespace DiskMap
open ByteMemory MachineInts LeafNodeStartPage DiskMap.Tree

variable {t t₁ t' : Tx} {tree sub : Tree} {lists : Nat → FreeList} {b : Branch} {rest : List Branch} {key v : List UInt8} {page value : Nat}
  {front back : List KVEntry} {regions : List Nat}

theorem Rooted.recounted (rooted : Rooted tree lists t) (recounted : Recounted lists (tree.pages.erase rootPage) value t t') :
    Rooted tree lists t' where
  root := rooted.root
  rep := rooted.rep.congr fun p member => recounted.pages p (by
    have nonzero := (rooted.bounds member).1
    omega)
  space := recounted.space

theorem decreaseKvEntryCount_run (rooted : Rooted tree lists t) (some_ : 1 ≤ MetaPage.kvEntryCount t.mem) :
    ∃ t', decreaseKvEntryCount t = .done () t' ∧ Rooted tree lists t' ∧ MetaPage.kvEntryCount t'.mem = MetaPage.kvEntryCount t.mem - 1 ∧
      t'.strayWrites = t.strayWrites ∧ MetaPage.nextFreePage t'.mem = MetaPage.nextFreePage t.mem := by
  have small : MetaPage.kvEntryCount t.mem < 2 ^ 64 := leAt_lt _ _ _
  have recounted := rooted.space.recounted (show MetaPage.kvEntryCount t.mem - 1 < 2 ^ 64 by omega) rfl
  rw [← sub64_eq some_ small] at recounted
  refine ⟨_, rfl, rooted.recounted recounted, ?_, recounted.strayWrites, recounted.next⟩
  rw [recounted.kvEntryCount, sub64_eq some_ small]

/-- What is left of a leaf and its path when an entry is gone. -/
def LeftBy (path : List Branch) (page : Nat) (regions : List Nat) (entries : List KVEntry) (tree' : Tree) : Prop :=
  if entries = [] then Collapsed path tree' else tree' = plug path (leaf page entries regions)

theorem removeEntry_fits (wf : WellFormed (plug (b :: rest) (leaf page (front ++ ⟨key, v⟩ :: back) regions)) lists t) (beyond : Mem) :
    Fits (MetaPage.nextFreePage t.mem + 32) (removeEntry beyond ⟨b.page, b.index, aboveNode rest, page⟩ (entriesSize front) key t)
      fun _ t' => ∃ tree' lists', Rooted tree' lists' t' ∧ LeftBy (b :: rest) page regions (front ++ back) tree' ∧
        MetaPage.kvEntryCount t'.mem = MetaPage.kvEntryCount t.mem ∧ t'.strayWrites = t.strayWrites := by
  have hole := wf.hole (rfl : (leaf page (front ++ ⟨key, v⟩ :: back) regions).isNode = false)
  obtain ⟨nonzero, low, at_⟩ := hole.rep
  have few := at_.few
  have length : (front ++ ⟨key, v⟩ :: back).length = (front ++ back).length + 1 := by
    rw [List.length_append, List.length_cons, List.length_append, Nat.add_assoc]
  rw [removeEntry, getPage_bind, at_.entryCount, length]
  by_cases alone : front ++ back = []
  · rw [alone, List.length_nil, if_pos rfl]
    have nothing : (pathPages (b :: rest)).erase rootPage + empty.pages = (pathPages (b :: rest)).erase rootPage := add_zero _
    refine (freeLeaf_fits hole.space at_.links (few.trans (by decide))).bind (by omega) ?_
    rintro _ t₁ ⟨⟨lists₁, space₁⟩, frame⟩ le
    rw [← nothing] at space₁ frame
    have rep : empty.Rep t₁.mem := trivial
    obtain ⟨regrown, next⟩ := setEntry_regrown space₁ frame hole.owns hole.inside rep
    obtain ⟨lists₂, rooted⟩ := wf.rooted.regrow regrown
    rw [writeInt_bind]
    refine (collapse_fits rooted).mono (by rw [next]; omega) ?_
    rintro _ t' ⟨tree', lists', rooted', collapsed, kv, stray⟩
    refine ⟨tree', lists', rooted', ?_, kv.trans regrown.kvEntryCount, stray.trans regrown.strayWrites⟩
    rw [LeftBy, if_pos rfl]
    exact collapsed
  · have several : (front ++ back).length + 1 ≠ 1 := fun one => alone (List.length_eq_zero_iff.mp (by omega))
    obtain rfl : regions = [] := by
      by_contra chained
      exact several (length ▸ (at_.single chained).1)
    rw [if_neg several]
    obtain ⟨t', run, touched, single⟩ := shiftEntries_run at_.singlePage at_.headersInside beyond
    have keys : WellKeyed (front ++ back) := by
      have sub : (front ++ back).Sublist (front ++ ⟨key, v⟩ :: back) := List.Sublist.append_left (List.sublist_cons_self _ _) front
      exact ⟨fun e member => at_.keys.nulFree e (sub.subset member), (sub.map KVEntry.key).nodup at_.keys.nodup⟩
    have short : ∀ e ∈ front ++ back, e.key.length ≤ maxKeyLength := fun e member => at_.short e (by
      rcases List.mem_append.mp member with before | behind
      · exact List.mem_append_left _ before
      · exact List.mem_append_right _ (List.mem_cons_of_mem _ behind))
    have rep' : (leaf page (front ++ back) []).Rep t'.mem := ⟨nonzero, low, .ofSinglePage single alone keys short⟩
    have pages : (leaf page (front ++ back) []).pages = (leaf page (front ++ ⟨key, v⟩ :: back) []).pages := rfl
    obtain ⟨regrown, next⟩ := hole.touched touched pages rfl rep'
    obtain ⟨lists', rooted'⟩ := wf.rooted.regrow regrown
    refine .intro run ⟨_, lists', rooted', ?_, regrown.kvEntryCount, regrown.strayWrites⟩ (by omega)
    rw [LeftBy, if_neg alone]

/-- `remove` of a stored key. When the tree collapses, other keys may get lost. -/
theorem remove_fits (wf : WellFormed (plug (b :: rest) (leaf page (front ++ ⟨key, v⟩ :: back) regions)) lists t) (follows : Follows key (b :: rest))
    (offset : offsetOf key (front ++ ⟨key, v⟩ :: back) = some (entriesSize front)) (beyond : Mem) :
    Fits (MetaPage.nextFreePage t.mem + 32) (remove beyond key t) fun r t' => r = true ∧ ∃ tree' lists', Rooted tree' lists' t' ∧
      LeftBy (b :: rest) page regions (front ++ back) tree' ∧ MetaPage.kvEntryCount t'.mem + 1 = MetaPage.kvEntryCount t.mem ∧
        t'.strayWrites = t.strayWrites := by
  have last : (leaf page (front ++ ⟨key, v⟩ :: back) regions).isNode = false := rfl
  obtain ⟨nonzero, _, at_⟩ := (wf.hole last).rep
  have noNul := at_.keys.nulFree ⟨key, v⟩ (List.mem_append_right _ List.mem_cons_self)
  have some_ : 1 ≤ MetaPage.kvEntryCount t.mem := by
    rw [wf.kvEntryCount, entries_plug, Multiset.card_add]
    have positive : 1 ≤ (front ++ ⟨key, v⟩ :: back).length := by
      rw [List.length_append, List.length_cons]
      omega
    exact positive.trans (Nat.le_add_left _ _)
  have found : findEntryInLeaf (data t.mem page beyond) key = some (entriesSize front) := (at_.findEntryInLeaf_eq noNul.2 beyond).trans offset
  rw [remove, Program.done_bind (wf.rooted.descend_run follows last), Tree.entry, if_neg nonzero]
  simp only
  rw [getPage_bind, found]
  simp only
  refine (removeEntry_fits wf beyond).bind le_rfl ?_
  rintro _ t₁ ⟨tree', lists', rooted', left, kv, stray⟩ le
  rw [← kv] at some_
  obtain ⟨t', run, rooted'', count, stray', next⟩ := decreaseKvEntryCount_run rooted' some_
  rw [Program.done_bind run]
  exact .intro rfl ⟨rfl, tree', lists', rooted'', left, by omega, stray'.trans stray⟩ (next.le.trans le)

/-- What is found is in the tree, wherever the digits lead. -/
theorem mem_of_lookup {depth : Nat} (found : tree.lookup key depth = some v) : (⟨key, v⟩ : KVEntry) ∈ tree.entries := by
  induction tree generalizing depth with
  | empty => cases found
  | leaf page entries regions =>
    obtain ⟨front, back, is, _⟩ := valueOf_eq_some found
    change (⟨key, v⟩ : KVEntry) ∈ (entries : Multiset KVEntry)
    rw [Multiset.mem_coe, is]
    exact List.mem_append_right _ List.mem_cons_self
  | node page children ih => exact mem_entries_node.mpr ⟨_, ih _ found⟩

/-- A tree in which all entries are found has them where their digits lead. -/
theorem placed_of_lookup {depth : Nat} (nodup : (tree.entries.map KVEntry.key).Nodup)
    (all : ∀ e ∈ tree.entries, tree.lookup e.key depth = some e.value) : tree.Placed depth := by
  induction tree generalizing depth with
  | empty => trivial
  | leaf page entries regions => trivial
  | node page children ih =>
    intro i
    rw [entries_child page children i, Multiset.map_add, Multiset.nodup_add] at nodup
    obtain ⟨here, _, apart⟩ := nodup
    have turns : ∀ e ∈ (children i).entries, digit e.key depth = i ∧ (children i).lookup e.key (depth + 1) = some e.value := by
      intro e member
      have found : (children (digit e.key depth)).lookup e.key (depth + 1) = some e.value := all e (mem_entries_node.mpr ⟨i, member⟩)
      have turn : digit e.key depth = i := by
        by_contra other
        have elsewhere : e ∈ ∑ j ∈ Finset.univ.erase i, (children j).entries :=
          Multiset.mem_sum.mpr ⟨_, Finset.mem_erase.mpr ⟨other, Finset.mem_univ _⟩, mem_of_lookup found⟩
        exact Multiset.disjoint_left.mp apart (Multiset.mem_map_of_mem _ member) (Multiset.mem_map_of_mem _ elsewhere)
      exact ⟨turn, turn ▸ found⟩
    exact ⟨ih i here fun e member => (turns e member).2, fun e member => (turns e member).1⟩

/-- What `remove` raises in the place of a node when it takes away the last entry of a leaf, and the depth it gets to. -/
def Raises (tree : Tree) (key : List UInt8) (sub : Tree) (depth : Nat) : Prop :=
  ∃ b c rest page e regions, tree = plug (b :: c :: rest) (leaf page [e] regions) ∧ e.key = key ∧ Follows key (b :: c :: rest) ∧
    b.OnlyChild sub ∧ depth = (c :: rest).length

/-- The result of `remove`, and what is read afterwards. -/
structure Removes (beyond : Mem) (tree : Tree) (t : Tx) (key : List UInt8) (r : Bool) (t' : Tx) : Prop where
  returned : r = (tree.lookup key 0).isSome
  gone : (read beyond key t').Ends fun r' _ => r'.found = false
  others : ∀ key' v, key' ≠ key → tree.lookup key' 0 = some v → (read beyond key' t').Ends fun r' _ => r'.found = true ∧ r'.buffer = v
  kvEntryCount : MetaPage.kvEntryCount t'.mem + (if r then 1 else 0) = MetaPage.kvEntryCount t.mem

/-- No key with a zero byte is taken for another one, and all entries of a raised tree are found from its new place. The meta page,
which is read for an empty bucket, has no entry for a key that is not stored; and the bucket of a stored key does not get empty,
since its leaf has another entry or what is raised has its own leaf there, or the file is small. -/
structure RemovesCleanly (beyond : Mem) (tree : Tree) (t : Tx) (key : List UInt8) : Prop where
  unconfused : ¬ NulFree key → tree.bucketEntry key 0 ≠ 0 → findEntryInLeaf (data t.mem (tree.bucketEntry key 0) beyond) key = none
  found : ∀ sub depth, Raises tree key sub depth → ∀ e ∈ sub.entries, sub.lookup e.key depth = some e.value
  unlisted : tree.lookup key 0 = none → tree.bucketEntry key 0 = 0 → findEntryInLeaf (data t.mem 0 beyond) key = none
  unread : tree.lookup key 0 ≠ none → (∃ e ∈ tree.leafOf key 0, e.key ≠ key) ∨
    (∃ sub depth, Raises tree key sub depth ∧ sub.bucketEntry key depth ≠ 0) ∨ MetaPage.nextFreePage t.mem + 32 < 2 ^ 16

/-- `remove` of a key that is not found does nothing. -/
theorem Rooted.remove_absent (rooted : Rooted tree lists t) (beyond : Mem)
    (none_ : tree.bucketEntry key 0 ≠ 0 → findEntryInLeaf (data t.mem (tree.bucketEntry key 0) beyond) key = none) :
    remove beyond key t = .done false t := by
  obtain ⟨b, rest, sub, rfl, follows, last, _⟩ := rooted.findParent_run key
  rw [bucketEntry_plug follows, bucketEntry_leaf last] at none_
  rw [remove, Program.done_bind (rooted.descend_run follows last)]
  by_cases zero : sub.entry = 0
  · rw [if_pos zero]
    rfl
  · rw [if_neg zero]
    simp only
    rw [getPage_bind, none_ zero]
    rfl

/-- What is found in a leaf is removed, whatever is stored there. -/
theorem Rooted.remove_found (rooted : Rooted tree lists t) {beyond : Mem} {post : Bool → Tx → Prop} (leaf : tree.bucketEntry key 0 ≠ 0)
    (found : findEntryInLeaf (data t.mem (tree.bucketEntry key 0) beyond) key ≠ none) (ends : (remove beyond key t).Ends post) :
    ∃ t', post true t' := by
  obtain ⟨b, rest, sub, rfl, follows, last, _⟩ := rooted.findParent_run key
  rw [bucketEntry_plug follows, bucketEntry_leaf last] at leaf found
  obtain ⟨offset, is⟩ := Option.ne_none_iff_exists'.mp found
  rw [remove, Program.done_bind (rooted.descend_run follows last), if_neg leaf] at ends
  simp only at ends
  rw [getPage_bind, is] at ends
  simp only at ends
  obtain ⟨_, t₁, _, ends₁⟩ := ends.of_bind
  obtain ⟨_, t₂, _, _, _, ended, holds⟩ := ends₁.of_bind
  cases ended
  exact ⟨t₂, holds⟩

theorem Rooted.read_gone (rooted : Rooted tree lists t) {beyond : Mem}
    (none_ : tree.bucketEntry key 0 ≠ 0 → findEntryInLeaf (data t.mem (tree.bucketEntry key 0) beyond) key = none)
    (quiet : tree.bucketEntry key 0 = 0 → MetaPage.nextFreePage t.mem < 2 ^ 16) :
    (read beyond key t).Ends fun r _ => r.found = false := by
  refine .intro (rooted.reportsAbsent ?_).read rfl
  by_cases empty : tree.bucketEntry key 0 = 0
  · rw [empty]
    exact findEntryInLeaf_meta (by rw [Nat.div_eq_of_lt (quiet empty)]) key beyond
  · exact none_ empty

/-- A node has one only child at most. -/
theorem Branch.OnlyChild.unique {sub' : Tree} (only : b.OnlyChild sub) (only' : b.OnlyChild sub') : sub' = sub := by
  obtain ⟨some_, i, other, is, _⟩ := only
  obtain ⟨_, j, _, is', others⟩ := only'
  by_cases same : i = j
  · rw [← is', ← is, same]
  · exact absurd (is.symm.trans (others i other same)) some_

/-- The entry is gone, and all others are still in the tree. -/
theorem LeftBy.entries (key v : List UInt8) (left : LeftBy (b :: rest) page regions (front ++ back) tree') :
    (plug (b :: rest) (leaf page (front ++ ⟨key, v⟩ :: back) regions)).entries = ⟨key, v⟩ ::ₘ tree'.entries := by
  have here : (leaf page (front ++ ⟨key, v⟩ :: back) regions).entries = ⟨key, v⟩ ::ₘ ((front ++ back : List KVEntry) : Multiset KVEntry) := by
    change ((front ++ ⟨key, v⟩ :: back : List KVEntry) : Multiset KVEntry) = _
    rw [Multiset.cons_coe, Multiset.coe_eq_coe]
    exact List.perm_middle
  rw [entries_plug, here, Multiset.add_cons]
  refine congrArg (Multiset.cons (⟨key, v⟩ : KVEntry)) ?_
  unfold LeftBy at left
  split at left
  · rename_i none_
    rw [none_, Multiset.coe_nil, add_zero]
    cases left with
    | keeps more =>
      rw [entries_plug]
      exact (add_zero _).symm
    | raises only => rw [only.pathEntries, entries_plug, add_comm]
  · rw [left, entries_plug]
    rfl

theorem Raises.entries_le {depth : Nat} (raises : Raises tree key sub depth) : sub.entries ≤ tree.entries := by
  obtain ⟨b, c, rest, page, e, regions, rfl, _, _, only, _⟩ := raises
  rw [entries_plug, only.pathEntries, add_assoc]
  exact Multiset.le_add_right _ _

/-- Only what is raised may get to the wrong place. -/
theorem LeftBy.placed (left : LeftBy (b :: rest) page regions (front ++ back) tree') (follows : Follows key (b :: rest))
    (placed : (plug (b :: rest) (leaf page (front ++ ⟨key, v⟩ :: back) regions)).Placed 0)
    (raised : ∀ sub depth, Raises (plug (b :: rest) (leaf page (front ++ ⟨key, v⟩ :: back) regions)) key sub depth → sub.Placed depth) :
    tree'.Placed 0 := by
  obtain ⟨path, _, follow⟩ := placed_plug.mp placed
  unfold LeftBy at left
  split at left
  · rename_i none_
    cases left with
    | keeps more => exact placed_plug.mpr ⟨path, trivial, fun e member => absurd member (Multiset.notMem_zero e)⟩
    | raises only =>
      obtain ⟨rfl, rfl⟩ := List.append_eq_nil_iff.mp none_
      have here := raised _ _ ⟨_, _, _, page, ⟨key, v⟩, regions, rfl, rfl, follows, only, rfl⟩
      obtain ⟨_, i, other, rfl, _⟩ := only
      exact placed_plug.mpr ⟨path.2, here, fun e member => ((path.1 i other).2 e member).2⟩
  · rw [left]
    refine placed_plug.mpr ⟨path, trivial, fun e member => follow e ?_⟩
    have inside : e ∈ front ++ back := member
    change e ∈ front ++ ⟨key, v⟩ :: back
    rcases List.mem_append.mp inside with before | behind
    · exact List.mem_append_left _ before
    · exact List.mem_append_right _ (List.mem_cons_of_mem _ behind)

/-- `remove` of a stored key, if no bucket that it empties is read as the meta page. -/
theorem WellFormed.remove_leaf (wf : WellFormed (plug (b :: rest) (leaf page (front ++ ⟨key, v⟩ :: back) regions)) lists t)
    (room : MetaPage.nextFreePage t.mem + 32 ≤ maxPages) {beyond : Mem} (follows : Follows key (b :: rest))
    (offset : offsetOf key (front ++ ⟨key, v⟩ :: back) = some (entriesSize front))
    (stored : (plug (b :: rest) (leaf page (front ++ ⟨key, v⟩ :: back) regions)).lookup key 0 = some v)
    (found : ∀ sub depth, Raises (plug (b :: rest) (leaf page (front ++ ⟨key, v⟩ :: back) regions)) key sub depth →
      ∀ e ∈ sub.entries, sub.lookup e.key depth = some e.value)
    (unread : ∀ tree', LeftBy (b :: rest) page regions (front ++ back) tree' → tree'.bucketEntry key 0 = 0 →
      MetaPage.nextFreePage t.mem + 32 < 2 ^ 16) :
    (remove beyond key t).Ends (Removes beyond (plug (b :: rest) (leaf page (front ++ ⟨key, v⟩ :: back) regions)) t key) := by
  obtain ⟨_, _, _, _, _, _, s⟩ := wf.storedIn stored
  have noNul := s.noNul
  have fits := remove_fits wf follows offset beyond
  obtain ⟨_, t', ended, ⟨rfl, tree', lists', rooted', left, kv, _⟩, le⟩ := fits.resolve_right fun stuck => Nat.not_lt.mpr room stuck.2
  have entries := left.entries key v
  have nodup := entries_keys_nodup wf.rep wf.placed
  have placed := left.placed follows wf.placed fun sub depth raises =>
    placed_of_lookup (Multiset.nodup_of_le (Multiset.map_le_map raises.entries_le) nodup) (found sub depth raises)
  have keys := nodup
  rw [entries, Multiset.map_cons, Multiset.nodup_cons] at keys
  have count : MetaPage.kvEntryCount t'.mem = tree'.entries.card := by
    have before := wf.kvEntryCount
    rw [entries, Multiset.card_cons] at before
    omega
  have wf' : WellFormed tree' lists' t' := ⟨rooted'.root, rooted'.rep, placed, rooted'.space, count⟩
  have absent : tree'.lookup key 0 = none := by
    by_contra some_
    obtain ⟨w, found⟩ := Option.ne_none_iff_exists'.mp some_
    exact keys.1 (Multiset.mem_map.mpr ⟨_, mem_of_lookup found, rfl⟩)
  have lookup := lookup_insert wf'.rep placed wf.rep wf.placed absent entries
  refine .intro ended ⟨by rw [stored]; rfl, ?_, fun key' v' other found => ?_, by rw [if_pos rfl]; exact kv⟩
  · exact rooted'.read_gone (fun leaf => rooted'.leaf_absent noNul absent leaf beyond) fun empty =>
      Nat.lt_of_le_of_lt le (unread tree' left empty)
  · rw [lookup, if_neg other] at found
    exact (wf'.read_stored found beyond).mono fun _ _ got => got.2

theorem offsetOf_single : offsetOf key ([] ++ (⟨key, v⟩ : KVEntry) :: []) = some (entriesSize []) := by simp [offsetOf, entriesSize]

/-- Removing the only entry of a leaf raises the only other child of its node. -/
theorem LeftBy.raised {c : Branch} (left : LeftBy (b :: c :: rest) page regions ([] ++ []) tree') (only : b.OnlyChild sub) :
    tree' = plug (c :: rest) sub := by
  rw [LeftBy, if_pos (List.append_nil [])] at left
  cases left with
  | keeps more =>
    rcases more with root | none_
    · cases root
    · exact absurd only (none_ sub)
  | raises only' => rw [only'.unique only]

/-- `remove` of a stored key. -/
theorem WellFormed.remove_stored (wf : WellFormed tree lists t) (room : MetaPage.nextFreePage t.mem + 32 ≤ maxPages) {beyond : Mem}
    (stored : tree.lookup key 0 = some v) (clean : RemovesCleanly beyond tree t key) :
    (remove beyond key t).Ends (Removes beyond tree t key) := by
  rcases clean.unread (by rw [stored]; exact Option.some_ne_none v) with ⟨e, member, other⟩ | ⟨sub, depth, raises, filled⟩ | small
  · obtain ⟨b, rest, page, front, back, regions, s⟩ := wf.storedIn stored
    obtain rfl := s.tree
    refine wf.remove_leaf room s.follows s.offset stored clean.found fun tree' left empty => ?_
    rw [leafOf_plug s.follows] at member
    have several : front ++ back ≠ [] := by
      intro none_
      obtain ⟨rfl, rfl⟩ := List.append_eq_nil_iff.mp none_
      exact other (congrArg KVEntry.key (List.mem_singleton.mp member))
    rw [LeftBy, if_neg several] at left
    rw [left, bucketEntry_plug s.follows, bucketEntry_leaf rfl] at empty
    exact absurd empty s.nonzero
  · obtain ⟨b, c, rest, page, ⟨key, w⟩, regions, rfl, rfl, follows, only, rfl⟩ := raises
    have found := stored
    rw [lookup_plug follows] at found
    obtain rfl : w = v := by
      have inLeaf : valueOf key [⟨key, w⟩] = some v := found
      obtain ⟨_, _, is, _⟩ := valueOf_eq_some inLeaf
      have member : (⟨key, v⟩ : KVEntry) ∈ [(⟨key, w⟩ : KVEntry)] := by
        rw [is]
        exact List.mem_append_right _ List.mem_cons_self
      exact (congrArg KVEntry.value (List.mem_singleton.mp member)).symm
    have single : (leaf page [⟨key, w⟩] regions) = leaf page ([] ++ ⟨key, w⟩ :: []) regions := rfl
    rw [single] at wf stored clean
    refine wf.remove_leaf room follows offsetOf_single stored clean.found fun tree' left empty => ?_
    rw [left.raised only, bucketEntry_plug follows.2] at empty
    exact absurd empty filled
  · obtain ⟨b, rest, page, front, back, regions, s⟩ := wf.storedIn stored
    obtain rfl := s.tree
    exact wf.remove_leaf room s.follows s.offset stored clean.found fun _ _ _ => small

/-- `remove` of a key that is not stored. -/
theorem WellFormed.remove_other (wf : WellFormed tree lists t) {beyond : Mem} (absent : tree.lookup key 0 = none)
    (clean : RemovesCleanly beyond tree t key) : (remove beyond key t).Ends (Removes beyond tree t key) := by
  have none_ : tree.bucketEntry key 0 ≠ 0 → findEntryInLeaf (data t.mem (tree.bucketEntry key 0) beyond) key = none := fun leaf => by
    by_cases noNul : NulFree key
    · exact wf.rooted.leaf_absent noNul absent leaf beyond
    · exact clean.unconfused noNul leaf
  have gone : (read beyond key t).Ends fun r _ => r.found = false := by
    refine .intro (wf.rooted.reportsAbsent ?_).read rfl
    by_cases empty : tree.bucketEntry key 0 = 0
    · rw [empty]
      exact clean.unlisted absent empty
    · exact none_ empty
  refine .intro (wf.rooted.remove_absent beyond none_) ⟨by rw [absent]; rfl, gone, fun key' v _ found => ?_, ?_⟩
  · exact (wf.read_stored found beyond).mono fun _ _ got => got.2
  · rw [if_neg Bool.false_ne_true, Nat.add_zero]

/-- What is found where the bucket leads is read, whatever is stored there. -/
theorem Rooted.read_found (rooted : Rooted tree lists t) {beyond : Mem} {post : ReadResult → Tx → Prop}
    (found : findEntryInLeaf (data t.mem (tree.bucketEntry key 0) beyond) key ≠ none) (ends : (read beyond key t).Ends post) :
    ∃ r t', post r t' ∧ r.found = true := by
  obtain ⟨parent, index, depth, walk, entry, low⟩ := rooted.bucket_run key
  obtain ⟨offset, is⟩ := Option.ne_none_iff_exists'.mp found
  rw [read, readPart, Program.done_bind walk] at ends
  dsimp only at ends
  rw [getPage_bind, entry, getMsb_leaf low, if_neg (fun h => h rfl), clearMsb_leaf low, getPage_bind, is] at ends
  simp only at ends
  rw [getPage_bind, getPage_bind] at ends
  split at ends
  · obtain ⟨_, _, _, _, _, ended, holds⟩ := ends.of_bind
    cases ended
    exact ⟨_, _, holds, rfl⟩
  · obtain ⟨_, _, ended, holds⟩ := ends
    cases ended
    exact ⟨_, _, holds, rfl⟩

/-- A key is reported as not found only if the meta page has no entry for it where its bucket is empty. -/
theorem WellFormed.remove_unlisted (wf : WellFormed tree lists t) {beyond : Mem} (ends : (remove beyond key t).Ends (Removes beyond tree t key))
    (empty : tree.bucketEntry key 0 = 0) : findEntryInLeaf (data t.mem 0 beyond) key = none := by
  by_contra listed
  obtain ⟨_, _, ended, removes⟩ := ends
  obtain ⟨_, rfl⟩ := Outcome.done.inj ((wf.rooted.remove_absent beyond fun leaf => absurd empty leaf).symm.trans ended)
  rw [← empty] at listed
  obtain ⟨r, _, notFound, found⟩ := wf.rooted.read_found listed removes.gone
  rw [found] at notFound
  cases notFound

theorem Raises.stored {depth : Nat} (raises : Raises tree key sub depth) : tree.lookup key 0 ≠ none := by
  obtain ⟨b, c, rest, page, ⟨key, w⟩, regions, rfl, rfl, follows, _, rfl⟩ := raises
  rw [lookup_plug follows]
  change valueOf key [⟨key, w⟩] ≠ none
  simp [valueOf]

/-- An entry that is not found in what is raised is lost. -/
theorem WellFormed.remove_raised (wf : WellFormed tree lists t) (small : MetaPage.nextFreePage t.mem + 32 < 2 ^ 16) {beyond : Mem} {depth : Nat}
    {e : KVEntry} (ends : (remove beyond key t).Ends (Removes beyond tree t key)) (raises : Raises tree key sub depth)
    (member : e ∈ sub.entries) : sub.lookup e.key depth = some e.value := by
  have le := raises.entries_le
  have whole : tree.lookup e.key 0 = some e.value := (lookup_iff wf.rep wf.placed).mpr (Multiset.mem_of_le le member)
  have nodup := entries_keys_nodup wf.rep wf.placed
  obtain ⟨_, _, _, _, _, _, s⟩ := wf.storedIn whole
  have noNul := s.noNul
  obtain ⟨b, c, rest, page, ⟨key, v⟩, regions, rfl, rfl, follows, only, rfl⟩ := raises
  have room : MetaPage.nextFreePage t.mem + 32 ≤ maxPages := small.le.trans (by decide)
  have alone : WellFormed (plug (b :: c :: rest) (leaf page ([] ++ ⟨key, v⟩ :: []) regions)) lists t := wf
  have fits := remove_fits alone follows offsetOf_single beyond
  obtain ⟨_, t', ended, ⟨_, tree', lists', rooted', left, _⟩, next⟩ := fits.resolve_right fun stuck => Nat.not_lt.mpr room stuck.2
  obtain ⟨_, _, ended', removes⟩ := ends
  obtain ⟨_, rfl⟩ := Outcome.done.inj (ended.symm.trans ended')
  have entries := left.entries key v
  have after : MetaPage.nextFreePage t'.mem < 2 ^ 16 := Nat.lt_of_le_of_lt next small
  obtain rfl := left.raised only
  have other : e.key ≠ key := by
    intro is
    rw [List.nil_append] at entries
    rw [entries, Multiset.map_cons, Multiset.nodup_cons, entries_plug] at nodup
    exact nodup.1 (Multiset.mem_map.mpr ⟨e, Multiset.mem_add.mpr (Or.inr member), is⟩)
  obtain ⟨_, i, elsewhere, is, _⟩ := only
  have leads : Follows e.key (c :: rest) := (((placed_plug.mp wf.placed).1.1 i elsewhere).2 e (is ▸ member)).2
  by_contra lost
  have absent : (plug (c :: rest) sub).lookup e.key 0 = none := by
    rw [lookup_plug leads]
    by_contra some_
    obtain ⟨w, found⟩ := Option.ne_none_iff_exists'.mp some_
    have twice := (lookup_iff wf.rep wf.placed).mpr (Multiset.mem_of_le le (mem_of_lookup found))
    rw [whole] at twice
    exact lost (found.trans twice.symm)
  obtain ⟨_, _, gone, notFound⟩ := rooted'.read_gone (fun here => rooted'.leaf_absent noNul absent here beyond) fun _ => after
  obtain ⟨_, _, read, found, _⟩ := removes.others e.key e.value other whole
  rw [(Outcome.done.inj (gone.symm.trans read)).1, found] at notFound
  cases notFound

/-- If `remove` does not do what it should, a key with a zero byte has been taken for another one, or a node has been raised
whose entries are not found from its new place, or the meta page has been read for an empty bucket. -/
theorem remove_exact (wf : WellFormed tree lists t) (room : MetaPage.nextFreePage t.mem + 32 ≤ maxPages) (beyond : Mem) (key : List UInt8) :
    (RemovesCleanly beyond tree t key → (remove beyond key t).Ends (Removes beyond tree t key)) ∧
      (tree.lookup key 0 = none ∨ MetaPage.nextFreePage t.mem + 32 < 2 ^ 16 → (remove beyond key t).Ends (Removes beyond tree t key) →
        RemovesCleanly beyond tree t key) := by
  constructor
  · intro clean
    cases stored : tree.lookup key 0 with
    | some v => exact wf.remove_stored room stored clean
    | none => exact wf.remove_other stored clean
  intro either ends
  refine ⟨fun nul leaf => ?_, fun sub depth raises e member => ?_, fun _ empty => wf.remove_unlisted ends empty, fun stored => ?_⟩
  · by_contra found
    obtain ⟨t', removes⟩ := wf.rooted.remove_found leaf found ends
    obtain ⟨v, stored⟩ := Option.isSome_iff_exists.mp removes.returned.symm
    obtain ⟨_, _, _, _, _, _, s⟩ := wf.storedIn stored
    exact nul s.noNul
  · exact wf.remove_raised (either.resolve_left raises.stored) ends raises member
  · exact Or.inr (Or.inr (either.resolve_left stored))

/-- Where the loop of `remove` gets to: the bucket in the last node, whether that node is below the root, the number of entries in
the leaf, and another entry of the node. -/
def survey (key : List UInt8) (other : Nat) : TxProgram (Nat × Bool × Nat × Nat) := do
  let descent ← descendFrom key maxPages rootPage none 1
  match descent with
  | none => .stuck
  | some d =>
    let entryCount ← getPage fun m => LeafNodeStartPage.entryCount m d.leaf
    let sibling ← getPage fun m => InternalNodePage.entries m d.parent other
    return (d.parentEntry, d.grandparent.isSome, entryCount, sibling)

/-- Nothing is raised where this does not look like the only entry of a leaf below a node that is not the root. -/
theorem WellFormed.survey_raises (wf : WellFormed tree lists t) {other depth : Nat} (raises : Raises tree key sub depth)
    {r : Nat × Bool × Nat × Nat} (surveyed : (survey key other t).Ends fun r' _ => r' = r) :
    ∃ b : Branch, b.OnlyChild sub ∧ r = (b.index.val, true, 1, InternalNodePage.entries t.mem b.page other) ∧
      ∀ i, i ≠ b.index → InternalNodePage.entries t.mem b.page i = (b.children i).entry ∧ (b.children i).Rep t.mem := by
  obtain ⟨b, c, rest, page, e, regions, rfl, _, follows, only, _⟩ := raises
  obtain ⟨path, nonzero, _, at_⟩ := rep_plug.mp wf.rep
  rw [survey, Program.done_bind (wf.rooted.descend_run follows rfl), Tree.entry, if_neg nonzero] at surveyed
  simp only at surveyed
  rw [getPage_bind, getPage_bind, at_.entryCount] at surveyed
  obtain ⟨_, _, ended, is⟩ := surveyed
  cases ended
  exact ⟨b, only, is.symm, path.2.2.1⟩

theorem lookup_of_leaf {m : Mem} {depth : Nat} (rep : sub.Rep m) (last : sub.isNode = false) :
    ∀ e ∈ sub.entries, sub.lookup e.key depth = some e.value := by
  intro e member
  refine (lookup_iff rep ?_).mpr member
  cases sub with
  | node page children => cases last
  | _ => trivial

/-- Two large values whose keys share a bucket of the root, two small ones in a leaf, and one alone in its leaf. -/
def fiveEntries : List KVEntry :=
  [⟨[99, 116], [7]⟩, ⟨[98], [1]⟩, ⟨[97, 103], [2]⟩, ⟨[97], largeValue⟩, ⟨[97, 100], largeValue⟩]

/-- An entry of a shared leaf, the only one of a leaf below the root, and one whose node has one other leaf. -/
theorem remove_exact_three_cases : ∃ t tree lists, writeAll fiveEntries { mem := fun _ => 0 } = .done () t ∧ WellFormed tree lists t ∧
    tree.entries = (fiveEntries : Multiset KVEntry) ∧ (remove (fun _ => 0) [98] t).Ends (Removes (fun _ => 0) tree t [98]) ∧
    (remove (fun _ => 0) [99, 116] t).Ends (Removes (fun _ => 0) tree t [99, 116]) ∧
    (remove (fun _ => 0) [97] t).Ends (Removes (fun _ => 0) tree t [97]) := by
  obtain ⟨_, t, run, tree, lists, wf, entries, _⟩ :=
    writeAll_wellFormed fiveEntries (by decide +kernel) (by decide +kernel) (by decide +kernel)
  have pages : ((do
      writeAll fiveEntries
      getPage MetaPage.nextFreePage : TxProgram Nat) { mem := fun _ => 0 }).Ends fun next _ => next = maxOrder + 3 + 5 :=
    .of_result id (by decide +kernel)
  rw [Program.done_bind run] at pages
  have next : MetaPage.nextFreePage t.mem = maxOrder + 3 + 5 := by
    obtain ⟨_, _, ended, is⟩ := pages
    exact (Outcome.done.inj ended).1.trans is
  have clean : ∀ key v, tree.lookup key 0 = some v →
      (∀ sub depth, Raises tree key sub depth → ∀ e ∈ sub.entries, sub.lookup e.key depth = some e.value) →
        RemovesCleanly (fun _ => 0) tree t key := by
    intro key v stored found
    obtain ⟨_, _, _, _, _, _, s⟩ := wf.storedIn stored
    exact ⟨fun nul => absurd s.noNul nul, found, fun none_ => absurd (none_.symm.trans stored) nofun,
      fun _ => Or.inr (Or.inr (by rw [next]; decide))⟩
  have stored : ∀ e ∈ fiveEntries, tree.lookup e.key 0 = some e.value := fun e member =>
    (lookup_iff wf.rep wf.placed).mpr (entries ▸ Multiset.mem_coe.mpr member)
  have removes : ∀ key, RemovesCleanly (fun _ => 0) tree t key → (remove (fun _ => 0) key t).Ends (Removes (fun _ => 0) tree t key) :=
    fun key => (remove_exact wf (by rw [next]; decide) (fun _ => 0) key).1
  refine ⟨t, tree, lists, run, wf, entries,
    removes _ (clean [98] [1] (stored ⟨[98], [1]⟩ (by simp [fiveEntries])) fun sub depth raises => ?_),
    removes _ (clean [99, 116] [7] (stored ⟨[99, 116], [7]⟩ (by simp [fiveEntries])) fun sub depth raises => ?_),
    removes _ (clean [97] largeValue (stored ⟨[97], largeValue⟩ (by simp [fiveEntries])) fun sub depth raises => ?_)⟩
  · have surveyed : ((writeAll fiveEntries >>= fun _ => survey [98] 0) { mem := fun _ => 0 }).Ends fun r _ => r.2.2.1 = 2 :=
      .of_result _ (by decide +kernel)
    rw [Program.done_bind run] at surveyed
    obtain ⟨r, _, ended, two⟩ := surveyed
    obtain ⟨b, _, rfl, _⟩ := wf.survey_raises raises (.intro ended rfl)
    cases two
  · have surveyed : ((writeAll fiveEntries >>= fun _ => survey [99, 116] 0) { mem := fun _ => 0 }).Ends fun r _ => r.2.1 = false :=
      .of_result _ (by decide +kernel)
    rw [Program.done_bind run] at surveyed
    obtain ⟨r, _, ended, root⟩ := surveyed
    obtain ⟨b, _, rfl, _⟩ := wf.survey_raises raises (.intro ended rfl)
    cases root
  · have surveyed : ((writeAll fiveEntries >>= fun _ => survey [97] 411) { mem := fun _ => 0 }).Ends fun r _ =>
        (r.1, decide (r.2.2.2 = 0), getMsb r.2.2.2) = (219, false, 0) := .of_result _ (by decide +kernel)
    rw [Program.done_bind run] at surveyed
    obtain ⟨r, _, ended, leaf_⟩ := surveyed
    obtain ⟨b, ⟨_, j, elsewhere, is, others⟩, rfl, at_⟩ := wf.survey_raises raises (.intro ended rfl)
    obtain ⟨here, nonzero, low⟩ : b.index.val = 219 ∧ InternalNodePage.entries t.mem b.page 411 ≠ 0 ∧
        getMsb (InternalNodePage.entries t.mem b.page 411) = 0 := by
      simpa only [Prod.mk.injEq, decide_eq_false_iff_not] using leaf_
    obtain ⟨i, value⟩ : ∃ i : Fin branchingFactor, i.val = 411 := ⟨⟨411, by decide +kernel⟩, rfl⟩
    have other : i ≠ b.index := fun same => by
      rw [same, here] at value
      exact absurd value (by decide)
    obtain ⟨entry, rep⟩ := at_ i other
    rw [value] at entry
    obtain rfl : i = j := by
      by_contra different
      rw [others i other different] at entry
      exact nonzero entry
    subst is
    refine lookup_of_leaf rep ?_
    rw [entry, entry_msb rep] at low
    by_contra node_
    rw [if_pos (Bool.eq_true_of_not_eq_false node_)] at low
    cases low

section Lost

theorem card_pages_pos {depth : Nat} (found : tree.lookup key depth = some v) : 1 ≤ tree.pages.card := by
  cases tree with
  | empty => cases found
  | leaf page entries regions => exact Multiset.card_pos_iff_exists_mem.mpr ⟨page, start_mem page regions⟩
  | node page children => exact Multiset.card_pos_iff_exists_mem.mpr ⟨page, mem_pages_node.mpr (Or.inl rfl)⟩

theorem eq_empty_of_card (none_ : tree.pages.card = 0) : tree = empty := by
  have nothing := Multiset.card_eq_zero.mp none_
  cases tree with
  | empty => rfl
  | leaf page entries regions => exact absurd (nothing ▸ start_mem page regions) (Multiset.notMem_zero page)
  | node page children => exact absurd (nothing ▸ mem_pages_node.mpr (Or.inl rfl)) (Multiset.notMem_zero page)

/-- A child with as many pages as all children of the node together. -/
theorem Branch.OnlyChild.of_card {i : Fin branchingFactor} (other : i ≠ b.index) (some_ : 1 ≤ (b.children i).pages.card)
    (all : (∑ j ∈ Finset.univ.erase b.index, (b.children j).pages).card ≤ (b.children i).pages.card) : b.OnlyChild (b.children i) := by
  refine ⟨fun is => ?_, i, other, rfl, fun j elsewhere different => eq_empty_of_card ?_⟩
  · rw [is] at some_
    cases some_
  · rw [← Finset.add_sum_erase _ _ (Finset.mem_erase.mpr ⟨other, Finset.mem_univ i⟩), Multiset.card_add,
      ← Finset.add_sum_erase _ _ (Finset.mem_erase.mpr ⟨different, Finset.mem_erase.mpr ⟨elsewhere, Finset.mem_univ j⟩⟩),
      Multiset.card_add] at all
    omega

theorem three_pages {children : Fin branchingFactor → Tree} {i j : Fin branchingFactor} (different : i ≠ j)
    (first : 1 ≤ (children i).pages.card) (second : 1 ≤ (children j).pages.card) : 3 ≤ (node page children).pages.card := by
  rw [pages_node, ← Finset.add_sum_erase _ _ (Finset.mem_univ i),
    ← Finset.add_sum_erase _ _ (Finset.mem_erase.mpr ⟨different.symm, Finset.mem_univ j⟩), Multiset.card_add, Multiset.card_add,
    Multiset.card_add, Multiset.card_singleton]
  omega

/-- Two entries that do not fit into one leaf. -/
theorem node_of_large {m : Mem} {depth : Nat} {other w : List UInt8} (rep : tree.Rep m) (found : tree.lookup key depth = some v)
    (found' : tree.lookup other depth = some w) (different : key ≠ other) (large : capacity < KVEntry.size ⟨key, v⟩ + KVEntry.size ⟨other, w⟩) :
    ∃ page children, tree = node page children := by
  cases tree with
  | empty => cases found
  | node page children => exact ⟨page, children, rfl⟩
  | leaf page entries regions =>
    obtain ⟨front, back, is, _⟩ := valueOf_eq_some found
    have inside : (⟨other, w⟩ : KVEntry) ∈ entries := Multiset.mem_coe.mp (mem_of_lookup found')
    have part : ∀ l : List KVEntry, ⟨other, w⟩ ∈ l → KVEntry.size ⟨other, w⟩ ≤ entriesSize l := fun l member =>
      List.single_le_sum (fun _ _ => Nat.zero_le _) _ (List.mem_map_of_mem member)
    have fits : entriesSize entries ≤ capacity := (leafEntries_fit rep).resolve_left fun few => by
      obtain ⟨e, one⟩ := List.length_eq_one_iff.mp (few.antisymm (List.length_pos_of_mem inside))
      have both := Multiset.mem_coe.mp (mem_of_lookup found)
      change entries = [e] at one
      rw [one, List.mem_singleton] at inside both
      exact different (congrArg KVEntry.key (both.trans inside.symm))
    rw [is, entriesSize_append, entriesSize_cons] at fits
    rw [is] at inside
    rcases List.mem_append.mp inside with before | behind
    · have le := part front before
      omega
    · rcases List.mem_cons.mp behind with same | after
      · exact absurd (congrArg KVEntry.key same).symm different
      · have le := part back after
        omega

/-- Two keys whose hashes have the first two digits in common, and one that shares only the first of them. -/
def leftKey : List UInt8 := [98, 103, 49]

def rightKey : List UInt8 := [102, 107, 97]

def sideKey : List UInt8 := [100, 48]

def threeEntries : List KVEntry := [⟨sideKey, [7]⟩, ⟨rightKey, largeValue⟩, ⟨leftKey, largeValue⟩]

theorem writeThree_wellFormed : (writeAll threeEntries { mem := fun _ => 0 }).Ends fun _ t => ∃ tree lists, WellFormed tree lists t ∧
    tree.entries = (threeEntries : Multiset KVEntry) := by
  refine (writeAll_wellFormed threeEntries (by decide +kernel) (by decide +kernel) (by decide +kernel)).mono ?_
  rintro _ t ⟨tree, lists, wf, entries, _⟩
  exact ⟨tree, lists, wf, entries⟩

/-- The free lists have a page for each order. -/
theorem Space.card_held {held : Multiset Nat} (space : Space lists held t) : maxOrder + 3 + held.card ≤ MetaPage.nextFreePage t.mem := by
  have owned := congrArg Multiset.card space.owned
  have low := space.fpl_bounds (Nat.zero_le _) (space.base 0 (Nat.zero_le _))
  rw [Multiset.card_add, Multiset.card_add, fplPages, Multiset.card_sum] at owned
  have each : ∑ _order ∈ Finset.range (maxOrder + 1), 1 ≤ ∑ order ∈ Finset.range (maxOrder + 1), ((lists order).pages : Multiset Nat).card :=
    Finset.sum_le_sum fun order within => Multiset.card_pos_iff_exists_mem.mpr
      ⟨order + 2, Multiset.mem_coe.mpr (space.base order (Nat.lt_succ_iff.mp (Finset.mem_range.mp within)))⟩
  rw [← Finset.card_eq_sum_ones, Finset.card_range] at each
  have interval : (Multiset.Ico 2 (MetaPage.nextFreePage t.mem)).card = MetaPage.nextFreePage t.mem - 2 := by
    change (Finset.Ico 2 (MetaPage.nextFreePage t.mem)).card = _
    exact Nat.card_Ico _ _
  omega

/-- What `remove` does to the two keys when it removes the third one. -/
theorem remove_loses : ∃ t tree lists, writeAll threeEntries { mem := fun _ => 0 } = .done () t ∧ WellFormed tree lists t ∧
    ¬ (remove (fun _ => 0) sideKey t).Ends (Removes (fun _ => 0) tree t sideKey) := by
  obtain ⟨_, t, run, tree, lists, wf, entries⟩ := writeThree_wellFormed
  have stored : ∀ e ∈ threeEntries, tree.lookup e.key 0 = some e.value :=
    fun e member => (lookup_iff wf.rep wf.placed).mpr (entries ▸ Multiset.mem_coe.mpr member)
  have side := stored _ (List.mem_cons_self)
  have right := stored _ (List.mem_cons_of_mem _ List.mem_cons_self)
  have left := stored _ (List.mem_cons_of_mem _ (List.mem_cons_of_mem _ List.mem_cons_self))
  obtain ⟨b, rest, page, front, back, regions, s⟩ := wf.storedIn side
  have place : ((do
      writeAll threeEntries
      let found ← findParent sideKey
      let leaf ← getPage fun m => InternalNodePage.entries m found.1 found.2.1
      let entryCount ← getPage fun m => LeafNodeStartPage.entryCount m leaf
      let next ← getPage MetaPage.nextFreePage
      return (found.2.2, entryCount, next) : TxProgram (Nat × Nat × Nat)) { mem := fun _ => 0 }).Ends fun r _ => r = (1, 1, maxOrder + 3 + 5) :=
    .of_result id (by decide +kernel)
  rw [Program.done_bind run, Program.done_bind s.found] at place
  simp only at place
  rw [getPage_bind, s.entry, getPage_bind, s.leaf.entryCount, getPage_bind] at place
  obtain ⟨_, _, ended, is⟩ := place
  obtain ⟨rfl, rfl⟩ := Outcome.done.inj ended
  obtain ⟨deep, single, next⟩ : rest.length = 1 ∧ (front ++ ⟨sideKey, [7]⟩ :: back).length = 1 ∧ MetaPage.nextFreePage t.mem = maxOrder + 3 + 5 := by
    simpa only [Prod.mk.injEq] using is
  obtain ⟨c, rfl⟩ := List.length_eq_one_iff.mp deep
  obtain ⟨rfl, rfl⟩ : front = [] ∧ back = [] := by
    rw [List.length_append, List.length_cons] at single
    exact ⟨List.length_eq_zero_iff.mp (by omega), List.length_eq_zero_iff.mp (by omega)⟩
  obtain rfl : tree = plug [b, c] (leaf page [⟨sideKey, [7]⟩] regions) := s.tree
  have follows := s.follows
  have turn : digit sideKey 1 = b.index := follows.1
  have top : digit sideKey 0 = c.index := follows.2.1
  obtain ⟨i, here⟩ : ∃ i, digit leftKey 1 = i := ⟨_, rfl⟩
  have here' : digit rightKey 1 = i := by
    rw [← here]
    decide +kernel
  have other : i ≠ b.index := by
    rw [← here, ← turn]
    decide +kernel
  have below : ∀ key v, digit key 0 = digit sideKey 0 → digit key 1 = i →
      (plug [b, c] (leaf page [⟨sideKey, [7]⟩] regions)).lookup key 0 = some v → (b.children i).lookup key 2 = some v := by
    intro key v first second found
    rw [plug, lookup_plug (show Follows key [c] from ⟨first.trans top, trivial⟩)] at found
    change (Function.update b.children b.index _ (digit key 1)).lookup key 2 = some v at found
    rwa [second, Function.update_of_ne other] at found
  have left' := below _ _ (by decide +kernel) here left
  have right' := below _ _ (by decide +kernel) here' right
  obtain ⟨path, _⟩ := rep_plug.mp wf.rep
  have rep := (path.2.2.1 i other).2
  have placed := ((placed_plug.mp wf.placed).1.1 i other).1
  obtain ⟨page', children, node_⟩ := node_of_large rep left' right' (by decide) (by
    rw [size_largeValue, size_largeValue]
    decide)
  rw [node_] at left' right' rep placed
  have many : 3 ≤ (b.children i).pages.card := by
    rw [node_]
    exact three_pages (show digit leftKey 2 ≠ digit rightKey 2 by decide +kernel) (card_pages_pos left') (card_pages_pos right')
  have total := wf.space.card_held
  rw [wf.rooted.erase_pages, Multiset.card_add, Multiset.card_erase_of_mem wf.rooted.root_mem, next] at total
  have leaf_ : 1 ≤ (leaf page [⟨sideKey, [7]⟩] regions).pages.card :=
    Multiset.card_pos_iff_exists_mem.mpr ⟨page, start_mem page regions⟩
  have parts : (pathPages [b, c]).card =
      1 + (∑ j ∈ Finset.univ.erase b.index, (b.children j).pages).card + (1 + (∑ j ∈ Finset.univ.erase c.index, (c.children j).pages).card + 0) := by
    change ({b.page} + ∑ j ∈ Finset.univ.erase b.index, (b.children j).pages +
      ({c.page} + ∑ j ∈ Finset.univ.erase c.index, (c.children j).pages + 0)).card = _
    simp only [Multiset.card_add, Multiset.card_singleton, Multiset.card_zero]
  rw [parts, Nat.pred_eq_sub_one] at total
  have only : b.OnlyChild (b.children i) := .of_card other (by omega) (by omega)
  refine ⟨t, _, lists, run, wf, fun ends => ?_⟩
  have raises : Raises (plug [b, c] (leaf page [⟨sideKey, [7]⟩] regions)) sideKey (b.children i) 1 :=
    ⟨b, c, [], page, ⟨sideKey, [7]⟩, regions, rfl, rfl, follows, only, rfl⟩
  have member := mem_of_lookup left'
  rw [← node_] at member
  have found := wf.remove_raised (by rw [next]; decide) ends raises member
  rw [node_] at found
  have again : digit leftKey 2 = digit leftKey 1 := (placed (digit leftKey 1)).2 _ (mem_of_lookup found)
  exact absurd again (by decide +kernel)

end Lost

end DiskMap
