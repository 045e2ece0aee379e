import DiskMap.Map.RemoveKey
import DiskMap.Map.ReplacedLeaf
import DiskMap.Map.UpdateEntry

namespace DiskMap
open ByteMemory LeafNodeStartPage DiskMap.Tree

variable {t t' t₁ : Tx} {lists : Nat → FreeList} {tree tree' sub : Tree} {b : Branch} {rest : List Branch} {page : Nat}
  {front back entries : List KVEntry} {regions : List Nat} {key v new : List UInt8} {e : KVEntry}

/-- The entries of all other keys. -/
def Tree.others (tree : Tree) (key : List UInt8) : Multiset KVEntry := tree.entries.filter fun e => e.key ≠ key

/-- The map in which the key has the value, and every other key what it had. -/
def SetsValue (tree : Tree) (t : Tx) (key v : List UInt8) (t' : Tx) : Prop :=
  ∃ tree' lists', WellFormed tree' lists' t' ∧ tree'.entries = ⟨key, v⟩ ::ₘ tree.others key ∧ t'.strayWrites = t.strayWrites

/-- The same, where the tree has changed in one place below its nodes, and is sorted there. -/
def Resorts (tree : Tree) (t : Tx) (key v : List UInt8) (t' : Tx) : Prop :=
  ∃ b rest sub sub' lists', tree = plug (b :: rest) sub ∧ Follows key (b :: rest) ∧ sub.isNode = false ∧
    WellFormed (plug (b :: rest) sub') lists' t' ∧ sub'.Sorts (rest.length + 1) (⟨key, v⟩ ::ₘ sub.others key) ∧ t'.strayWrites = t.strayWrites

/-- What `write` needs to replace a value: one with continuation regions is replaced by one that has some too while no free
list needs another page, and in a leaf of one page nothing but zeros is left behind. -/
def Replaceable (tree : Tree) (t : Tx) (key old new : List UInt8) : Prop :=
  if capacity < KVEntry.size ⟨key, old⟩ then
    capacity < KVEntry.size ⟨key, new⟩ ∧ ∀ order, order ≤ (tree.regionsOf key 0).length → ¬ ListFull t.mem order
  else LeavesZeros (tree.leafOf key 0) (setValue key new (tree.leafOf key 0))

theorem lookup_key {m : Mem} (rep : tree.Rep m) (placed : tree.Placed 0) (member : e ∈ tree.entries) : tree.lookup e.key 0 = some e.value :=
  (lookup_iff rep placed).mpr member

theorem others_absent {m : Mem} (rep : tree.Rep m) (placed : tree.Placed 0) (absent : tree.lookup key 0 = none) : tree.others key = tree.entries := by
  refine Multiset.filter_eq_self.mpr fun e member same => ?_
  have found := lookup_key rep placed member
  rw [same, absent] at found
  cases found

theorem others_stored {m : Mem} {more : Multiset KVEntry} (rep : tree.Rep m) (placed : tree.Placed 0) (is : tree.entries = ⟨key, v⟩ ::ₘ more) :
    tree.others key = more := by
  have nodup := entries_keys_nodup rep placed
  rw [is, Multiset.map_cons, Multiset.nodup_cons] at nodup
  rw [Tree.others, is, Multiset.filter_cons_of_neg (p := fun e : KVEntry => e.key ≠ key) _ fun other => other rfl]
  exact Multiset.filter_eq_self.mpr fun e member same => nodup.1 (Multiset.mem_map.mpr ⟨e, member, same⟩)

/-- Only in the place of a key its entry is not one of the others. -/
theorem others_plug {path : List Branch} (placed : PathPlaced path) (follows : Follows key path) :
    (plug path sub).others key = pathEntries path + sub.others key := by
  have all : (pathEntries path).filter (fun e => e.key ≠ key) = pathEntries path :=
    Multiset.filter_eq_self.mpr fun e member same => pathEntries_elsewhere placed member (same ▸ follows)
  rw [Tree.others, entries_plug, Multiset.filter_add, all]
  rfl

theorem others_leaf (keys : WellKeyed (front ++ ⟨key, v⟩ :: back)) :
    (leaf page (front ++ ⟨key, v⟩ :: back) regions).others key = ((front ++ back : List KVEntry) : Multiset KVEntry) := by
  have nodup := keys.nodup
  rw [List.map_append, List.map_cons, List.nodup_middle, List.nodup_cons, ← List.map_append] at nodup
  have here : (leaf page (front ++ ⟨key, v⟩ :: back) regions).entries = ⟨key, v⟩ ::ₘ ((front ++ back : List KVEntry) : Multiset KVEntry) := by
    rw [Multiset.cons_coe]
    exact Multiset.coe_eq_coe.mpr List.perm_middle
  rw [Tree.others, here, Multiset.filter_cons_of_neg (p := fun e : KVEntry => e.key ≠ key) _ fun other => other rfl]
  exact Multiset.filter_eq_self.mpr fun e member same => nodup.1 (List.mem_map.mpr ⟨e, Multiset.mem_coe.mp member, same⟩)

theorem Resorts.sets (resorts : Resorts tree t key v t') (wf : WellFormed tree lists t) : SetsValue tree t key v t' := by
  obtain ⟨b, rest, sub, sub', lists', rfl, follows, _, wf', sorts, stray⟩ := resorts
  refine ⟨_, lists', wf', ?_, stray⟩
  rw [others_plug (placed_plug.mp wf.placed).1 follows, entries_plug, sorts.entries, Multiset.add_cons]

/-- What is found after the value of a key has been set. -/
theorem lookup_set {m m' : Mem} (rep : tree.Rep m) (placed : tree.Placed 0) (rep' : tree'.Rep m') (placed' : tree'.Placed 0)
    (entries : tree'.entries = ⟨key, v⟩ ::ₘ tree.others key) (key' : List UInt8) :
    tree'.lookup key' 0 = if key' = key then some v else tree.lookup key' 0 := by
  refine Option.ext fun w => ?_
  rw [lookup_iff rep' placed', entries, Multiset.mem_cons, Tree.others, Multiset.mem_filter]
  by_cases same : key' = key
  · rw [if_pos same, or_iff_left fun member => member.2 same, KVEntry.mk.injEq, Option.some.injEq]
    exact ⟨fun is => is.2.symm, fun is => ⟨same, is.symm⟩⟩
  · have different : (⟨key', w⟩ : KVEntry) ≠ ⟨key, v⟩ := fun is => same (congrArg KVEntry.key is)
    rw [if_neg same, or_iff_right different, lookup_iff rep placed]
    exact and_iff_left same

theorem Splits.perm {entries' : List KVEntry} (splits : Splits entries) (perm : entries.Perm entries') : Splits entries' := by
  intro hash
  have part := perm.filter fun e => decide (fnvHash e.key = hash)
  have size : entriesSize (entries.filter fun e => decide (fnvHash e.key = hash)) = entriesSize (entries'.filter fun e => decide (fnvHash e.key = hash)) :=
    (part.map KVEntry.size).sum_eq
  rw [← part.length_eq, ← size]
  exact splits hash

namespace StoredIn

theorem leafOf (s : StoredIn tree t key v b rest page front back regions) : tree.leafOf key 0 = front ++ ⟨key, v⟩ :: back := by
  rw [s.tree, leafOf_plug s.follows]
  rfl

/-- All entries of the tree but that of the key. -/
theorem others (s : StoredIn tree t key v b rest page front back regions) (wf : WellFormed tree lists t) :
    tree.others key = pathEntries (b :: rest) + ((front ++ back : List KVEntry) : Multiset KVEntry) := by
  have placed := wf.placed
  rw [s.tree] at placed
  rw [s.tree, others_plug (placed_plug.mp placed).1 s.follows, others_leaf s.leaf.keys]

/-- The entries of the leaf with the new value. -/
theorem storable (s : StoredIn tree t key v b rest page front back regions) (size : KVEntry.size ⟨key, new⟩ ≤ chainCapacity 30) :
    Storable (front ++ ⟨key, new⟩ :: back) := by
  have each : ∀ e ∈ front ++ ⟨key, new⟩ :: back, e = ⟨key, new⟩ ∨ e ∈ front ++ ⟨key, v⟩ :: back := fun e member => by
    rcases List.mem_append.mp member with before | later
    · exact Or.inr (List.mem_append_left _ before)
    · exact (List.mem_cons.mp later).imp_right fun behind => List.mem_append_right _ (List.mem_cons_of_mem _ behind)
  refine ⟨s.leaf.keys.setValue new, fun e member => ?_, fun e member => ?_⟩
  · rcases each e member with rfl | old
    · exact s.short
    · exact s.leaf.short e old
  · rcases each e member with rfl | old
    · exact size
    · have le : e.size ≤ entriesSize (front ++ ⟨key, v⟩ :: back) := List.single_le_sum (fun _ _ => Nat.zero_le _) _ (List.mem_map_of_mem old)
      exact le.trans (s.leaf.fits.trans (chainCapacity_mono s.leaf.few))

/-- The way to the leaf is the way of all its keys. -/
theorem follow (s : StoredIn tree t key v b rest page front back regions) (wf : WellFormed tree lists t) (new : List UInt8) :
    ∀ e ∈ front ++ ⟨key, new⟩ :: back, Follows e.key (b :: rest) := by
  have placed := wf.placed
  rw [s.tree] at placed
  have old : ∀ e ∈ front ++ ⟨key, v⟩ :: back, Follows e.key (b :: rest) := fun e member => (placed_plug.mp placed).2.2 e member
  intro e member
  rcases List.mem_append.mp member with before | later
  · exact old e (List.mem_append_left _ before)
  · rcases List.mem_cons.mp later with rfl | behind
    · exact s.follows
    · exact old e (List.mem_append_right _ (List.mem_cons_of_mem _ behind))

/-- The leaf is replaced by a tree with the new value. -/
theorem resorts (s : StoredIn tree t key v b rest page front back regions) (wf : WellFormed tree lists t)
    (regrown : Regrown ((pathPages (b :: rest)).erase rootPage) b.page b.index sub (MetaPage.kvEntryCount t.mem) t t')
    (sorts : sub.Sorts (rest.length + 1) (front ++ ⟨key, new⟩ :: back : List KVEntry)) :
    Resorts tree t key new t' := by
  have keys := s.leaf.keys
  have follow := s.follow wf new
  have follows := s.follows
  obtain rfl := s.tree
  have count : MetaPage.kvEntryCount t.mem = (plug (b :: rest) sub).entries.card := by
    have before : (Tree.leaf page (front ++ ⟨key, v⟩ :: back) regions).entries.card = sub.entries.card := by
      rw [sorts.entries]
      change (front ++ ⟨key, v⟩ :: back).length = (front ++ ⟨key, new⟩ :: back).length
      rw [List.length_append, List.length_append, List.length_cons, List.length_cons]
    rw [wf.kvEntryCount, entries_plug, entries_plug, Multiset.card_add, Multiset.card_add, before]
  obtain ⟨lists', wf'⟩ := wf.regrow regrown sorts.placed (fun e member => follow e (by rw [sorts.entries] at member; exact member)) count
  refine ⟨b, rest, _, sub, lists', rfl, follows, rfl, wf', ?_, regrown.strayWrites⟩
  have order : (⟨key, new⟩ :: (front ++ back)).Perm (front ++ ⟨key, new⟩ :: back) := List.perm_middle.symm
  rw [others_leaf keys, Multiset.cons_coe, Multiset.coe_eq_coe.mpr order]
  exact sorts

/-- The new value is told apart from the other entries when the leaf with it is. -/
theorem separable_iff (s : StoredIn tree t key v b rest page front back []) (wf : WellFormed tree lists t) :
    Separable ⟨key, new⟩ (tree.others key) ↔ Splits (front ++ ⟨key, new⟩ :: back) := by
  have placed := wf.placed
  rw [s.tree] at placed
  have fit : entriesSize (front ++ back) ≤ capacity :=
    (entriesSize_sublist (List.Sublist.append_left (List.sublist_cons_self _ _) front)).trans s.leaf.fits
  have front_ : (⟨key, new⟩ :: (front ++ back)).Perm (front ++ ⟨key, new⟩ :: back) := List.perm_middle.symm
  have moved : ((front ++ back) ++ [(⟨key, new⟩ : KVEntry)]).Perm (front ++ ⟨key, new⟩ :: back) := List.perm_append_comm.trans front_
  have hashes : (tree.others key).filter (fun e => fnvHash e.key = fnvHash key) =
      ((front ++ back : List KVEntry) : Multiset KVEntry).filter fun e => fnvHash e.key = fnvHash key := by
    rw [s.others wf, Multiset.filter_add, Multiset.filter_eq_nil.mpr fun e member =>
      pathEntries_hash (placed_plug.mp placed).1 s.follows member, zero_add]
  have added : Separable ⟨key, new⟩ (tree.others key) ↔ Splits ((front ++ back) ++ [⟨key, new⟩]) := splits_snoc_iff (Or.inr fit) hashes
  rw [added]
  exact ⟨fun splits => splits.perm moved, fun splits => splits.perm moved.symm⟩

/-- `write_at_node` of a stored key ends only when the leaf with the new value is split or needs not be. -/
theorem writeAtNode_splits {post : Unit → Tx → Prop} (s : StoredIn tree t key v b rest page front back []) (wf : WellFormed tree lists t)
    (size : KVEntry.size ⟨key, new⟩ ≤ chainCapacity 30) (beyond : Mem)
    (ends : (writeAtNode beyond b.page b.index rest.length key (some new) t).Ends post) : Separable ⟨key, new⟩ (tree.others key) := by
  rw [s.writeAtNode_run beyond, updateEntry_run s.leaf size] at ends
  rw [s.separable_iff wf]
  by_cases large : capacity < entriesSize (front ++ ⟨key, new⟩ :: back)
  · rw [if_pos large] at ends
    exact createSubtreeFrom_splits ends
  · exact fun hash => Or.inr ((entriesSize_sublist List.filter_sublist).trans (Nat.not_lt.mp large))

/-- `write_at_node` of a stored key. -/
theorem writeAtNode_fits (s : StoredIn tree t key v b rest page front back regions) (wf : WellFormed tree lists t)
    (size : KVEntry.size ⟨key, new⟩ ≤ chainCapacity 30)
    (separable : KVEntry.size ⟨key, v⟩ ≤ capacity → Separable ⟨key, new⟩ (tree.others key))
    (replaceable : Replaceable tree t key v new) (beyond : Mem) :
    Fits (MetaPage.nextFreePage t.mem + writeCost (KVEntry.size ⟨key, new⟩))
      (writeAtNode beyond b.page b.index rest.length key (some new) t) fun _ t' => Resorts tree t key new t' := by
  have storable := s.storable size
  have agree := follows_agree (s.follow wf new)
  have hole := wf
  rw [s.tree] at hole
  replace hole := hole.hole (rfl : (Tree.leaf page (front ++ ⟨key, v⟩ :: back) regions).isNode = false)
  rw [List.length_cons] at agree
  by_cases chained : regions = []
  · subst chained
    rw [s.writeAtNode_run beyond]
    have small : ¬ capacity < KVEntry.size ⟨key, v⟩ := fun large => s.chained_iff.mpr large rfl
    have splits := (s.separable_iff wf).mp (separable (Nat.not_lt.mp small))
    rw [Replaceable, if_neg small, s.tree, leafOf_plug s.follows] at replaceable
    change LeavesZeros (front ++ ⟨key, v⟩ :: back) (setValue key new (front ++ ⟨key, v⟩ :: back)) at replaceable
    rw [setValue_eq s.leaf.keys] at replaceable
    refine (updateEntry_fits hole storable splits agree replaceable beyond).mono le_rfl ?_
    rintro _ t' ⟨sub, sorts, regrown⟩
    exact s.resorts wf regrown sorts
  · obtain ⟨rfl, rfl, large⟩ := s.alone chained
    rw [Replaceable, if_pos (show capacity < KVEntry.size ⟨key, v⟩ from large), s.tree, regionsOf_plug s.follows] at replaceable
    refine (s.writeAtNode_large wf chained size replaceable.1 replaceable.2 beyond).mono le_rfl ?_
    rintro _ t' ⟨sub, sorts, regrown⟩
    exact s.resorts wf regrown sorts

end StoredIn

/-- A key that is not stored has no value to replace. -/
theorem replaceable_absent (absent : tree.lookup key 0 = none) (w : List UInt8) (stored : tree.lookup key 0 = some w) :
    Replaceable tree t key w new := by
  rw [absent] at stored
  cases stored

namespace WellFormed

/-- `write_at_node` of a key that is not stored. -/
theorem writeAtNode_absent (wf : WellFormed (plug (b :: rest) sub) lists t) (follows : Follows key (b :: rest)) (last : sub.isNode = false)
    (found : findParent key t = .done (b.page, b.index.val, rest.length) t) (absent : (plug (b :: rest) sub).lookup key 0 = none)
    (noNul : NulFree key) (short : key.length ≤ maxKeyLength) (size : KVEntry.size ⟨key, new⟩ ≤ chainCapacity 30)
    (separable : Separable ⟨key, new⟩ ((plug (b :: rest) sub).others key)) (beyond : Mem) :
    Fits (MetaPage.nextFreePage t.mem + writeCost (KVEntry.size ⟨key, new⟩))
      (writeAtNode beyond b.page b.index rest.length key (some new) t) fun _ t' => Resorts (plug (b :: rest) sub) t key new t' := by
  have absent' := absent_leaf follows last absent
  rw [others_absent wf.rep wf.placed absent, separable_iff (wf.hole last).rep last (placed_plug.mp wf.placed).1 follows] at separable
  have others : sub.others key = sub.entries := by
    refine Multiset.filter_eq_self.mpr fun e member same => ?_
    rw [entries_leafEntries last] at member
    exact absent' (List.mem_map.mpr ⟨e, Multiset.mem_coe.mp member, same⟩)
  have fits := wf.write_sorts follows last found absent noNul short size separable beyond
  rw [write, Program.done_bind found] at fits
  refine fits.mono le_rfl ?_
  rintro _ t' ⟨sub', lists', wf', sorts, stray⟩
  refine ⟨b, rest, sub, sub', lists', rfl, follows, last, wf', ?_, stray⟩
  have order : (⟨key, new⟩ : KVEntry) ::ₘ sub.entries = sub.entries + {⟨key, new⟩} := by rw [← Multiset.singleton_add, add_comm]
  rw [others, order]
  exact sorts

/-- `write` sets the value of a key, whether it is stored or not. An entry that replaces one with continuation regions has its own leaf. -/
theorem write_fits (wf : WellFormed tree lists t) (noNul : NulFree key) (short : key.length ≤ maxKeyLength)
    (size : KVEntry.size ⟨key, new⟩ ≤ chainCapacity 30)
    (separable : (∀ v, tree.lookup key 0 = some v → KVEntry.size ⟨key, v⟩ ≤ capacity) → Separable ⟨key, new⟩ (tree.others key))
    (replaceable : ∀ v, tree.lookup key 0 = some v → Replaceable tree t key v new) (beyond : Mem) :
    Fits (MetaPage.nextFreePage t.mem + writeCost (KVEntry.size ⟨key, new⟩)) (write beyond key (some new) t)
      fun _ t' => Resorts tree t key new t' := by
  cases stored : tree.lookup key 0 with
  | some v =>
    obtain ⟨b, rest, page, front, back, regions, s⟩ := wf.storedIn stored
    rw [write, Program.done_bind s.found]
    exact s.writeAtNode_fits wf size (fun small => separable fun w is => Option.some.inj (stored.symm.trans is) ▸ small) (replaceable v stored) beyond
  | none =>
    obtain ⟨b, rest, sub, rfl, follows, last, found⟩ := wf.rooted.findParent_run key
    rw [write, Program.done_bind found]
    refine wf.writeAtNode_absent follows last found stored noNul short size (separable fun w is => ?_) beyond
    rw [stored] at is
    cases is

end WellFormed

end DiskMap
