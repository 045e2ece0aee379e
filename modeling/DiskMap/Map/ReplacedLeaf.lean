import DiskMap.Map.Lookups

namespace DiskMap
open ByteMemory MachineInts LeafNodeStartPage DiskMap.Tree

/-- The continuation regions of the leaf of a key. -/
def Tree.regionsOf (key : List UInt8) : Nat → Tree → List Nat
  | depth, .node _ children => (children (digit key depth)).regionsOf key (depth + 1)
  | _, .leaf _ _ regions => regions
  | _, .empty => []

variable {t t' t₁ : Tx} {held : Multiset Nat} {lists : Nat → FreeList} {page parent index kv kv' depth : Nat} {entries : List KVEntry}
  {regions : List Nat} {tree old sub : Tree} {path rest : List Branch} {b : Branch} {key v v' : List UInt8} {beyond : Mem}

theorem regionsOf_plug (follows : Follows key path) : (plug path sub).regionsOf key 0 = sub.regionsOf key path.length := by
  induction path generalizing sub with
  | nil => rfl
  | cons b rest ih =>
    rw [plug, ih follows.2, Tree.regionsOf, follows.1, Function.update_self]
    rfl

theorem data_congr {m m' : Mem} (same : SamePage m m' page) (beyond : Mem) : data m' page beyond = data m page beyond := by
  funext i
  unfold data
  split
  · rename_i inside
    rw [Nat.add_assoc]
    exact same _ (by unfold capacity at inside; omega)
  · rfl

theorem Regrown.trans (first : Regrown held parent index old kv t t₁) (second : Regrown held parent index sub kv' t₁ t') :
    Regrown held parent index sub kv' t t' where
  space := second.space
  rep := second.rep
  entry := second.entry
  siblings i bound other := (second.siblings i bound other).trans (first.siblings i bound other)
  frame p theirs other := (first.frame p theirs other).trans (second.frame p theirs other)
  kvEntryCount := second.kvEntryCount
  strayWrites := second.strayWrites.trans first.strayWrites

/-- A leaf with continuation regions is freed and unlinked. What it has held is still in its start page. -/
theorem Hole.unlinked (hole : Hole lists held parent index (Tree.leaf page entries regions) t)
    (open_ : ∀ order, order ≤ regions.length → ¬ ListFull t.mem order) :
    ∃ t₁ t', freeLeaf page t = .done () t₁ ∧ writeInt 8 parent (InternalNodePage.entriesOffset index) 0 t₁ = .done () t' ∧
      (∃ lists', Hole lists' held parent index empty t') ∧ Regrown held parent index empty (MetaPage.kvEntryCount t.mem) t t' ∧
        SamePage t.mem t'.mem page ∧ MetaPage.nextFreePage t'.mem = MetaPage.nextFreePage t.mem := by
  obtain ⟨nonzero, low, at_⟩ := hole.rep
  obtain ⟨_, t₁, freed, ⟨lists₁, space₁⟩, frame, same, next⟩ := freeLeaf_open hole.space at_.links (at_.few.trans (by decide)) open_
  have nothing : held + empty.pages = held := add_zero held
  rw [← nothing] at space₁ frame
  have rep : empty.Rep t₁.mem := trivial
  obtain ⟨regrown, next'⟩ := setEntry_regrown space₁ frame hole.owns hole.inside rep
  have other : page ≠ parent := by
    have mine : page ∈ (Tree.leaf page entries regions).pages := start_mem page regions
    rintro rfl
    rcases hole.owns with root | theirs
    · have bounds := hole.space.held_bounds (Multiset.mem_add.mpr (Or.inr mine))
      omega
    · exact hole.space.held_ne theirs mine rfl
  refine ⟨t₁, _, freed, rfl, ?_, regrown, same.trans ?_, next'.trans next⟩
  · obtain ⟨lists', space'⟩ := regrown.space
    exact ⟨lists', ⟨space', rfl, trivial, hole.owns, hole.inside, regrown.entry⟩⟩
  · exact SamePage.overwrite other (InternalNodePage.entriesOffset_inside hole.inside)

theorem getEntriesInLeaf_single {m : Mem} {e : KVEntry} (leaf : LeafAt m page [e] regions) (chained : regions ≠ []) (beyond : Mem) :
    ∃ value, getEntriesInLeaf (data m page beyond) = [⟨e.key, value⟩] := by
  obtain ⟨n, is⟩ : ∃ n, capacity = n + 1 := ⟨capacity - 1, by decide⟩
  have holds := leaf.data_holds beyond
  rw [← Nat.sub_zero capacity] at holds
  have copied := getEntriesFrom_cons holds leaf.headersInside (leaf.keys.nulFree e List.mem_cons_self) n
  have large := (leaf.single chained).2
  rw [entriesSize_cons] at large
  have behind : capacity ≤ 0 + e.size := by
    have nothing : entriesSize [] = 0 := rfl
    omega
  have none_ : getEntriesFrom (data m page beyond) n (0 + e.size) = [] := by
    cases n with
    | zero => rfl
    | succ n => rw [getEntriesFrom, if_pos behind]
  rw [none_, ← is] at copied
  exact ⟨_, copied⟩

/-- Writing a key whose value has continuation regions: whatever is copied from the freed leaf gets the new value. -/
theorem updateEntry_large (hole : Hole lists held parent index (Tree.leaf page [⟨key, v⟩] regions) t) (chained : regions ≠ [])
    (open_ : ∀ order, order ≤ regions.length → ¬ ListFull t.mem order) (size : KVEntry.size ⟨key, v'⟩ < 2 ^ 64) (depth : Nat) (beyond : Mem) :
    ∃ t', (∃ lists', Hole lists' held parent index empty t') ∧ Regrown held parent index empty (MetaPage.kvEntryCount t.mem) t t' ∧
      MetaPage.nextFreePage t'.mem = MetaPage.nextFreePage t.mem ∧
        updateEntry beyond parent index depth page 0 key v' t =
          (if capacity < KVEntry.size ⟨key, v'⟩ then createSubtree parent index depth [⟨key, v'⟩] else updateValueTrivially page 0 key v') t' := by
  obtain ⟨nonzero, low, at_⟩ := hole.rep
  obtain ⟨t₁, t', freed, wrote, hole', regrown, same, nextFree⟩ := hole.unlinked open_
  refine ⟨t', hole', regrown, nextFree, ?_⟩
  obtain ⟨q, more, rfl⟩ := List.exists_cons_of_ne_nil chained
  have next : LeafNodeStartPage.next t.mem page = q := at_.links 0 page rfl
  have linked : q ≠ 0 := by
    have member : q ∈ (Tree.leaf page [⟨key, v⟩] (q :: more)).pages := regionPage_mem (k := 0) (i := 1) rfl (Nat.two_pow_pos 1)
    have bounds := hole.space.held_bounds (Multiset.mem_add.mpr (Or.inr member))
    omega
  have usage : LeafNodeStartPage.usage t'.mem page = KVEntry.size ⟨key, v⟩ + 0 := (same.leAt_eq (by decide)).trans at_.usage
  have holds : Holds (data t.mem page beyond) 0 (capacity - 0) (encodeEntries [⟨key, v⟩]) := at_.data_holds beyond
  have stored := entry_stored holds at_.headersInside
  have current : leAt (data t'.mem page beyond) (0 + key.length + 1) 8 = v.length := by
    rw [data_congr same]
    exact stored.2.1
  obtain ⟨value, copied⟩ := getEntriesInLeaf_single at_ chained beyond
  rw [← data_congr same] at copied
  have fits := at_.fits
  have old : entriesSize [⟨key, v⟩] = key.length + 9 + v.length + 0 := rfl
  have reach := (chainCapacity_mono at_.few).trans (by decide : chainCapacity 30 ≤ 2 ^ 63)
  have total : sub64 (KVEntry.size ⟨key, v⟩ + 0 + v'.length) v.length = KVEntry.size ⟨key, v'⟩ := by
    unfold KVEntry.size at size ⊢
    unfold sub64
    dsimp only at size ⊢
    omega
  rw [updateEntry, getPage_bind, next, if_pos linked, Program.done_bind freed, Program.done_bind wrote]
  beta_reduce
  rw [getPage_bind, current, getPage_bind, usage, total]
  by_cases large : capacity < KVEntry.size ⟨key, v'⟩
  · rw [if_pos large, if_pos large, getPage_bind, copied, replaceValue, if_pos rfl]
  · rw [if_neg large, if_neg large]

namespace StoredIn

/-- In the entries of its leaf the key has its offset, and its length is allowed. -/
theorem writeAtNode_run {front back : List KVEntry} (s : StoredIn tree t key v b rest page front back regions) (beyond : Mem) :
    writeAtNode beyond b.page b.index rest.length key (some v') t =
      updateEntry beyond b.page b.index rest.length page (entriesSize front) key v' t := by
  have found : findEntryInLeaf (data t.mem page beyond) key = some (entriesSize front) :=
    (s.leaf.findEntryInLeaf_eq s.noNul.2 beyond).trans s.offset
  rw [writeAtNode, if_neg (s.noNul.valid s.short), getPage_bind, s.entry, if_neg s.nonzero, clearMsb_leaf s.low, getPage_bind, found]

/-- `write_at_node` of a value with continuation regions, by one that has some too. -/
theorem writeAtNode_large (s : StoredIn tree t key v b rest page [] [] regions) (wf : WellFormed tree lists t) (chained : regions ≠ [])
    (size : KVEntry.size ⟨key, v'⟩ ≤ chainCapacity 30) (large : capacity < KVEntry.size ⟨key, v'⟩)
    (open_ : ∀ order, order ≤ regions.length → ¬ ListFull t.mem order) (beyond : Mem) :
    Fits (MetaPage.nextFreePage t.mem + writeCost (KVEntry.size ⟨key, v'⟩))
      (writeAtNode beyond b.page b.index rest.length key (some v') t) fun _ t' => ∃ sub : Tree,
        sub.Sorts (rest.length + 1) ([⟨key, v'⟩] : List KVEntry) ∧
          Regrown ((pathPages (b :: rest)).erase rootPage) b.page b.index sub (MetaPage.kvEntryCount t.mem) t t' := by
  have noNul := s.noNul
  have short := s.short
  have run : writeAtNode beyond b.page b.index rest.length key (some v') t = _ := s.writeAtNode_run beyond
  obtain rfl := s.tree
  have hole := wf.hole (rfl : (Tree.leaf page ([] ++ [⟨key, v⟩]) regions).isNode = false)
  have wide : chainCapacity 30 < 2 ^ 64 := by decide
  obtain ⟨t₁, ⟨lists₁, hole₁⟩, regrown₁, next, updated⟩ := updateEntry_large hole chained open_ (size.trans_lt wide) rest.length beyond
  have storable : Storable [⟨key, v'⟩] := ⟨⟨by simpa using noNul, List.nodup_singleton _⟩, by simpa using short, by simpa using size⟩
  have cost := subtreeCost_singleton (rest.length + 1) ⟨key, v'⟩
  have digits : splitsPerHash = 8 := rfl
  have wider : 32 ≤ pageSize := by decide
  have none_ : empty.regionCount = 0 := rfl
  have start : entriesSize ([] : List KVEntry) = 0 := rfl
  rw [run, start, updated, if_pos large]
  refine (createSubtree_fits hole₁ storable (List.cons_ne_nil _ _) (splits_singleton _) (agree_singleton (rest.length + 1) _)).mono
    (by unfold writeCost; omega) ?_
  rintro _ t' ⟨sub, sorts, regrown⟩
  have whole := regrown₁.trans regrown
  rw [regrown₁.kvEntryCount] at whole
  exact ⟨sub, sorts, whole⟩

end StoredIn

/-- The map after a stored key has got another value. -/
structure MapsInstead (tree : Tree) (t : Tx) (key v : List UInt8) (tree' : Tree) (t' : Tx) : Prop where
  lookup : ∀ key', tree'.lookup key' 0 = if key' = key then some v else tree.lookup key' 0
  kvEntryCount : MetaPage.kvEntryCount t'.mem = MetaPage.kvEntryCount t.mem
  strayWrites : t'.strayWrites = t.strayWrites
  reads : ∀ beyond key' v', (if key' = key then some v else tree.lookup key' 0) = some v' →
    (read beyond key' t').Ends fun r t'' => t'' = t' ∧ r.found = true ∧ r.buffer = v'
  absent : ∀ beyond key', NulFree key' → key' ≠ key → tree.lookup key' 0 = none →
    findEntryInLeaf (data t'.mem 0 beyond) key' = none → ReportsAbsent beyond key' t'

theorem lookup_replace {m m' : Mem} (rep : (plug path (Tree.leaf page [⟨key, v⟩] regions)).Rep m)
    (placed : (plug path (Tree.leaf page [⟨key, v⟩] regions)).Placed 0) (rep' : (plug path sub).Rep m') (placed' : (plug path sub).Placed 0)
    (content : sub.entries = {⟨key, v'⟩}) (key' : List UInt8) :
    (plug path sub).lookup key' 0 = if key' = key then some v' else (plug path (Tree.leaf page [⟨key, v⟩] regions)).lookup key' 0 := by
  have before : (plug path (Tree.leaf page [⟨key, v⟩] regions)).entries = pathEntries path + {⟨key, v⟩} := entries_plug
  have after : (plug path sub).entries = pathEntries path + {⟨key, v'⟩} := by rw [entries_plug, content]
  by_cases same : key' = key
  · rw [if_pos same, lookup_iff rep' placed', after, same]
    exact Multiset.mem_add.mpr (Or.inr (Multiset.mem_singleton_self _))
  · rw [if_neg same]
    refine Option.ext fun w => ?_
    have other : ∀ x, (⟨key', w⟩ : KVEntry) ≠ ⟨key, x⟩ := fun x is => same (by injection is)
    rw [lookup_iff rep' placed', lookup_iff rep placed, after, before, Multiset.mem_add, Multiset.mem_add, Multiset.mem_singleton,
      Multiset.mem_singleton, or_iff_left (other v'), or_iff_left (other v)]

/-- A large value is replaced by another one that needs more than a page as long as no free list needs another page. -/
theorem write_replaces_large (wf : WellFormed tree lists t) (stored : tree.lookup key 0 = some v)
    (large : capacity < KVEntry.size ⟨key, v⟩) (size : KVEntry.size ⟨key, v'⟩ ≤ chainCapacity 30)
    (room : MetaPage.nextFreePage t.mem + writeCost (KVEntry.size ⟨key, v'⟩) ≤ maxPages) (beyond : Mem)
    (large' : capacity < KVEntry.size ⟨key, v'⟩) (open_ : ∀ order, order ≤ (tree.regionsOf key 0).length → ¬ ListFull t.mem order) :
    (write beyond key (some v') t).Ends fun _ t' => ∃ tree' lists', WellFormed tree' lists' t' ∧ MapsInstead tree t key v' tree' t' := by
  obtain ⟨b, rest, page, front, back, regions, s⟩ := wf.storedIn stored
  have chained := s.chained_iff.mpr large
  obtain ⟨rfl, rfl, _⟩ := s.alone chained
  have follows := s.follows
  rw [s.tree, regionsOf_plug follows] at open_
  rw [write, Program.done_bind s.found]
  dsimp only
  have fits := s.writeAtNode_large wf chained size large' open_ beyond
  obtain rfl := s.tree
  refine (fits.resolve_right fun stuck => Nat.not_lt.mpr room stuck.2).mono ?_
  rintro _ t' ⟨⟨sub, sorts, whole⟩, _⟩
  have content : sub.entries = {⟨key, v'⟩} := sorts.entries
  have count : MetaPage.kvEntryCount t.mem = (plug (b :: rest) sub).entries.card := by
    rw [wf.kvEntryCount, entries_plug, entries_plug, Multiset.card_add, Multiset.card_add, content]
    rfl
  have leads : ∀ e ∈ sub.entries, Follows e.key (b :: rest) := by
    intro e member
    rw [content, Multiset.mem_singleton] at member
    rw [member]
    exact follows
  obtain ⟨lists', wf'⟩ := wf.regrow whole sorts.placed leads count
  have lookup := lookup_replace wf.rep wf.placed wf'.rep wf'.placed content
  refine ⟨_, lists', wf', lookup, whole.kvEntryCount, whole.strayWrites, fun beyond' key' w is => ?_, fun beyond' key' noNul' other absent free => ?_⟩
  · exact wf'.read_stored ((lookup key').trans is) beyond'
  · refine wf'.rooted.reportsAbsent ?_
    by_cases empty : (plug (b :: rest) sub).bucketEntry key' 0 = 0
    · rwa [empty]
    · refine wf'.rooted.leaf_absent noNul' ?_ empty beyond'
      rw [lookup, if_neg other]
      exact absent

theorem regionsOf_few {m : Mem} (rep : tree.Rep m) : (tree.regionsOf key depth).length ≤ 30 := by
  induction tree generalizing depth with
  | empty => exact Nat.zero_le _
  | leaf page entries regions => exact rep.2.2.few
  | node page children ih => exact ih _ (rep.2 _).2

/-- A new map in which one value of 5000 bytes has been written. -/
def oneLarge : Tx :=
  match (construct >>= fun _ => write (fun _ => 0) [97] (some (List.replicate 5000 7))) { mem := fun _ => 0 } with
  | .done _ t => t
  | _ => { mem := fun _ => 0 }

theorem oneLarge_written : ∃ t tree lists, construct { mem := fun _ => 0 } = .done () t ∧ WellFormed (node rootPage noChildren) newLists t ∧
    write (fun _ => 0) [97] (some (List.replicate 5000 7)) t = .done () oneLarge ∧
      WellFormed tree lists oneLarge ∧ tree.lookup [97] 0 = some (List.replicate 5000 7) := by
  obtain ⟨_, t, constructed, wf, next⟩ := construct_wellFormed (m := fun _ => 0) fun _ _ _ _ => rfl
  have size : KVEntry.size ⟨[97], List.replicate 5000 7⟩ = 5010 := by rw [KVEntry.size, List.length_replicate]; rfl
  have distinct : DistinctHashes (⟨[97], List.replicate 5000 7⟩ ::ₘ (node rootPage noChildren).entries) := by
    rw [blank_entries]
    exact distinctHashes_single _
  obtain ⟨_, t', written, tree, lists, wf', also⟩ := write_inserts wf rfl (by decide) (by decide) (by rw [size]; decide) distinct
    (by rw [size, next]; decide) fun _ => 0
  have is : oneLarge = t' := by rw [oneLarge, Program.done_bind constructed, written]
  refine ⟨t, tree, lists, constructed, wf, is ▸ written, is ▸ wf', ?_⟩
  rw [also.lookup, if_pos rfl]

theorem oneLarge_wellFormed : ∃ tree lists, WellFormed tree lists oneLarge ∧ tree.lookup [97] 0 = some (List.replicate 5000 7) := by
  obtain ⟨_, tree, lists, _, _, _, wf, stored⟩ := oneLarge_written
  exact ⟨tree, lists, wf, stored⟩

theorem write_replaces_large_again : ∃ tree lists, WellFormed tree lists oneLarge ∧ tree.lookup [97] 0 = some (List.replicate 5000 7) ∧
    (write (fun _ => 0) [97] (some (List.replicate 4500 8)) oneLarge).Ends fun _ t' =>
      ∃ tree' lists', WellFormed tree' lists' t' ∧ MapsInstead tree oneLarge [97] (List.replicate 4500 8) tree' t' := by
  obtain ⟨tree, lists, wf, stored⟩ := oneLarge_wellFormed
  have size : KVEntry.size ⟨[97], List.replicate 5000 7⟩ = 5010 := by rw [KVEntry.size, List.length_replicate]; rfl
  have size' : KVEntry.size ⟨[97], List.replicate 4500 8⟩ = 4510 := by rw [KVEntry.size, List.length_replicate]; rfl
  have next : MetaPage.nextFreePage oneLarge.mem = 44 := by decide +kernel
  have noneFull : ∀ order, order ≤ 30 → ¬ ListFull oneLarge.mem order := by decide +kernel
  exact ⟨tree, lists, wf, stored, write_replaces_large wf stored (by rw [size]; decide) (by rw [size']; decide) (by rw [size', next]; decide)
    (fun _ => 0) (by rw [size']; decide) fun order few => noneFull order (few.trans (regionsOf_few wf.rep))⟩

/-- A value that fits into one page is lost. -/
theorem write_loses_small : ∃ tree lists, WellFormed tree lists oneLarge ∧ tree.lookup [97] 0 = some (List.replicate 5000 7) ∧
    ((write (fun _ => 0) [97] (some [1, 2, 3]) >>= fun _ => read (fun _ => 0) [97]) oneLarge).Ends fun r _ => r.found = false := by
  obtain ⟨tree, lists, wf, stored⟩ := oneLarge_wellFormed
  exact ⟨tree, lists, wf, stored, .of_result ReadResult.found (by decide +kernel)⟩

end DiskMap
