import DiskMap.Map.Insert

namespace DiskMap
open LeafNodeStartPage DiskMap.Tree

variable {t : Tx} {tree sub : Tree} {lists : Nat → FreeList} {path rest : List Branch} {b : Branch} {entries : List KVEntry} {e new : KVEntry}
  {key other v buffer : List UInt8} {depth : Nat}

theorem digit_congr (same : fnvHash key = fnvHash other) (d : Nat) : digit key d = digit other d :=
  Fin.ext (congrArg (fun hash : UInt64 => hash.toNat / branchingFactor ^ d % branchingFactor) same)

/-- The other hashes do not separate keys that the first one does not separate. -/
theorem getBucket_ne_iff : (∃ depth, getBucket key depth ≠ getBucket other depth) ↔ fnvHash key ≠ fnvHash other := by
  constructor
  · rintro ⟨depth, apart⟩ same
    refine apart ?_
    cases depth with
    | zero => exact (getBucket_digit key 0).trans ((congrArg Fin.val (digit_congr same 0)).trans (getBucket_digit other 0).symm)
    | succ d => rw [getBucket_digit, getBucket_digit, digit_congr same]
  · intro different
    obtain ⟨d, _, apart⟩ := digit_ne different
    refine ⟨d + 1, ?_⟩
    rw [getBucket_digit, getBucket_digit]
    exact fun same => apart (Fin.ext same)

section Endless

variable {post : Unit → Tx → Prop}

/-- Every level of the loop is like the one before. -/
theorem splitLeafFrom_endless (same : fnvHash key = fnvHash other) (leaf fuel parent depth : Nat) (t : Tx) :
    ¬ (splitLeafFrom key other buffer leaf fuel parent depth t).Ends post := by
  induction fuel generalizing parent depth t with
  | zero => exact fun ⟨_, _, ended, _⟩ => nomatch ended
  | succ fuel ih =>
    rw [splitLeafFrom]
    simp only [getBucket_digit, digit_congr same, if_true]
    intro ends
    obtain ⟨page, t₁, _, ends₁⟩ := ends.of_bind
    obtain ⟨_, t₂, _, ends₂⟩ := ends₁.of_bind
    exact ih page (depth + 1) t₂ ends₂

theorem createChildren_ends {create : Nat → List KVEntry → TxProgram Unit} {buckets : Nat → List KVEntry} {n i : Nat}
    (ends : (createChildren create buckets n t).Ends post) (within : i < n) (some_ : buckets i ≠ []) :
    ∃ t', (create i (buckets i) t').Ends fun _ _ => True := by
  induction n generalizing post with
  | zero => exact absurd within (Nat.not_lt_zero i)
  | succ n ih =>
    rw [createChildren] at ends
    obtain ⟨_, t₁, before, here⟩ := ends.of_bind
    rcases Nat.lt_succ_iff_lt_or_eq.mp within with earlier | rfl
    · exact ih (.of_done before) earlier
    · rw [if_pos some_] at here
      exact ⟨t₁, here.mono fun _ _ _ => trivial⟩

theorem filter_bucket (hash : UInt64) (depth : Nat) (entries : List KVEntry) :
    (bucketEntries depth (getHashBucket hash.toNat depth) entries).filter (fun e => fnvHash e.key = hash) =
      entries.filter fun e => fnvHash e.key = hash := by
  rw [bucketEntries, List.filter_filter]
  refine List.filter_congr fun e _ => ?_
  by_cases same : fnvHash e.key = hash
  · simp [same]
  · simp [same]

/-- The recursion ends only for entries that can be told apart. -/
theorem createSubtreeFrom_splits {fuel parent index : Nat} (ends : (createSubtreeFrom fuel parent index depth entries t).Ends post) :
    Splits entries := by
  induction fuel generalizing parent index depth entries t post with
  | zero =>
    obtain ⟨_, _, ended, _⟩ := ends
    cases ended
  | succ fuel ih =>
    intro hash
    rw [createSubtreeFrom] at ends
    obtain ⟨_, t₁, built, _⟩ := ends.of_bind
    rw [buildSubtree.eq_def] at built
    have sub : (entries.filter fun e => fnvHash e.key = hash).Sublist entries := List.filter_sublist
    by_cases small : entriesSize entries ≤ capacity
    · exact Or.inr ((entriesSize_sublist sub).trans small)
    rw [if_neg small] at built
    rcases entries with _ | ⟨e, _ | ⟨e', more⟩⟩
    · exact absurd (Nat.zero_le _) small
    · exact Or.inl sub.length_le
    · by_contra neither
      obtain ⟨_, large⟩ := not_or.mp neither
      have node := Outcome.Ends.of_done built
      simp only at node
      rw [createNode] at node
      obtain ⟨page, t₂, _, children⟩ := node.of_bind
      obtain ⟨_, t₃, looped, _⟩ := children.of_bind
      have bucket := filter_bucket hash (depth + 1) (e :: e' :: more)
      have some_ : bucketEntries (depth + 1) (getHashBucket hash.toNat (depth + 1)) (e :: e' :: more) ≠ [] := by
        intro none_
        rw [none_] at bucket
        rw [← bucket] at large
        exact large (Nat.zero_le _)
      have inside : getHashBucket hash.toNat (depth + 1) < branchingFactor := by
        rw [getHashBucket_eq]
        exact Nat.mod_lt _ branchingFactor_pos
      obtain ⟨t', deeper⟩ := createChildren_ends (.of_done looped) inside some_
      have splits := ih deeper hash
      rw [bucket] at splits
      exact neither splits

end Endless

/-- Only behind the same hash is a leaf that the new entry has to share. -/
def Separable (new : KVEntry) (entries : Multiset KVEntry) : Prop :=
  (∀ e ∈ entries, fnvHash e.key ≠ fnvHash new.key) ∨
    ((entries.filter fun e => fnvHash e.key = fnvHash new.key).map KVEntry.size).sum + new.size ≤ capacity

/-- The entries with the hash of a key are behind the way to it. -/
theorem pathEntries_hash (placed : PathPlaced path) (follows : Follows key path) (member : e ∈ pathEntries path) :
    fnvHash e.key ≠ fnvHash key :=
  fun same => pathEntries_elsewhere placed member ((follows_iff follows).mpr fun d _ => digit_congr same d)

theorem filter_hash (placed : PathPlaced path) (follows : Follows key path) :
    (plug path sub).entries.filter (fun e => fnvHash e.key = fnvHash key) = sub.entries.filter fun e => fnvHash e.key = fnvHash key := by
  rw [entries_plug, Multiset.filter_add, Multiset.filter_eq_nil.mpr fun e member => pathEntries_hash placed follows member, zero_add]

theorem splits_pair (different : fnvHash e.key ≠ fnvHash new.key) : Splits [e, new] := by
  intro hash
  refine Or.inl ?_
  by_cases first : fnvHash e.key = hash
  · have second : ¬ fnvHash new.key = hash := fun same => different (first.trans same.symm)
    rw [List.filter_cons_of_pos (by simpa using first), List.filter_cons_of_neg (by simpa using second)]
    exact le_rfl
  · rw [List.filter_cons_of_neg (by simpa using first)]
    exact List.length_filter_le _ [new]

theorem leafEntries_fit {m : ByteMemory.Mem} (rep : sub.Rep m) : sub.leafEntries.length ≤ 1 ∨ entriesSize sub.leafEntries ≤ capacity := by
  cases sub with
  | leaf page entries regions =>
    obtain ⟨_, _, at_⟩ := rep
    by_cases chained : regions = []
    · subst chained
      exact Or.inr at_.fits
    · exact Or.inl (at_.single chained).1.le
  | _ => exact Or.inl (Nat.zero_le _)

/-- Entries that fit into one leaf are told apart from a new one when those with its hash are. -/
theorem splits_snoc_iff {whole : Multiset KVEntry} (fit : entries.length ≤ 1 ∨ entriesSize entries ≤ capacity)
    (hashes : whole.filter (fun e => fnvHash e.key = fnvHash new.key) = (entries : Multiset KVEntry).filter fun e => fnvHash e.key = fnvHash new.key) :
    Separable new whole ↔ Splits (entries ++ [new]) := by
  obtain ⟨same_, is⟩ : ∃ same_, entries.filter (fun e => fnvHash e.key = fnvHash new.key) = same_ := ⟨_, rfl⟩
  rw [Multiset.filter_coe, is] at hashes
  have added : (entries ++ [new]).filter (fun e => fnvHash e.key = fnvHash new.key) = same_ ++ [new] := by
    rw [List.filter_append, is]
    simp
  have size : ((same_ : Multiset KVEntry).map KVEntry.size).sum + new.size = entriesSize (same_ ++ [new]) := by
    rw [Multiset.map_coe, Multiset.sum_coe, entriesSize_append, entriesSize_cons]
    rfl
  rw [Separable, hashes, size]
  constructor
  · intro either hash
    by_cases here : fnvHash new.key = hash
    · rw [← here, added]
      refine either.imp_left fun none_ => ?_
      rw [Multiset.filter_eq_nil.mpr none_] at hashes
      rw [show same_ = [] from (Multiset.coe_eq_zero _).mp hashes.symm]
      exact le_rfl
    · have others : (entries ++ [new]).filter (fun e => fnvHash e.key = hash) = entries.filter fun e => fnvHash e.key = hash := by
        rw [List.filter_append]
        simp [here]
      rw [others]
      exact fit.imp List.filter_sublist.length_le.trans (entriesSize_sublist List.filter_sublist).trans
  · intro splits
    refine (added ▸ splits (fnvHash new.key)).imp_left fun single => ?_
    have none_ : same_ = [] := by
      rw [List.length_append, List.length_singleton] at single
      exact List.length_eq_zero_iff.mp (by omega)
    rw [none_] at hashes
    exact Multiset.filter_eq_nil.mp hashes

theorem separable_iff {m : ByteMemory.Mem} (rep : sub.Rep m) (last : sub.isNode = false) (placed : PathPlaced path) (follows : Follows new.key path) :
    Separable new (plug path sub).entries ↔ Splits (sub.leafEntries ++ [new]) :=
  splits_snoc_iff (leafEntries_fit rep) (by rw [filter_hash placed follows, entries_leafEntries last])

namespace WellFormed

/-- A key of another length is refused. -/
theorem write_allowed {tree : Tree} {post : Unit → Tx → Prop} (wf : WellFormed tree lists t) {beyond : ByteMemory.Mem}
    (ends : (write beyond key (some v) t).Ends post) : key ≠ [] ∧ key.length ≤ maxKeyLength := by
  obtain ⟨b, rest, sub, rfl, follows, last, found⟩ := wf.rooted.findParent_run key
  rw [write, Program.done_bind found] at ends
  dsimp only at ends
  rw [writeAtNode] at ends
  by_cases invalid : key.length = 0 ∨ maxKeyLength < key.length
  · rw [if_pos invalid] at ends
    obtain ⟨_, _, ended, _⟩ := ends
    cases ended
  · obtain ⟨some_, short⟩ := not_or.mp invalid
    exact ⟨fun empty => some_ (List.length_eq_zero_iff.mpr empty), Nat.not_lt.mp short⟩

/-- `write` of a new key ends only when it can be told apart from the entries of its leaf. -/
theorem write_splits (wf : WellFormed (plug (b :: rest) sub) lists t) (follows : Follows key (b :: rest)) (last : sub.isNode = false)
    (found : findParent key t = .done (b.page, b.index.val, rest.length) t) (absent : (plug (b :: rest) sub).lookup key 0 = none)
    (noNul : NulFree key) (beyond : ByteMemory.Mem) (ends : (write beyond key (some v) t).Ends fun _ _ => True) :
    Splits (sub.leafEntries ++ [⟨key, v⟩]) := by
  have hole := wf.hole last
  have absent' := absent_leaf follows last absent
  have short := (wf.write_allowed ends).2
  rw [write, Program.done_bind found] at ends
  dsimp only at ends
  rw [writeAtNode, if_neg (noNul.valid short), getPage_bind, hole.entry] at ends
  cases sub with
  | node page children => cases last
  | empty => exact splits_singleton _
  | leaf page entries regions =>
    obtain ⟨nonzero, low, at_⟩ := hole.rep
    have none_ : offsetOf key entries = none := offsetOf_eq_none.mpr absent'
    rw [Tree.entry, if_neg nonzero, clearMsb_leaf low, getPage_bind, at_.findEntryInLeaf_eq noNul.2, none_] at ends
    obtain ⟨t₁, increased, counted⟩ := increaseKvEntryCount_run hole.space wf.kvEntryCount_lt
    obtain ⟨_, _, at₁⟩ := (counted.hole hole).rep
    simp only [addEntry] at ends
    rw [Program.done_bind increased, getPage_bind, at₁.usage] at ends
    change Splits (entries ++ [⟨key, v⟩])
    have total : entriesSize (entries ++ [⟨key, v⟩]) = entriesSize entries + (key.length + 1 + 8 + v.length) := by
      rw [entriesSize_append, entriesSize_cons]
      rfl
    by_cases fits : entriesSize entries + (key.length + 1 + 8 + v.length) ≤ capacity
    · exact fun hash => Or.inr ((entriesSize_sublist List.filter_sublist).trans (total.trans_le fits))
    rw [if_neg fits, getPage_bind, getPage_bind, at₁.entryCount] at ends
    by_cases one : entries.length = 1
    · obtain ⟨e, rfl⟩ := List.length_eq_one_iff.mp one
      obtain ⟨value, rest', copied⟩ := at₁.first_copied beyond
      rw [if_pos one, copied] at ends
      have different : fnvHash key ≠ fnvHash e.key := fun same => splitLeafFrom_endless same _ _ _ _ _ ends
      exact splits_pair (Ne.symm different)
    · have single : regions = [] := by
        by_contra chained
        exact one (at₁.single chained).1
      subst single
      rw [if_neg one, at₁.copied beyond] at ends
      exact createSubtreeFrom_splits ends

theorem write_separable {tree : Tree} (wf : WellFormed tree lists t) (absent : tree.lookup key 0 = none) (noNul : NulFree key)
    {beyond : ByteMemory.Mem} (ends : (write beyond key (some v) t).Ends fun _ _ => True) : Separable ⟨key, v⟩ tree.entries := by
  obtain ⟨b, rest, sub, rfl, follows, last, found⟩ := wf.rooted.findParent_run key
  rw [separable_iff (wf.hole last).rep last (placed_plug.mp wf.placed).1 follows]
  exact wf.write_splits follows last found absent noNul beyond ends

end WellFormed

/-- Writing a new key ends, and so does building a subtree, if and only if no more entries have the same hash than fit into a leaf. -/
theorem splitters_end_iff (wf : WellFormed tree lists t) (absent : tree.lookup key 0 = none) (noNul : NulFree key)
    (short : key.length ≤ maxKeyLength) (size : KVEntry.size ⟨key, v⟩ ≤ chainCapacity 30)
    (room : MetaPage.nextFreePage t.mem + writeCost (KVEntry.size ⟨key, v⟩) ≤ maxPages) (beyond : ByteMemory.Mem) :
    ((write beyond key (some v) t).Ends (fun _ _ => True) ↔ Separable ⟨key, v⟩ tree.entries) ∧
      (∀ e ∈ tree.entries, (∃ depth, getBucket key depth ≠ getBucket e.key depth) ↔ fnvHash key ≠ fnvHash e.key) ∧
        ∀ b rest sub entries, tree = plug (b :: rest) sub → sub.isNode = false → Storable entries → entries ≠ [] →
          (∀ e ∈ entries, Follows e.key (b :: rest)) →
          MetaPage.nextFreePage t.mem + (subtreeCost (rest.length + 1) entries + sub.regionCount) ≤ maxPages →
            ((createSubtree b.page b.index rest.length entries t).Ends (fun _ _ => True) ↔ Splits entries) := by
  refine ⟨?_, fun e _ => getBucket_ne_iff, ?_⟩
  · obtain ⟨b, rest, sub, rfl, follows, last, found⟩ := wf.rooted.findParent_run key
    rw [separable_iff (wf.hole last).rep last (placed_plug.mp wf.placed).1 follows]
    refine ⟨fun ends => wf.write_splits follows last found absent noNul beyond ends, fun splits => ?_⟩
    have fits := wf.write_path follows last found absent noNul short size splits beyond
    exact (fits.resolve_right fun ⟨_, more⟩ => Nat.not_lt.mpr room more).mono fun _ _ _ => trivial
  · rintro b rest sub entries rfl last storable nonempty follow room'
    refine ⟨createSubtreeFrom_splits, fun splits => ?_⟩
    have agree := follows_agree follow
    rw [List.length_cons] at agree
    have fits := createSubtree_fits (wf.hole last) storable nonempty splits agree
    exact (fits.resolve_right fun ⟨_, more⟩ => Nat.not_lt.mpr room' more).mono fun _ _ _ => trivial

/-- Two keys with the same hash. -/
def firstCollider : List UInt8 := [84, 107, 81, 68, 70, 56, 84, 54, 56, 81]

def secondCollider : List UInt8 := [108, 106, 104, 57, 48, 78, 78, 69, 81, 84]

theorem colliders : fnvHash firstCollider = fnvHash secondCollider := by decide +kernel

theorem single_absent (wf : WellFormed tree lists t) (entries : tree.entries = {e}) (other : e.key ≠ key) : tree.lookup key 0 = none := by
  refine Option.eq_none_iff_forall_ne_some.mpr fun v found => ?_
  rw [lookup_iff wf.rep wf.placed, entries, Multiset.mem_singleton] at found
  exact other (by rw [← found])

/-- A value that does not share a leaf with another one of its length. -/
def largeValue : List UInt8 := List.replicate 2100 7

theorem size_largeValue (key : List UInt8) : KVEntry.size ⟨key, largeValue⟩ = key.length + 2109 := by
  rw [KVEntry.size, largeValue, List.length_replicate]

theorem exists_firstCollider : ∃ t tree lists, WellFormed tree lists t ∧ tree.entries = {⟨firstCollider, largeValue⟩} ∧
    MetaPage.nextFreePage t.mem ≤ maxOrder + 3 + writeCost 2119 := by
  have size : KVEntry.size ⟨firstCollider, largeValue⟩ = 2119 := size_largeValue firstCollider
  obtain ⟨t, tree, lists, wf, entries, _, next⟩ := exists_singleEntry ⟨firstCollider, largeValue⟩ (show NulFree firstCollider by decide)
    (show firstCollider.length ≤ maxKeyLength by decide) (by rw [size]; decide)
  exact ⟨t, tree, lists, wf, entries, by rwa [size] at next⟩

/-- The keys are in one bucket of the root, and the entries do not fit into one leaf. -/
theorem splitters_end_iff_apart : ∃ t tree lists, WellFormed tree lists t ∧ tree.entries = {⟨[97], largeValue⟩} ∧
    getBucket [97] 1 = getBucket [97, 100] 1 ∧
    (((write (fun _ => 0) [97, 100] (some largeValue) t).Ends (fun _ _ => True) ↔ Separable ⟨[97, 100], largeValue⟩ tree.entries) ∧
      (∀ e ∈ tree.entries, (∃ depth, getBucket [97, 100] depth ≠ getBucket e.key depth) ↔ fnvHash [97, 100] ≠ fnvHash e.key) ∧
        ∀ b rest sub entries, tree = plug (b :: rest) sub → sub.isNode = false → Storable entries → entries ≠ [] →
          (∀ e ∈ entries, Follows e.key (b :: rest)) →
          MetaPage.nextFreePage t.mem + (subtreeCost (rest.length + 1) entries + sub.regionCount) ≤ maxPages →
            ((createSubtree b.page b.index rest.length entries t).Ends (fun _ _ => True) ↔ Splits entries)) := by
  have size : KVEntry.size ⟨[97], largeValue⟩ = 2110 := size_largeValue [97]
  have size' : KVEntry.size ⟨[97, 100], largeValue⟩ = 2111 := size_largeValue [97, 100]
  obtain ⟨t, tree, lists, wf, entries, _, next⟩ := exists_singleEntry ⟨[97], largeValue⟩ (show NulFree [97] by decide)
    (show [97].length ≤ maxKeyLength by decide) (by rw [size]; decide)
  rw [size] at next
  have absent := single_absent wf entries (show [97] ≠ [97, 100] by decide)
  refine ⟨t, tree, lists, wf, entries, by decide +kernel,
    splitters_end_iff wf absent (by decide) (by decide) (by rw [size']; decide) ?_ fun _ => 0⟩
  rw [size']
  have cost : maxOrder + 3 + writeCost 2110 + writeCost 2111 ≤ maxPages := by decide
  omega

/-- The second of them is written beside the first one. -/
theorem write_endless : ∃ t tree lists, WellFormed tree lists t ∧ tree.entries = {⟨firstCollider, largeValue⟩} ∧
    (∀ depth, getBucket firstCollider depth = getBucket secondCollider depth) ∧
      ¬ (write (fun _ => 0) secondCollider (some largeValue) t).Ends fun _ _ => True := by
  obtain ⟨t, tree, lists, wf, entries, _⟩ := exists_firstCollider
  refine ⟨t, tree, lists, wf, entries, fun depth => ?_, fun ends => ?_⟩
  · exact not_not.mp (not_exists.mp (fun apart => getBucket_ne_iff.mp apart colliders) depth)
  have absent := single_absent wf entries (show firstCollider ≠ secondCollider by decide)
  obtain ⟨b, rest, sub, rfl, follows, last, found⟩ := wf.rooted.findParent_run secondCollider
  have splits := wf.write_splits follows last found absent (by decide) (fun _ => 0) ends
  have placed := (placed_plug.mp wf.placed).1
  have separable : Separable ⟨secondCollider, largeValue⟩ (plug (b :: rest) sub).entries ↔ _ := separable_iff (wf.hole last).rep last placed follows
  rcases separable.mpr splits with none_ | fits
  · refine none_ ⟨firstCollider, largeValue⟩ ?_ colliders
    rw [entries]
    exact Multiset.mem_singleton_self _
  · have same : fnvHash (KVEntry.mk firstCollider largeValue).key = fnvHash (KVEntry.mk secondCollider largeValue).key := colliders
    rw [entries, Multiset.filter_singleton, if_pos same, Multiset.map_singleton, Multiset.sum_singleton, size_largeValue,
      size_largeValue] at fits
    have room : firstCollider.length + secondCollider.length + 2 * 2109 > capacity := by decide
    omega

end DiskMap
