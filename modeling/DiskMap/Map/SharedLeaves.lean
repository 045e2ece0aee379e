import DiskMap.Map.Overwrite

namespace DiskMap
open ByteMemory DiskMap.Tree

/-- Both keys get to the same place below the nodes. -/
def Tree.SameBucket (key other : List UInt8) : Nat → Tree → Prop
  | depth, .node _ children => digit other depth = digit key depth ∧ (children (digit key depth)).SameBucket key other (depth + 1)
  | _, _ => True

/-- The entries that have the first digits of a key. -/
def alongside (key : List UInt8) (depth : Nat) (entries : Multiset KVEntry) : Multiset KVEntry :=
  entries.filter fun e => ∀ d, d < depth → digit e.key d = digit key d

variable {t t' : Tx} {m : Mem} {tree tree' sub sub' : Tree} {lists : Nat → FreeList} {key other : List UInt8} {path : List Branch}
  {entries entries' : Multiset KVEntry} {e new : KVEntry} {depth d page : Nat}

theorem sameBucket_plug (follows : Follows key path) :
    (plug path sub).SameBucket key other 0 ↔ Follows other path ∧ sub.SameBucket key other path.length := by
  induction path generalizing sub with
  | nil => exact (and_iff_right trivial).symm
  | cons b rest ih =>
    rw [plug, ih follows.2, Tree.SameBucket, follows.1, Function.update_self, Follows]
    constructor
    · rintro ⟨above, turn, below⟩
      exact ⟨⟨turn, above⟩, below⟩
    · rintro ⟨⟨turn, above⟩, below⟩
      exact ⟨above, turn, below⟩

theorem sameBucket_iff (follows : Follows key path) (last : sub.isNode = false) : (plug path sub).SameBucket key other 0 ↔ Follows other path := by
  refine (sameBucket_plug follows).trans (and_iff_left ?_)
  cases sub with
  | node page children => cases last
  | _ => trivial

/-- What is in the hole matters only to keys that lead there. -/
theorem plug_elsewhere (elsewhere : ¬ Follows key path) :
    (plug path sub').leafOf key 0 = (plug path sub).leafOf key 0 ∧ (plug path sub').bucketEntry key 0 = (plug path sub).bucketEntry key 0 := by
  induction path generalizing sub sub' with
  | nil => exact absurd trivial elsewhere
  | cons b rest ih =>
    rw [plug, plug]
    by_cases follows : Follows key rest
    · have turns : digit key rest.length ≠ b.index := fun same => elsewhere ⟨same, follows⟩
      rw [leafOf_plug follows, leafOf_plug follows, bucketEntry_plug follows, bucketEntry_plug follows, Tree.leafOf, Tree.leafOf,
        Tree.bucketEntry, Tree.bucketEntry, Function.update_of_ne turns, Function.update_of_ne turns]
      exact ⟨rfl, rfl⟩
    · exact ih follows

theorem mem_of_leafOf (member : e ∈ tree.leafOf key depth) : e ∈ tree.entries := by
  induction tree generalizing depth with
  | empty => exact absurd member List.not_mem_nil
  | leaf page entries regions => exact Multiset.mem_coe.mpr member
  | node page children ih => exact mem_entries_node.mpr ⟨_, ih _ member⟩

theorem Crowded.mono (crowded : Crowded entries) (le : entries ≤ entries') : Crowded entries' := by
  obtain ⟨more, rfl⟩ := Multiset.le_iff_exists_add.mp le
  obtain ⟨several, large⟩ := crowded
  refine ⟨several.trans_le (Multiset.card_le_card le), large.trans_le ?_⟩
  rw [Multiset.map_add, Multiset.sum_add]
  exact Nat.le_add_right _ _

/-- No leaf is crowded. -/
theorem not_crowded (rep : sub.Rep m) (last : sub.isNode = false) : ¬ Crowded sub.entries := by
  rintro ⟨several, large⟩
  rw [entries_leafEntries last] at several large
  rcases leafEntries_fit rep with single | fits
  · exact Nat.not_lt.mpr single several
  · exact Nat.not_lt.mpr fits large

theorem alongside_mono (le : depth ≤ d) : alongside key d entries ≤ alongside key depth entries :=
  Multiset.monotone_filter_right entries fun _ agrees i below => agrees i (below.trans_le le)

theorem alongside_plug (placed : PathPlaced path) (follows : Follows key path) (deep : path.length ≤ d) :
    alongside key d (plug path sub).entries = alongside key d sub.entries := by
  have none_ : (pathEntries path).filter (fun e => ∀ i, i < d → digit e.key i = digit key i) = 0 :=
    Multiset.filter_eq_nil.mpr fun e member agrees => pathEntries_elsewhere placed member ((follows_iff follows).mpr fun i below =>
      agrees i (below.trans_le deep))
  rw [alongside, entries_plug, Multiset.filter_add, none_, zero_add]
  rfl

/-- All entries with the first digits of a key are where these lead. -/
theorem alongside_length (placed : (plug path sub).Placed 0) (follows : Follows key path) :
    alongside key path.length (plug path sub).entries = sub.entries := by
  obtain ⟨path_, _, leads⟩ := placed_plug.mp placed
  rw [alongside_plug path_ follows le_rfl]
  exact Multiset.filter_eq_self.mpr fun e member => (follows_iff follows).mp (leads e member)

/-- Only one child of a node has the entries that go on with the next digit. -/
theorem alongside_child {children : Fin branchingFactor → Tree} (placed : (node page children).Placed depth) (deeper : depth < d) :
    alongside key d (node page children).entries = alongside key d (children (digit key depth)).entries := by
  have others : (∑ i ∈ Finset.univ.erase (digit key depth), (children i).entries).filter (fun e => ∀ i, i < d → digit e.key i = digit key i) = 0 := by
    refine Multiset.filter_eq_nil.mpr fun e member agrees => ?_
    obtain ⟨i, different, inside⟩ := Multiset.mem_sum.mp member
    exact Finset.ne_of_mem_erase different (((placed i).2 e inside).symm.trans (agrees depth deeper))
  rw [alongside, entries_child page children (digit key depth), Multiset.filter_add, others, add_zero]
  rfl

/-- Where a tree has only needed nodes, a key leads to a leaf if its digits lead to entries at each of them. -/
theorem Tree.Needed.bucketEntry_ne (needed : sub.Needed) (rep : sub.Rep m) (placed : sub.Placed depth) (some_ : sub.entries ≠ 0)
    (leads : ∀ e ∈ sub.entries, ∀ d, d < depth → digit e.key d = digit key d)
    (filled : ∀ d, depth ≤ d → Crowded (alongside key d sub.entries) → alongside key (d + 1) sub.entries ≠ 0) :
    sub.bucketEntry key depth ≠ 0 := by
  induction sub generalizing depth with
  | empty => exact absurd rfl some_
  | leaf page entries regions => exact rep.1
  | node page children ih =>
    have crowded : Crowded (alongside key depth (node page children).entries) := by
      rw [show alongside key depth (node page children).entries = _ from Multiset.filter_eq_self.mpr leads]
      have all : (node page children).entries = ∑ i, (children i).entries := zero_add _
      exact all ▸ needed.1
    refine ih (digit key depth) (needed.2 _) (rep.2 _).2 (placed _).1 (fun none_ => filled depth le_rfl crowded ?_) (fun e member d below => ?_)
      fun d deeper => ?_
    · rw [alongside_child placed (Nat.lt_succ_self depth), none_]
      rfl
    · rcases Nat.lt_succ_iff_lt_or_eq.mp below with before | rfl
      · exact leads e (mem_entries_node.mpr ⟨_, member⟩) d before
      · exact (placed _).2 e member
    · rw [← alongside_child placed deeper, ← alongside_child placed (Nat.lt_succ_of_lt deeper)]
      exact filled d (Nat.le_of_succ_le deeper)

/-- The entry of a key does not get into the leaf of the other key: the keys are in different buckets, or they differ in a digit by which
the entries are split, since those with all earlier digits of the first key do not go to one leaf. -/
def Parted (tree : Tree) (new : KVEntry) (other : List UInt8) : Prop :=
  ¬ tree.SameBucket new.key other 0 ∨ ∃ d, digit other d ≠ digit new.key d ∧ Crowded (alongside new.key d (new ::ₘ tree.others new.key))

/-- With the entry of a key the other key leads to a leaf: one that was there in another bucket, or one of those that its own bucket is
split into when some entries have the key's next digit wherever they are split. -/
structure FilledAfter (tree : Tree) (new : KVEntry) (other : List UInt8) : Prop where
  elsewhere : ¬ tree.SameBucket new.key other 0 → tree.bucketEntry other 0 ≠ 0
  here : tree.SameBucket new.key other 0 → ∀ d, Crowded (alongside other d (new ::ₘ tree.others new.key)) →
    alongside other (d + 1) (new ::ₘ tree.others new.key) ≠ 0

theorem Tree.Sorts.plug_others (sorts : sub'.Sorts depth (new ::ₘ sub.others new.key)) (placed : PathPlaced path) (follows : Follows new.key path) :
    (plug path sub').entries = new ::ₘ (plug path sub).others new.key := by
  rw [others_plug placed follows, Tree.entries_plug, sorts.entries, Multiset.add_cons]

/-- The entry of a key is not in the leaf of another one when the entries are split where the keys differ. -/
theorem Rooted.parted (rooted : Rooted tree lists t) (placed : tree.Placed 0) (apart : digit other d ≠ digit key d)
    (crowded : Crowded (alongside key d tree.entries)) (member : e ∈ tree.leafOf other 0) : e.key ≠ key := by
  rintro rfl
  obtain ⟨b, rest, sub, rfl, follows, last, _⟩ := rooted.findParent_run other
  rw [leafOf_plug follows, leafOf_leaf last, ← Multiset.mem_coe, ← entries_leafEntries last] at member
  have along := (placed_plug.mp placed).2.2 e member
  have shallow : (b :: rest).length ≤ d := by
    by_contra deep
    exact apart ((follows_iff along).mp follows d (Nat.not_le.mp deep))
  refine not_crowded (rep_plug.mp rooted.rep).2 last ?_
  rw [← alongside_length placed along]
  exact crowded.mono (alongside_mono shallow)

/-- The part of a key in front of its first NUL gets into its leaf only as the new key. -/
theorem Rooted.leafOf_apart (rooted : Rooted (plug path sub') lists t') (placed : (plug path sub').Placed 0) (placed₀ : PathPlaced path)
    (follows : Follows new.key path) (last : sub.isNode = false) (sorts : sub'.Sorts depth (new ::ₘ sub.others new.key))
    (apart : ∀ e ∈ (plug path sub).leafOf other 0, e.key ≠ cutNul other) (parted : cutNul other = new.key → Parted (plug path sub) new other) :
    ∀ e ∈ (plug path sub').leafOf other 0, e.key ≠ cutNul other := by
  intro e member
  by_cases here : Follows other path
  · have inside := member
    rw [leafOf_plug here] at inside
    replace inside := mem_of_leafOf inside
    rw [sorts.entries, Multiset.mem_cons] at inside
    rcases inside with rfl | old
    · intro hit
      rcases parted hit.symm with elsewhere | ⟨d, differ, crowded⟩
      · exact elsewhere ((sameBucket_iff follows last).mpr here)
      · rw [← sorts.plug_others placed₀ follows] at crowded
        exact rooted.parted placed differ crowded member rfl
    · have before := Multiset.mem_of_le (Multiset.filter_le _ _) old
      rw [entries_leafEntries last] at before
      refine apart e ?_
      rw [leafOf_plug here, leafOf_leaf last]
      exact Multiset.mem_coe.mp before
  · rw [(plug_elsewhere here).1] at member
    exact apart e member

theorem filledAfter_bucketEntry (rep : sub'.Rep m) (placed : (plug path sub').Placed 0) (placed₀ : PathPlaced path) (follows : Follows new.key path)
    (last : sub.isNode = false) (sorts : sub'.Sorts path.length (new ::ₘ sub.others new.key)) (filled : FilledAfter (plug path sub) new other) :
    (plug path sub').bucketEntry other 0 ≠ 0 := by
  have same : (plug path sub).SameBucket new.key other 0 ↔ Follows other path := sameBucket_iff follows last
  by_cases here : Follows other path
  · have inside := filled.here (same.mpr here)
    rw [← sorts.plug_others placed₀ follows] at inside
    obtain ⟨path_, _, leads⟩ := placed_plug.mp placed
    rw [bucketEntry_plug here]
    refine sorts.needed.bucketEntry_ne rep sorts.placed (fun none_ => ?_) (fun e member => (follows_iff here).mp (leads e member)) fun d deep => ?_
    · rw [sorts.entries] at none_
      exact Multiset.cons_ne_zero none_
    · rw [← alongside_plug path_ here deep, ← alongside_plug path_ here (deep.trans (Nat.le_succ d))]
      exact inside d
  · rw [(plug_elsewhere here).2]
    exact filled.elsewhere fun both => here (same.mp both)

end DiskMap
