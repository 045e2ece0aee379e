import DiskMap.Map.CreateLeaf
import DiskMap.Map.Regrow
import Mathlib.Algebra.BigOperators.Group.Finset.Piecewise
import Mathlib.Algebra.Order.BigOperators.Group.List

namespace DiskMap
open ByteMemory LeafNodeStartPage DiskMap.Tree

/-- The entries whose hashes lead to a child of a node. -/
def bucketEntries (depth bucket : Nat) (entries : List KVEntry) : List KVEntry :=
  entries.filter fun e => getHashBucket (fnvHash e.key).toNat depth = bucket

/-- The loop over the children of a new node. -/
def createChildren (create : Nat → List KVEntry → TxProgram Unit) (buckets : Nat → List KVEntry) : Nat → TxProgram Unit
  | 0 => pure ()
  | i + 1 => do
    createChildren create buckets i
    if buckets i ≠ [] then create i (buckets i)

def createNode (create : Nat → Nat → List KVEntry → TxProgram Unit) (depth : Nat) (entries : List KVEntry) : TxProgram Nat := do
  let page ← SpaceManager.allocate 0
  createChildren (create page) (bucketEntries depth · entries) branchingFactor
  return setMsb page 1

/-- One page, or a chain of regions for a single entry, or a node and what is below it. -/
def buildSubtree (create : Nat → Nat → List KVEntry → TxProgram Unit) (depth : Nat) (entries : List KVEntry) : TxProgram Nat :=
  if entriesSize entries ≤ capacity then createLeaf entries
  else match entries with
    | [e] => createBigLeaf e
    | entries => createNode create depth entries

/-- Each level of the recursion takes a page of the file. -/
def createSubtreeFrom : Nat → Nat → Nat → Nat → List KVEntry → TxProgram Unit
  | 0, _, _, _, _ => .stuck
  | fuel + 1, parent, parentEntry, parentDepth, entries => do
    let newParentEntry ← buildSubtree (fun page i es => createSubtreeFrom fuel page i (parentDepth + 1) es) (parentDepth + 1) entries
    replaceEntry parent parentEntry newParentEntry

def createSubtree (parent parentEntry parentDepth : Nat) (entries : List KVEntry) : TxProgram Unit :=
  createSubtreeFrom maxPages parent parentEntry parentDepth entries

/-- Entries whose keys have the same hash cannot be told apart: they have to be in one page. -/
def Splits (entries : List KVEntry) : Prop :=
  ∀ hash, (entries.filter fun e => fnvHash e.key = hash).length ≤ 1 ∨
    entriesSize (entries.filter fun e => fnvHash e.key = hash) ≤ capacity

/-- The keys have the same first digits. -/
def Agree (depth : Nat) (entries : List KVEntry) : Prop :=
  ∀ e ∈ entries, ∀ e' ∈ entries, ∀ d, d < depth → digit e.key d = digit e'.key d

/-- So many pages are enough for a subtree. -/
def subtreeCost (depth : Nat) (entries : List KVEntry) : Nat :=
  (entries.map fun e => 1 + e.size / 512 + (splitsPerHash + 1 - depth)).sum

section Entries

variable {entries : List KVEntry} {depth n : Nat}

theorem entriesSize_sublist {some_ : List KVEntry} (sub : some_.Sublist entries) : entriesSize some_ ≤ entriesSize entries :=
  (sub.map KVEntry.size).sum_le_sum fun _ _ => Nat.zero_le _

theorem Splits.filter (splits : Splits entries) (p : KVEntry → Bool) : Splits (entries.filter p) := by
  intro hash
  have sub := (List.filter_sublist (p := p) (l := entries)).filter fun e => decide (fnvHash e.key = hash)
  exact (splits hash).imp sub.length_le.trans (entriesSize_sublist sub).trans

theorem Storable.sublist {some_ : List KVEntry} (storable : Storable entries) (sub : some_.Sublist entries) : Storable some_ where
  keys := ⟨fun e member => storable.keys.nulFree e (sub.subset member), (sub.map KVEntry.key).nodup storable.keys.nodup⟩
  short e member := storable.short e (sub.subset member)
  sizes e member := storable.sizes e (sub.subset member)

/-- Behind the last digit there is nothing left to split. -/
theorem Splits.last (splits : Splits entries) (agree : Agree depth entries) (deep : splitsPerHash ≤ depth) :
    entries.length ≤ 1 ∨ entriesSize entries ≤ capacity := by
  cases entries with
  | nil => exact Or.inl (Nat.zero_le _)
  | cons e rest =>
    have same : ((e :: rest).filter fun e' => fnvHash e'.key = fnvHash e.key) = e :: rest := by
      refine List.filter_eq_self.mpr fun e' member => decide_eq_true ?_
      by_contra different
      obtain ⟨d, bound, apart⟩ := digit_ne different
      exact apart (agree e' member e List.mem_cons_self d (bound.trans_le deep))
    have whole := splits (fnvHash e.key)
    rwa [same] at whole

theorem mem_bucketEntries {e : KVEntry} {bucket : Nat} :
    e ∈ bucketEntries depth bucket entries ↔ e ∈ entries ∧ (digit e.key depth).val = bucket := by
  rw [bucketEntries, List.mem_filter, decide_eq_true_iff, getHashBucket_digit]

theorem Agree.bucket (agree : Agree depth entries) (bucket : Nat) : Agree (depth + 1) (bucketEntries depth bucket entries) := by
  intro e member e' member' d bound
  obtain ⟨inside, digit⟩ := mem_bucketEntries.mp member
  obtain ⟨inside', digit'⟩ := mem_bucketEntries.mp member'
  rcases Nat.lt_succ_iff_lt_or_eq.mp bound with before | rfl
  · exact agree e inside e' inside' d before
  · exact Fin.ext (digit.trans digit'.symm)

/-- The entries of the first buckets, and those of the next one. -/
theorem sum_filter_succ (weight f : KVEntry → Nat) (n : Nat) (entries : List KVEntry) :
    ((entries.filter fun e => f e < n + 1).map weight).sum =
      ((entries.filter fun e => f e < n).map weight).sum + ((entries.filter fun e => f e = n).map weight).sum := by
  induction entries with
  | nil => rfl
  | cons e rest ih =>
    rcases Nat.lt_trichotomy (f e) n with before | same | behind
    · simp only [List.filter_cons, decide_eq_true (show f e < n + 1 by omega), decide_eq_true before,
        decide_eq_false (show ¬ f e = n by omega), if_true, Bool.false_eq_true, if_false, List.map_cons, List.sum_cons, ih]
      omega
    · simp only [List.filter_cons, decide_eq_true (show f e < n + 1 by omega), decide_eq_false (show ¬ f e < n by omega),
        decide_eq_true same, if_true, Bool.false_eq_true, if_false, List.map_cons, List.sum_cons, ih]
      omega
    · simp only [List.filter_cons, decide_eq_false (show ¬ f e < n + 1 by omega), decide_eq_false (show ¬ f e < n by omega),
        decide_eq_false (show ¬ f e = n by omega), Bool.false_eq_true, if_false, ih]

theorem sum_buckets (depth : Nat) (entries : List KVEntry) :
    ∑ i : Fin branchingFactor, (bucketEntries depth i entries : Multiset KVEntry) = entries := by
  refine Multiset.ext.mpr fun e => ?_
  have each : ∀ i : Fin branchingFactor, (bucketEntries depth i entries : Multiset KVEntry).count e =
      if digit e.key depth = i then (entries : Multiset KVEntry).count e else 0 := by
    intro i
    rw [Multiset.coe_count, Multiset.coe_count]
    split
    · rename_i here
      refine List.count_filter (decide_eq_true ?_)
      rw [getHashBucket_digit, here]
    · rename_i elsewhere
      refine List.count_eq_zero.mpr fun member => elsewhere (Fin.ext (mem_bucketEntries.mp member).2)
  rw [Multiset.count_sum', Finset.sum_congr rfl fun i _ => each i, Finset.sum_ite_eq, if_pos (Finset.mem_univ _)]

theorem subtreeCost_step (shallow : depth < splitsPerHash + 1) (nonempty : entries ≠ []) :
    subtreeCost (depth + 1) entries + 1 ≤ subtreeCost depth entries := by
  have each : ∀ es : List KVEntry, subtreeCost (depth + 1) es + es.length = subtreeCost depth es := by
    intro es
    induction es with
    | nil => rfl
    | cons e rest ih =>
      simp only [subtreeCost, List.map_cons, List.sum_cons, List.length_cons] at ih ⊢
      omega
  have positive := List.length_pos_of_ne_nil nonempty
  have total := each entries
  omega

theorem subtreeCost_cons (depth : Nat) (e : KVEntry) (rest : List KVEntry) :
    subtreeCost depth (e :: rest) = 1 + e.size / 512 + (splitsPerHash + 1 - depth) + subtreeCost depth rest := by
  rw [subtreeCost, List.map_cons, List.sum_cons]
  rfl

theorem subtreeCost_singleton (depth : Nat) (e : KVEntry) : subtreeCost depth [e] = 1 + e.size / 512 + (splitsPerHash + 1 - depth) :=
  subtreeCost_cons depth e []

theorem subtreeCost_pos (depth : Nat) (nonempty : entries ≠ []) : 0 < subtreeCost depth entries := by
  obtain ⟨e, rest, rfl⟩ := List.exists_cons_of_ne_nil nonempty
  rw [subtreeCost_cons]
  omega

theorem subtreeCost_append (depth : Nat) (front back : List KVEntry) :
    subtreeCost depth (front ++ back) = subtreeCost depth front + subtreeCost depth back := by
  simp [subtreeCost]

/-- Small entries take no more pages than bytes. -/
theorem subtreeCost_le (depth : Nat) (entries : List KVEntry) :
    subtreeCost (depth + 1) entries ≤ entriesSize entries + entriesSize entries / 512 := by
  induction entries with
  | nil => exact Nat.zero_le _
  | cons e rest ih =>
    have size : e.size = e.key.length + 9 + e.value.length := rfl
    have digits : splitsPerHash = 8 := rfl
    rw [entriesSize_cons, subtreeCost_cons]
    omega

/-- A new entry takes few pages beside the small ones. -/
theorem subtreeCost_insert (depth : Nat) (e : KVEntry) {front back : List KVEntry} (fits : entriesSize front + entriesSize back ≤ capacity) :
    subtreeCost (depth + 1) (front ++ e :: back) ≤ capacity + 17 + e.size / 512 := by
  have first := subtreeCost_le depth front
  have second := subtreeCost_le depth back
  have digits : splitsPerHash = 8 := rfl
  have room : capacity / 512 ≤ 8 := by decide
  rw [subtreeCost_append, subtreeCost_cons]
  omega

theorem splits_singleton (e : KVEntry) : Splits [e] := fun _ => Or.inl (List.length_filter_le _ _)

theorem agree_singleton (depth : Nat) (e : KVEntry) : Agree depth [e] := by
  intro e₁ member₁ e₂ member₂ d _
  rw [List.mem_singleton.mp member₁, List.mem_singleton.mp member₂]

end Entries

variable {t t' : Tx} {held : Multiset Nat} {lists : Nat → FreeList} {page parent index depth : Nat} {entries : List KVEntry}
  {old : Tree}

/-- A program that builds a subtree behind an empty entry of a node. -/
def Creates (create : Nat → Nat → List KVEntry → TxProgram Unit) (depth : Nat) (entries : List KVEntry) : Prop :=
  ∀ {lists held t} q i, Space lists held t → Owns held q → i < branchingFactor → InternalNodePage.entries t.mem q i = 0 →
    Fits (MetaPage.nextFreePage t.mem + subtreeCost depth entries) (create q i entries t) fun _ t' =>
      ∃ sub : Tree, sub.Sorts depth entries ∧ Regrown held q i sub (MetaPage.kvEntryCount t.mem) t t'

/-- The children up to some bucket are there, and the others are empty. -/
structure ChildrenBuilt (held : Multiset Nat) (page depth : Nat) (entries : List KVEntry) (n : Nat) (t t' : Tx) : Prop where
  tree : ∃ children : Fin branchingFactor → Tree, (∀ i : Fin branchingFactor, n ≤ i.val → children i = empty) ∧
    (∀ i : Fin branchingFactor, i.val < n → (children i).Sorts (depth + 1) (bucketEntries depth i entries)) ∧
    (node page children).Rep t'.mem ∧ ∃ lists, Space lists (held + (node page children).pages) t'
  frame : Frame held t t'

theorem createChildren_fits {create : Nat → Nat → List KVEntry → TxProgram Unit}
    (creates : ∀ i, bucketEntries depth i entries ≠ [] → Creates create (depth + 1) (bucketEntries depth i entries)) (low : page < 2 ^ 63)
    (space : Space lists (held + {page}) t) (zero : ZeroPage t.mem page) {n : Nat} (within : n ≤ branchingFactor) :
    Fits (MetaPage.nextFreePage t.mem + subtreeCost (depth + 1) (entries.filter fun e => getHashBucket (fnvHash e.key).toNat depth < n))
      (createChildren (create page) (bucketEntries depth · entries) n t) fun _ t' => ChildrenBuilt held page depth entries n t t' := by
  induction n with
  | zero =>
    have none_ : (node page fun _ => empty).pages = {page} := by simp [pages_node, empty_pages]
    refine .intro rfl ⟨⟨fun _ => empty, fun _ _ => rfl, fun _ impossible => absurd impossible (Nat.not_lt_zero _), ⟨low, fun i => ⟨?_, trivial⟩⟩,
      lists, ?_⟩, fun p _ => .refl t.mem p, .refl t.mem 1, rfl, rfl⟩ (Nat.le_add_right _ _)
    · exact zero.leAt_eq (InternalNodePage.entriesOffset_inside i.isLt)
    · rw [none_]
      exact space
  | succ n ih =>
    have cost := sum_filter_succ (fun e => 1 + e.size / 512 + (splitsPerHash + 1 - (depth + 1))) (fun e => getHashBucket (fnvHash e.key).toNat depth)
      n entries
    change subtreeCost (depth + 1) _ = subtreeCost (depth + 1) _ + subtreeCost (depth + 1) (bucketEntries depth n entries) at cost
    rw [createChildren]
    refine (ih (Nat.le_of_succ_le within)).bind (by omega) ?_
    rintro _ t₁ ⟨⟨children, later, earlier, rep, lists₁, space₁⟩, frame⟩ le
    have here : children ⟨n, within⟩ = empty := later ⟨n, within⟩ le_rfl
    by_cases none_ : bucketEntries depth n entries = []
    · rw [if_neg (fun some_ => some_ none_)]
      refine .intro rfl ⟨⟨children, fun i bound => later i (Nat.le_of_succ_le bound), fun i bound => ?_, rep, lists₁, space₁⟩, frame⟩ (by omega)
      rcases Nat.lt_succ_iff_lt_or_eq.mp bound with before | same
      · exact earlier i before
      · rw [show i = ⟨n, within⟩ from Fin.ext same, here, none_]
        exact ⟨trivial, rfl, trivial⟩
    · rw [if_pos none_]
      have mine : page ∈ (node page children).pages := mem_pages_node.mpr (Or.inl rfl)
      have blank : InternalNodePage.entries t₁.mem page n = 0 := (rep.2 ⟨n, within⟩).1.trans (by rw [here]; rfl)
      refine (creates n none_ page n space₁ (Or.inr (Multiset.mem_add.mpr (Or.inr mine))) within blank).mono (by omega) ?_
      rintro _ t' ⟨sub, sorts, regrown⟩
      obtain ⟨rep', space', later'⟩ := regrown.child here 0 rep (by rw [add_zero]; exact space₁)
      refine ⟨⟨Function.update children ⟨n, within⟩ sub, fun i bound => ?_, fun i bound => ?_, rep', space'⟩, frame.trans later'⟩
      · rw [Function.update_of_ne (fun same => by rw [same] at bound; dsimp only at bound; omega)]
        exact later i (Nat.le_of_succ_le bound)
      · by_cases same : i = ⟨n, within⟩
        · subst same
          rw [Function.update_self]
          exact sorts
        · rw [Function.update_of_ne same]
          exact earlier i (Nat.lt_of_le_of_ne (Nat.le_of_lt_succ bound) fun eq => same (Fin.ext eq))

theorem createNode_fits {create : Nat → Nat → List KVEntry → TxProgram Unit}
    (creates : ∀ i, bucketEntries depth i entries ≠ [] → Creates create (depth + 1) (bucketEntries depth i entries))
    (crowded : Crowded (entries : Multiset KVEntry)) (space : Space lists held t) :
    Fits (MetaPage.nextFreePage t.mem + (1 + subtreeCost (depth + 1) entries)) (createNode create depth entries t) (Built held depth entries t) := by
  refine (allocate_fits space (by omega)).bind (by omega) fun page t₁ allocated le => ?_
  obtain ⟨⟨lists₁, space₁⟩, zero, _, low⟩ := allocated_leaf allocated
  rw [single_page] at space₁
  have all : (entries.filter fun e => getHashBucket (fnvHash e.key).toNat depth < branchingFactor) = entries :=
    List.filter_eq_self.mpr fun e _ => decide_eq_true (by rw [getHashBucket_digit]; exact (digit e.key depth).isLt)
  have children := createChildren_fits creates low space₁ zero le_rfl
  rw [all] at children
  refine children.bind (by omega) ?_
  rintro _ t' ⟨⟨children, _, built, rep, lists', space'⟩, frame⟩ le'
  rw [Program.pure_run, setMsb_node low]
  refine .intro rfl ⟨⟨node page children, rfl, rep, .node (fun i => ⟨(built i i.isLt).placed, fun e member => ?_⟩) ?_ crowded
    fun i => (built i i.isLt).needed, lists', space'⟩, allocated.frame.trans frame⟩ (by omega)
  · rw [(built i i.isLt).entries] at member
    exact Fin.ext (mem_bucketEntries.mp (Multiset.mem_coe.mp member)).2
  · change 0 + ∑ i, (children i).entries = _
    rw [zero_add, Finset.sum_congr rfl fun i _ => (built i i.isLt).entries, sum_buckets]

/-- The tree that is built first, for each of the ways to build it. -/
theorem buildSubtree_fits {create : Nat → Nat → List KVEntry → TxProgram Unit} (space : Space lists held t) (storable : Storable entries) (nonempty : entries ≠ []) (splits : Splits entries)
    (agree : Agree depth entries)
    (creates : depth < splitsPerHash → ∀ i, bucketEntries depth i entries ≠ [] →
      Creates create (depth + 1) (bucketEntries depth i entries)) :
    Fits (MetaPage.nextFreePage t.mem + subtreeCost depth entries) (buildSubtree create depth entries t) (Built held depth entries t) := by
  rw [buildSubtree.eq_def]
  by_cases small : entriesSize entries ≤ capacity
  · rw [if_pos small]
    have cost := subtreeCost_pos depth nonempty
    exact (createLeaf_fits space storable nonempty small).mono (by omega) fun _ _ built => built
  rw [if_neg small]
  rcases entries with _ | ⟨e, _ | ⟨e', rest⟩⟩
  · exact absurd rfl nonempty
  · have size : entriesSize [e] = e.size := by simp [entriesSize]
    rw [size] at small
    have cost := subtreeCost_singleton depth e
    exact (createBigLeaf_fits space storable (Nat.not_le.mp small)).mono (by omega) fun _ _ built => built
  · have shallow : depth < splitsPerHash := by
      by_contra deep
      rcases splits.last agree (Nat.not_lt.mp deep) with single | fits
      · simp only [List.length_cons] at single
        omega
      · exact small fits
    have step := subtreeCost_step (Nat.lt_succ_of_lt shallow) nonempty
    have crowded : Crowded ((e :: e' :: rest : List KVEntry) : Multiset KVEntry) :=
      ⟨Nat.lt_add_left rest.length (Nat.lt_succ_self 1), Nat.not_le.mp small⟩
    exact (createNode_fits (creates shallow) crowded space).mono (by omega) fun _ _ built => built

theorem createSubtreeFrom_fits {fuel : Nat} (hole : Hole lists held parent index old t) (storable : Storable entries)
    (nonempty : entries ≠ []) (splits : Splits entries) (agree : Agree (depth + 1) entries) (positive : 0 < fuel)
    (enough : splitsPerHash ≤ fuel + depth) :
    Fits (MetaPage.nextFreePage t.mem + (subtreeCost (depth + 1) entries + old.regionCount))
      (createSubtreeFrom fuel parent index depth entries t) fun _ t' =>
        ∃ sub : Tree, sub.Sorts (depth + 1) entries ∧ Regrown held parent index sub (MetaPage.kvEntryCount t.mem) t t' := by
  induction fuel generalizing lists held parent index depth entries old t with
  | zero => exact absurd positive (Nat.lt_irrefl 0)
  | succ fuel ih =>
    rw [createSubtreeFrom]
    refine (buildSubtree_fits hole.space storable nonempty splits agree fun shallow i some_ => ?_).bind
      (Nat.add_le_add_left (Nat.le_add_right _ _) _) ?_
    · intro lists' held' t' q j space' owns' inside' blank
      have hole' : Hole lists' held' q j empty t' :=
        ⟨by rw [empty_pages, add_zero]; exact space', rfl, trivial, owns', inside', blank⟩
      refine (ih hole' (storable.sublist List.filter_sublist) some_ (splits.filter _) (agree.bucket i) (by omega) (by omega)).mono
        (Nat.add_le_add_left (Nat.le_of_eq (Nat.add_zero _)) _) fun _ _ post => post
    · rintro result t₁ ⟨⟨sub, rfl, rep, sorts, lists₁, space₁⟩, frame⟩ le
      rw [add_right_comm] at space₁
      have same : ∀ p, Owns held p → SamePage t.mem t₁.mem p := fun p theirs =>
        frame.owned theirs fun q member => Multiset.mem_add.mpr (Or.inl member)
      have hole₁ := hole.frame space₁ frame (hole.owns.imp_right fun member => Multiset.mem_add.mpr (Or.inl member))
      refine (replaceEntry_fits hole₁ hole.owns rep).mono (by omega) fun _ t' regrown => ?_
      rw [frame.kvEntryCount] at regrown
      exact ⟨sub, sorts, regrown.before hole.owns same frame.strayWrites⟩

theorem createSubtree_fits (hole : Hole lists held parent index old t) (storable : Storable entries) (nonempty : entries ≠ [])
    (splits : Splits entries) (agree : Agree (depth + 1) entries) :
    Fits (MetaPage.nextFreePage t.mem + (subtreeCost (depth + 1) entries + old.regionCount)) (createSubtree parent index depth entries t)
      fun _ t' => ∃ sub : Tree, sub.Sorts (depth + 1) entries ∧ Regrown held parent index sub (MetaPage.kvEntryCount t.mem) t t' :=
  createSubtreeFrom_fits hole storable nonempty splits agree (by decide)
    ((by decide : splitsPerHash ≤ maxPages).trans (Nat.le_add_right _ _))

end DiskMap
