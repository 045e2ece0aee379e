import DiskMap.Library.Worklist
import DiskMap.Map.Lookups
import Mathlib.Algebra.BigOperators.Fin

namespace DiskMap
open ByteMemory DiskMap.Tree Worklist

/-- The entries of an internal node that are not empty. -/
def childEntries (m : Mem) (page : Nat) : List Nat :=
  (List.ofFn fun i : Fin branchingFactor => InternalNodePage.entries m page i).filter (· ≠ 0)

/-- The loop of `sample`, with the results of its calls of `rand`. Of a leaf it copies as many entries as are still
missing. -/
def sampleFrom (beyond : Nat → Mem) (rand : Nat → Nat) (count : Nat) : Nat → List Nat → List KVEntry → TxProgram (List KVEntry)
  | 0, _, _ => .stuck
  | fuel + 1, pages, result =>
    if 0 < pages.length ∧ result.length < count then do
      let idx := rand 0 % pages.length
      let page := pages.getD idx 0
      let pages := swapRemove pages idx
      if getMsb page ≠ 0 then do
        let children ← getPage fun m => childEntries m (clearMsb page)
        sampleFrom beyond (fun i => rand (i + 1)) count fuel (pages ++ children) result
      else do
        let leaf := clearMsb page
        let next ← getPage fun m => LeafNodeStartPage.next m leaf
        if next = 0 then do
          let entries ← getPage fun m => getEntriesInLeaf (LeafNodeStartPage.data m leaf (beyond leaf))
          sampleFrom beyond (fun i => rand (i + 1)) count fuel pages (result ++ entries.take (count - result.length))
        else sampleFrom beyond (fun i => rand (i + 1)) count fuel pages result
    else return result

def sample (beyond : Nat → Mem) (rand : Nat → Nat) (count fuel : Nat) : TxProgram (List KVEntry) :=
  sampleFrom beyond rand count fuel [setMsb rootPage 1] []

namespace Tree

/-- The nodes and leaves of a tree. -/
def vertices : Tree → Multiset Nat := collect (fun page _ _ => {page}) fun page => {page}

/-- What is in leaves without continuation regions. -/
def smallEntries : Tree → Multiset KVEntry := collect (fun _ entries regions => if regions = [] then entries else 0) fun _ => 0

/-- The children of a node, or the entries of a small leaf. -/
def visit : Tree → List Tree × List KVEntry
  | empty => ([], [])
  | leaf _ entries regions => ([], if regions = [] then entries else [])
  | node _ children => ((List.ofFn children).filter fun c => c.entry ≠ 0, [])

variable {m : Mem} {t : Tree}

theorem sum_filter {α : Type} {f : Tree → Multiset α} (nothing : f empty = 0) {l : List Tree} (reps : ∀ c ∈ l, c.Rep m) :
    ((l.filter fun c => c.entry ≠ 0).map f).sum = (l.map f).sum := by
  induction l with
  | nil => rfl
  | cons c rest ih =>
    have later := ih fun c' member => reps c' (List.mem_cons_of_mem _ member)
    by_cases zero : c.entry = 0
    · rw [List.filter_cons_of_neg (by simpa using zero), later, List.map_cons, List.sum_cons,
        eq_empty_of_entry (reps c List.mem_cons_self) zero, nothing, zero_add]
    · rw [List.filter_cons_of_pos (by simpa using zero), List.map_cons, List.sum_cons, List.map_cons, List.sum_cons, later]

theorem sum_children {α : Type} {f : Tree → Multiset α} (nothing : f empty = 0) {page : Nat} {children : Fin branchingFactor → Tree}
    (rep : (node page children).Rep m) : ((node page children).visit.1.map f).sum = ∑ i, f (children i) := by
  have reps : ∀ c ∈ List.ofFn children, c.Rep m := by
    intro c member
    obtain ⟨i, rfl⟩ := (List.mem_ofFn' children c).mp member
    exact (rep.2 i).2
  rw [visit, sum_filter nothing reps, List.map_ofFn, List.sum_ofFn]
  rfl

/-- A tree in the worklist. -/
structure Pending (m : Mem) (t : Tree) : Prop where
  rep : t.Rep m
  entry : t.entry ≠ 0
  pages : ∀ p ∈ t.pages, p ≠ 0

theorem visit_step (pending : Pending m t) :
    (∀ c ∈ t.visit.1, Pending m c) ∧ t.smallEntries = (t.visit.2 : Multiset KVEntry) + (t.visit.1.map smallEntries).sum ∧
      (t.visit.1.map fun c => c.vertices.card).sum < t.vertices.card := by
  obtain ⟨rep, some_, pages⟩ := pending
  cases t with
  | empty => exact absurd rfl some_
  | leaf page entries regions =>
    refine ⟨fun c member => absurd member List.not_mem_nil, ?_, by simp [visit, vertices, collect]⟩
    simp only [visit, smallEntries, collect, List.map_nil, List.sum_nil, add_zero]
    split <;> rfl
  | node page children =>
    refine ⟨fun c member => ?_, ?_, ?_⟩
    · obtain ⟨listed, nonzero⟩ := List.mem_filter.mp member
      obtain ⟨i, rfl⟩ := (List.mem_ofFn' children c).mp listed
      exact ⟨(rep.2 i).2, by simpa using nonzero, fun p member => pages p (mem_pages_node.mpr (Or.inr ⟨i, member⟩))⟩
    · rw [sum_children rfl rep]
      rfl
    · have inner := congrArg Multiset.card (sum_children (f := vertices) rfl rep)
      have cards : ((node page children).visit.1.map fun c => c.vertices.card).sum =
          (((node page children).visit.1.map vertices).sum).card := by
        have sum := map_list_sum Multiset.cardHom ((node page children).visit.1.map vertices)
        rw [List.map_map] at sum
        exact sum.symm
      rw [cards, inner]
      change _ < ({page} + ∑ i, (children i).vertices).card
      rw [Multiset.card_add, Multiset.card_singleton]
      omega

theorem childEntries_eq {page : Nat} {children : Fin branchingFactor → Tree} (rep : (node page children).Rep m) :
    childEntries m page = (node page children).visit.1.map entry := by
  have entries : (List.ofFn fun i : Fin branchingFactor => InternalNodePage.entries m page i) = (List.ofFn children).map entry := by
    rw [List.map_ofFn]
    exact congrArg List.ofFn (funext fun i => (rep.2 i).1)
  rw [childEntries, entries, visit, List.filter_map]
  rfl

end Tree

variable {t : Tx} {tree : Tree} {lists : Nat → FreeList}

/-- `sample` is a search that visits the nodes and leaves of the tree. -/
theorem sampleFrom_search (beyond : Nat → Mem) (count : Nat) {fuel : Nat} {rand : Nat → Nat} {pending : List Tree} {result : List KVEntry}
    (all : ∀ sub ∈ pending, Pending t.mem sub) :
    sampleFrom beyond rand count fuel (pending.map Tree.entry) result t =
      match search Tree.visit rand count fuel pending result with
      | some found => .done found t
      | none => .stuck := by
  induction fuel generalizing rand pending result with
  | zero => rfl
  | succ fuel ih =>
    rw [sampleFrom, search, List.length_map]
    by_cases goes : 0 < pending.length ∧ result.length < count
    · rw [if_pos goes, dif_pos goes]
      have within := Nat.mod_lt (rand 0) goes.1
      have perm := swapRemove_perm within
      have taken : (pending.map Tree.entry).getD (rand 0 % pending.length) 0 = (pending[rand 0 % pending.length]).entry := by
        rw [List.getD_eq_getElem _ _ (by rwa [List.length_map]), List.getElem_map]
      simp only [taken, List.get_eq_getElem, swapRemove_map]
      generalize pending[rand 0 % pending.length] = sub at perm
      have here := all sub (perm.subset List.mem_cons_self)
      have left : ∀ c ∈ swapRemove pending (rand 0 % pending.length), Pending t.mem c :=
        fun c member => all c (perm.subset (List.mem_cons_of_mem _ member))
      have children := (visit_step here).1
      obtain ⟨rep, some_, pages⟩ := here
      cases sub with
      | empty => exact absurd rfl some_
      | leaf page entries regions =>
        obtain ⟨_, low, leaf⟩ := rep
        have next : LeafNodeStartPage.next t.mem page = (regions[0]?).getD 0 := leaf.links 0 page rfl
        rw [if_neg (by rw [Tree.entry, getMsb_leaf low]; exact fun h => h rfl), Tree.entry, clearMsb_leaf low, getPage_bind, next]
        simp only [visit, List.append_nil]
        cases regions with
        | nil =>
          rw [if_pos (show (([] : List Nat)[0]?).getD 0 = 0 from rfl), getPage_bind, leaf.copied, ih left, if_pos rfl]
        | cons q more =>
          have linked : q ≠ 0 := pages q (regionPage_mem (k := 0) (i := 1) rfl (Nat.two_pow_pos 1))
          rw [if_neg (by simpa using linked), ih left, if_neg (List.cons_ne_nil q more), List.take_nil, List.append_nil]
      | node page children' =>
        have low := rep.1
        rw [if_pos (by rw [Tree.entry, getMsb_node low]; exact Nat.one_ne_zero), getPage_bind, Tree.entry, clearMsb_node low,
          childEntries_eq rep, ← List.map_append, ih fun c member => (List.mem_append.mp member).elim (left c) (children c)]
        simp only [visit, List.take_nil, List.append_nil]
    · rw [if_neg goes, dif_neg goes]
      rfl

theorem smallEntries_le (tree : Tree) : tree.smallEntries ≤ tree.entries := by
  induction tree with
  | empty => exact le_rfl
  | leaf page entries regions =>
    change (if regions = [] then (entries : Multiset KVEntry) else 0) ≤ entries
    split
    · exact le_rfl
    · exact Multiset.zero_le _
  | node page children ih => exact add_le_add_right (Finset.sum_le_sum fun i _ => ih i) 0

/-- `sample` returns as many entries of small leaves as there are, but no more than it has been asked for, and no key twice. -/
theorem sample_entries (wf : WellFormed tree lists t) (beyond : Nat → Mem) (rand : Nat → Nat) (count : Nat) :
    ∃ enough, ∀ fuel, enough ≤ fuel → (sample beyond rand count fuel t).Ends fun r t' => t' = t ∧
      r.length = min count tree.smallEntries.card ∧ (r.map KVEntry.key).Nodup ∧ ∀ e ∈ r, tree.lookup e.key 0 = some e.value := by
  have low : rootPage < 2 ^ 63 := by decide
  obtain ⟨children, root⟩ := wf.root
  have entry : setMsb rootPage 1 = tree.entry := by
    rw [root, setMsb_node low]
    rfl
  have pending : Pending t.mem tree :=
    { rep := wf.rep
      entry := by rw [← entry]; decide
      pages := fun p member => (wf.rooted.bounds member).1 }
  refine ⟨tree.vertices.card + 1, fun fuel enough => ?_⟩
  obtain ⟨r, rest, ended, parts, bound, either⟩ := @search_finds _ _ Tree.visit _ _ count fuel rand [tree] [] _
    (fun _ => visit_step) (List.forall_mem_singleton.mpr pending) (by rw [List.map_singleton, List.sum_singleton]; omega) (Nat.zero_le _)
  rw [List.nil_append] at ended bound either
  rw [List.map_singleton, List.sum_singleton] at parts
  have size := congrArg Multiset.card parts
  rw [Multiset.card_add, Multiset.coe_card] at size
  have run := @sampleFrom_search t beyond count fuel rand [tree] [] (List.forall_mem_singleton.mpr pending)
  rw [ended, List.map_singleton, ← entry] at run
  have stored : (r : Multiset KVEntry) ≤ tree.entries := (Multiset.le_add_right _ _).trans (parts ▸ smallEntries_le tree)
  refine .intro run ⟨rfl, ?_, ?_, fun e member => ?_⟩
  · rcases either with none_ | full
    · rw [none_, Multiset.card_zero] at size
      omega
    · omega
  · have nodup := Multiset.nodup_of_le (Multiset.map_le_map stored) (entries_keys_nodup wf.rep wf.placed)
    rwa [Multiset.map_coe, Multiset.coe_nodup] at nodup
  · exact (lookup_iff wf.rep wf.placed).mpr (Multiset.mem_of_le stored (Multiset.mem_coe.mpr member))

/-- Two small values in one leaf, two large ones in leaves below a node, and one in continuation regions. -/
def manySizes : List KVEntry :=
  [⟨[98], [1]⟩, ⟨[97, 103], [2]⟩, ⟨[97], List.replicate 2100 7⟩, ⟨[97, 100], List.replicate 2100 7⟩, ⟨[99], List.replicate 5000 7⟩]

theorem sample_entries_manySizes : ∃ t tree lists, WellFormed tree lists t ∧ tree.entries = (manySizes : Multiset KVEntry) ∧
    ∃ enough, ∀ fuel, enough ≤ fuel → (sample (fun _ _ => 0) (fun i => i) 3 fuel t).Ends fun r t' => t' = t ∧
      r.length = min 3 tree.smallEntries.card ∧ (r.map KVEntry.key).Nodup ∧ ∀ e ∈ r, tree.lookup e.key 0 = some e.value := by
  obtain ⟨t, tree, lists, wf, entries, _⟩ := exists_entries manySizes (by decide +kernel) (by decide +kernel) (by decide +kernel)
  exact ⟨t, tree, lists, wf, entries, sample_entries wf (fun _ _ => 0) (fun i => i) 3⟩

end DiskMap
