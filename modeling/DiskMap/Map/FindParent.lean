import DiskMap.Map.Tree

namespace DiskMap
open ByteMemory DiskMap.Tree

/-- The loop of `find_parent`. It passes no more pages than a file can have, unless it goes round in
circles. -/
def findParentFrom (key : List UInt8) : Nat → Nat → Nat → TxProgram (Nat × Nat × Nat)
  | 0, _, _ => .stuck
  | fuel + 1, page, depth => do
    let parentEntry := getBucket key (depth + 1)
    let value ← getPage fun m => InternalNodePage.entries m page parentEntry
    if value = 0 ∨ getMsb value = 0 then return (page, parentEntry, depth)
    else findParentFrom key fuel (clearMsb value) (depth + 1)

/-- The page, the entry and the depth of the last internal node on the way to a key. -/
def findParent (key : List UInt8) : TxProgram (Nat × Nat × Nat) := findParentFrom key maxPages rootPage 0

/-- A map and its file: every key is in the leaf that its digits lead to, and every page belongs to
the tree or to a free list. -/
structure WellFormed (tree : Tree) (lists : Nat → FreeList) (t : Tx) : Prop where
  root : ∃ children, tree = .node rootPage children
  rep : tree.Rep t.mem
  placed : tree.Placed 0
  space : Space lists (tree.pages.erase rootPage) t
  kvEntryCount : MetaPage.kvEntryCount t.mem = tree.entries.card

/-- What remains of this when keys may be in other leaves than those that their digits lead to. -/
structure Rooted (tree : Tree) (lists : Nat → FreeList) (t : Tx) : Prop where
  root : ∃ children, tree = .node rootPage children
  rep : tree.Rep t.mem
  space : Space lists (tree.pages.erase rootPage) t

variable {m : Mem} {t : Tx} {key : List UInt8} {tree : Tree} {lists : Nat → FreeList}

theorem WellFormed.rooted (wf : WellFormed tree lists t) : Rooted tree lists t := ⟨wf.root, wf.rep, wf.space⟩

theorem getMsb_node {page : Nat} (low : page < 2 ^ 63) : getMsb (page + 2 ^ 63) = 1 := by
  unfold getMsb
  omega

theorem getMsb_leaf {page : Nat} (low : page < 2 ^ 63) : getMsb page = 0 := by
  unfold getMsb
  omega

theorem clearMsb_node {page : Nat} (low : page < 2 ^ 63) : clearMsb (page + 2 ^ 63) = page := by
  unfold clearMsb
  omega

theorem clearMsb_leaf {page : Nat} (low : page < 2 ^ 63) : clearMsb page = page := Nat.mod_eq_of_lt low

/-- The entry of a leaf is positive as a signed number, and so is that of an empty tree. -/
theorem entry_msb (rep : tree.Rep m) : getMsb tree.entry = if tree.isNode then 1 else 0 := by
  cases tree with
  | empty => rfl
  | leaf page entries regions => exact getMsb_leaf rep.2.1
  | node page children => exact getMsb_node rep.1

/-- From a node of the tree the loop goes down to the last node on the way to the key. -/
theorem findParentFrom_run (rep : tree.Rep t.mem) {top : Nat} {below : Fin branchingFactor → Tree} (outer : List Branch)
    (is : tree = .node top below) (follows : Follows key outer) :
    ∃ b rest sub, plug outer tree = plug (b :: rest) sub ∧ Follows key (b :: rest) ∧ sub.isNode = false ∧
      outer.length < (b :: rest).length ∧ ∀ fuel, (b :: rest).length ≤ fuel + outer.length →
        findParentFrom key fuel top outer.length t = .done (b.page, b.index.val, rest.length) t := by
  induction tree generalizing top below outer with
  | empty => cases is
  | leaf => cases is
  | node page children ih =>
    cases is
    obtain ⟨low, each⟩ := rep
    obtain ⟨entry, rep⟩ := each (digit key outer.length)
    have deeper : plug outer (.node page children) =
        plug (⟨page, children, digit key outer.length⟩ :: outer) (children (digit key outer.length)) := by
      rw [plug, Function.update_eq_self]
    have msb := entry_msb rep
    cases shape : (children (digit key outer.length)).isNode with
    | true =>
      obtain ⟨page', children', is⟩ : ∃ page' children', children (digit key outer.length) = .node page' children' := by
        cases found : children (digit key outer.length) with
        | node page' children' => exact ⟨page', children', rfl⟩
        | _ =>
          rw [found] at shape
          cases shape
      obtain ⟨b, rest, sub, same, on, last, longer, run⟩ := ih _ rep (⟨page, children, digit key outer.length⟩ :: outer) is ⟨rfl, follows⟩
      simp only [List.length_cons] at longer run ⊢
      refine ⟨b, rest, sub, deeper.trans same, on, last, by omega, fun fuel enough => ?_⟩
      obtain ⟨fuel, rfl⟩ : ∃ k, fuel = k + 1 := ⟨fuel - 1, by omega⟩
      rw [shape, if_pos rfl] at msb
      rw [is] at rep entry msb
      rw [findParentFrom, getPage_bind, getBucket_digit, entry, if_neg, Tree.entry, clearMsb_node rep.1]
      · exact run fuel (by omega)
      · rw [msb, Tree.entry]
        omega
    | false =>
      refine ⟨⟨page, children, digit key outer.length⟩, outer, _, deeper, ⟨rfl, follows⟩, shape, Nat.lt_succ_self _, fun fuel enough => ?_⟩
      rw [List.length_cons] at enough
      obtain ⟨fuel, rfl⟩ : ∃ k, fuel = k + 1 := ⟨fuel - 1, by omega⟩
      rw [shape, if_neg Bool.false_ne_true] at msb
      rw [findParentFrom, getPage_bind, getBucket_digit, entry, if_pos (Or.inr msb)]
      rfl

theorem length_le_pathPages (path : List Branch) : path.length ≤ (pathPages path).card := by
  induction path with
  | nil => exact Nat.zero_le _
  | cons b rest ih =>
    change _ ≤ ({b.page} + ∑ i ∈ Finset.univ.erase b.index, (b.children i).pages + pathPages rest).card
    rw [Multiset.card_add, Multiset.card_add, Multiset.card_singleton, List.length_cons]
    omega

namespace Rooted

/-- The pages of the tree are the root page and those that the space manager has given out. -/
theorem pages_eq (rooted : Rooted tree lists t) : tree.pages = rootPage ::ₘ tree.pages.erase rootPage := by
  obtain ⟨children, rfl⟩ := rooted.root
  exact (Multiset.cons_erase (mem_pages_node.mpr (Or.inl rfl))).symm

theorem own (rooted : Rooted tree lists t) {page : Nat} (member : page ∈ tree.pages) :
    page = rootPage ∨ page ∈ tree.pages.erase rootPage := by
  rw [rooted.pages_eq] at member
  exact Multiset.mem_cons.mp member

theorem bounds (rooted : Rooted tree lists t) {page : Nat} (member : page ∈ tree.pages) :
    page ≠ 0 ∧ page < MetaPage.nextFreePage t.mem := by
  have low := rooted.space.fpl_bounds (Nat.zero_le _) (rooted.space.base 0 (Nat.zero_le _))
  rcases rooted.own member with rfl | mine
  · unfold rootPage
    omega
  · have bounds := rooted.space.held_bounds mine
    omega

theorem nodup (rooted : Rooted tree lists t) : tree.pages.Nodup := by
  rw [rooted.pages_eq, Multiset.nodup_cons]
  refine ⟨fun again => ?_, (Multiset.nodup_add.mp rooted.space.nodup).2.1⟩
  have bounds := rooted.space.held_bounds again
  unfold rootPage at bounds
  omega

theorem card_pages (rooted : Rooted tree lists t) : tree.pages.card ≤ maxPages := by
  have subset : tree.pages ≤ Multiset.Ico 0 maxPages := by
    refine (Multiset.le_iff_subset rooted.nodup).mpr fun page member => ?_
    have bounds := rooted.bounds member
    exact Multiset.mem_Ico.mpr ⟨Nat.zero_le _, bounds.2.trans_le rooted.space.bound⟩
  have card := Multiset.card_le_card subset
  change _ ≤ (Finset.Ico 0 maxPages).card at card
  rwa [Nat.card_Ico, Nat.sub_zero] at card

/-- The way to a key, and what is at its end. -/
theorem findParent_run (rooted : Rooted tree lists t) (key : List UInt8) :
    ∃ b rest sub, tree = plug (b :: rest) sub ∧ Follows key (b :: rest) ∧ sub.isNode = false ∧
      findParent key t = .done (b.page, b.index.val, rest.length) t := by
  obtain ⟨children, rfl⟩ := rooted.root
  obtain ⟨b, rest, sub, same, on, last, _, run⟩ := findParentFrom_run rooted.rep [] rfl (trivial : Follows key [])
  refine ⟨b, rest, sub, same, on, last, run maxPages ?_⟩
  have card := rooted.card_pages
  change (plug [] (.node rootPage children)).pages.card ≤ _ at card
  rw [same, pages_plug, Multiset.card_add] at card
  have length := length_le_pathPages (b :: rest)
  omega

end Rooted

end DiskMap
