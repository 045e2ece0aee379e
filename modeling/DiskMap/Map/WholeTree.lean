import DiskMap.Map.Regrow
import Mathlib.Algebra.BigOperators.Ring.Finset
import Mathlib.Algebra.Order.BigOperators.Group.Finset

namespace DiskMap
open ByteMemory LeafNodeStartPage DiskMap.Tree

variable {t t' : Tx} {lists : Nat → FreeList} {old sub : Tree}

theorem card_entries {m : Mem} {tree : Tree} (rep : tree.Rep m) : tree.entries.card ≤ capacity * tree.pages.card := by
  induction tree with
  | empty => exact Nat.zero_le _
  | leaf page entries regions =>
    obtain ⟨_, _, at_⟩ := rep
    have one : 1 ≤ (leaf page entries regions).pages.card := Multiset.card_pos_iff_exists_mem.mpr ⟨page, start_mem page regions⟩
    exact at_.headersInside.length_le_capacity.trans (Nat.le_mul_of_pos_right _ one)
  | node page children ih =>
    have parts : (node page children).entries.card = ∑ i, (children i).entries.card := by
      change (0 + ∑ i, (children i).entries).card = _
      rw [zero_add, Multiset.card_sum]
    rw [parts, pages_node, Multiset.card_add, Multiset.card_sum, Nat.mul_add, Finset.mul_sum]
    exact (Finset.sum_le_sum fun i _ => ih i (rep.2 i).2).trans (Nat.le_add_left _ _)

variable {tree : Tree} {b : Branch} {rest : List Branch}

namespace Rooted

/-- The highest node of a path is the root of the tree. -/
theorem plug_root (b : Branch) (rest : List Branch) : ∃ page, ∀ sub, ∃ children, plug (b :: rest) sub = node page children := by
  induction rest generalizing b with
  | nil => exact ⟨b.page, fun sub => ⟨_, rfl⟩⟩
  | cons c rest ih =>
    obtain ⟨page, is⟩ := ih c
    exact ⟨page, fun sub => is _⟩

theorem root_plug (rooted : Rooted (plug (b :: rest) old) lists t) (sub : Tree) : ∃ children, plug (b :: rest) sub = node rootPage children := by
  obtain ⟨page, is⟩ := plug_root b rest
  obtain ⟨children, root⟩ := rooted.root
  obtain ⟨children', here⟩ := is old
  rw [root] at here
  injection here with same
  rw [same]
  exact is sub

theorem root_mem (rooted : Rooted (plug (b :: rest) old) lists t) : rootPage ∈ pathPages (b :: rest) := by
  obtain ⟨children, root⟩ := rooted.root_plug empty
  have pages : (plug (b :: rest) empty).pages = pathPages (b :: rest) := by rw [pages_plug, empty_pages, add_zero]
  rw [← pages, root]
  exact mem_pages_node.mpr (Or.inl rfl)

theorem erase_pages (rooted : Rooted (plug (b :: rest) old) lists t) (sub : Tree) :
    (plug (b :: rest) sub).pages.erase rootPage = (pathPages (b :: rest)).erase rootPage + sub.pages := by
  rw [pages_plug, Multiset.erase_add_left_pos _ rooted.root_mem]

theorem owns_path {p : Nat} (member : p ∈ pathPages (b :: rest)) : Owns ((pathPages (b :: rest)).erase rootPage) p := by
  by_cases root : p = rootPage
  · exact Or.inl root
  · exact Or.inr ((Multiset.mem_erase_of_ne root).mpr member)

/-- Another tree in the hole. -/
theorem regrow {kv : Nat} (rooted : Rooted (plug (b :: rest) old) lists t)
    (regrown : Regrown ((pathPages (b :: rest)).erase rootPage) b.page b.index sub kv t t') :
    ∃ lists', Rooted (plug (b :: rest) sub) lists' t' := by
  obtain ⟨lists', space'⟩ := regrown.space
  have nodup := rooted.nodup
  rw [pages_plug] at nodup
  exact ⟨lists',
    { root := rooted.root_plug sub
      rep := regrown.rep_plug rooted.rep (Multiset.nodup_add.mp nodup).1 fun p member => owns_path member
      space := by rw [rooted.erase_pages sub]; exact space' }⟩

end Rooted

namespace WellFormed

theorem kvEntryCount_lt (wf : WellFormed tree lists t) : MetaPage.kvEntryCount t.mem + 1 < 2 ^ 64 := by
  have entries := card_entries wf.rep
  have pages := Nat.mul_le_mul_left capacity wf.rooted.card_pages
  have bound : capacity * maxPages + 1 < 2 ^ 64 := by decide
  rw [wf.kvEntryCount]
  omega

theorem hole (wf : WellFormed (plug (b :: rest) sub) lists t) (last : sub.isNode = false) :
    Hole lists ((pathPages (b :: rest)).erase rootPage) b.page b.index sub t := by
  obtain ⟨path, rep⟩ := rep_plug.mp wf.rep
  exact
    { space := wf.rooted.erase_pages sub ▸ wf.space
      leaf := last
      rep := rep
      owns := Rooted.owns_path (mem_pathPages_cons.mpr (Or.inl rfl))
      inside := b.index.isLt
      entry := path.1 }

theorem regrow {kv : Nat} (wf : WellFormed (plug (b :: rest) old) lists t)
    (regrown : Regrown ((pathPages (b :: rest)).erase rootPage) b.page b.index sub kv t t') (placed : sub.Placed (b :: rest).length)
    (follow : ∀ e ∈ sub.entries, Follows e.key (b :: rest)) (count : kv = (plug (b :: rest) sub).entries.card) :
    ∃ lists', WellFormed (plug (b :: rest) sub) lists' t' := by
  obtain ⟨lists', rooted'⟩ := wf.rooted.regrow regrown
  exact ⟨lists',
    { root := rooted'.root
      rep := rooted'.rep
      placed := placed_plug.mpr ⟨(placed_plug.mp wf.placed).1, placed, follow⟩
      space := rooted'.space
      kvEntryCount := regrown.kvEntryCount.trans count }⟩

end WellFormed

/-- What a tree finds is what is in it. -/
theorem lookup_iff {m : Mem} {tree : Tree} {key v : List UInt8} {depth : Nat} (rep : tree.Rep m) (placed : tree.Placed depth) :
    tree.lookup key depth = some v ↔ (⟨key, v⟩ : KVEntry) ∈ tree.entries := by
  induction tree generalizing depth with
  | empty => exact ⟨nofun, fun member => absurd member (Multiset.notMem_zero _)⟩
  | leaf page entries regions =>
    have keys := rep.2.2.keys.nodup
    change valueOf key entries = some v ↔ (⟨key, v⟩ : KVEntry) ∈ (entries : Multiset KVEntry)
    rw [Multiset.mem_coe]
    clear rep placed
    induction entries with
    | nil => simp [valueOf]
    | cons e rest ih =>
      rw [List.map_cons, List.nodup_cons] at keys
      by_cases same : e.key = key
      · have absent : (⟨key, v⟩ : KVEntry) ∉ rest := fun member => keys.1 (List.mem_map.mpr ⟨_, member, same.symm⟩)
        have here : valueOf key (e :: rest) = some e.value := by simp [valueOf, same]
        rw [here, List.mem_cons, or_iff_left absent]
        constructor
        · intro is
          rw [← same, ← Option.some.inj is]
        · intro is
          rw [← is]
      · have there : valueOf key (e :: rest) = valueOf key rest := by simp [valueOf, same]
        have different : (⟨key, v⟩ : KVEntry) ≠ e := fun is => same (by rw [← is])
        rw [there, ih keys.2, List.mem_cons, or_iff_right different]
  | node page children ih =>
    change (children (digit key depth)).lookup key (depth + 1) = some v ↔ _
    rw [ih _ (rep.2 _).2 (placed _).1, mem_entries_node]
    constructor
    · exact fun member => ⟨_, member⟩
    · rintro ⟨i, member⟩
      have here := (placed i).2 _ member
      dsimp only at here
      rw [here]
      exact member

/-- Different entries have different keys. -/
theorem entries_keys_nodup {m : Mem} {tree : Tree} {depth : Nat} (rep : tree.Rep m) (placed : tree.Placed depth) :
    (tree.entries.map KVEntry.key).Nodup := by
  induction tree generalizing depth with
  | empty => exact Multiset.nodup_zero
  | leaf page entries regions => exact rep.2.2.keys.nodup
  | node page children ih =>
    have parts : (node page children).entries = Finset.univ.val.bind fun i => (children i).entries := zero_add _
    rw [parts, Multiset.map_bind, Multiset.nodup_bind]
    refine ⟨fun i _ => ih i (rep.2 i).2 (placed i).1, Finset.univ.nodup.pairwise fun i _ j _ different => ?_⟩
    refine Multiset.disjoint_left.mpr fun inI inJ => ?_
    obtain ⟨e, member, rfl⟩ := Multiset.mem_map.mp inI
    obtain ⟨e', member', same⟩ := Multiset.mem_map.mp inJ
    have here := (placed i).2 e member
    rw [← same, (placed j).2 e' member'] at here
    exact different here.symm

theorem lookup_insert {m m' : Mem} {tree tree' : Tree} {key v : List UInt8} (rep : tree.Rep m) (placed : tree.Placed 0) (rep' : tree'.Rep m')
    (placed' : tree'.Placed 0) (absent : tree.lookup key 0 = none) (entries : tree'.entries = ⟨key, v⟩ ::ₘ tree.entries) (key' : List UInt8) :
    tree'.lookup key' 0 = if key' = key then some v else tree.lookup key' 0 := by
  refine Option.ext fun v' => ?_
  rw [lookup_iff rep' placed', entries, Multiset.mem_cons]
  by_cases same : key' = key
  · subst same
    have none_ : (⟨key', v'⟩ : KVEntry) ∉ tree.entries := fun member => by
      rw [← lookup_iff rep placed, absent] at member
      cases member
    rw [or_iff_left none_, if_pos rfl, KVEntry.mk.injEq, Option.some.injEq]
    exact ⟨fun is => is.2.symm, fun is => ⟨rfl, is.symm⟩⟩
  · have different : (⟨key', v'⟩ : KVEntry) ≠ ⟨key, v⟩ := fun is => same (by injection is)
    rw [or_iff_right different, if_neg same]
    exact (lookup_iff rep placed).symm

end DiskMap
