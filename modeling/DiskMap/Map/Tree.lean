import DiskMap.Map.Buckets
import DiskMap.Map.LeafChain
import Mathlib.Tactic.Abel

namespace DiskMap
open ByteMemory

def rootPage : Nat := 1

def setMsb (val bit : Nat) : Nat := val % 2 ^ 63 + bit * 2 ^ 63

def getMsb (val : Nat) : Nat := val / 2 ^ 63

def clearMsb (val : Nat) : Nat := val % 2 ^ 63

namespace InternalNodePage

def entriesOffset (index : Nat) : Nat := 8 * index

def entries (m : Mem) (page index : Nat) : Nat := leAt m (page * pageSize + entriesOffset index) 8

variable {m m' : Mem} {page index : Nat}

theorem entriesOffset_inside (inside : index < branchingFactor) : entriesOffset index + 8 ≤ pageSize := by
  unfold branchingFactor at inside
  unfold entriesOffset
  unfold pageSize at inside ⊢
  omega

theorem entries_congr (same : SamePage m m' page) (inside : index < branchingFactor) : entries m' page index = entries m page index :=
  same.leAt_eq (entriesOffset_inside inside)

theorem setEntry (m : Mem) (page index : Nat) {value : Nat} (small : value < 2 ^ 64) :
    let m' := overwrite m (page * pageSize + entriesOffset index) 8 (leBytes 8 value)
    entries m' page index = value ∧ ∀ i, i ≠ index → entries m' page i = entries m page i := by
  refine ⟨?_, fun i different => leAt_overwrite_outside (by unfold entriesOffset; omega)⟩
  rw [entries, leAt_overwrite_self]
  exact Nat.mod_eq_of_lt small

end InternalNodePage

/-- The tree behind an entry of an internal node. -/
inductive Tree
  | empty
  | leaf (page : Nat) (entries : List KVEntry) (regions : List Nat)
  | node (page : Nat) (children : Fin branchingFactor → Tree)

/-- An internal node with a hole in the place of one child. -/
structure Branch where
  page : Nat
  children : Fin branchingFactor → Tree
  index : Fin branchingFactor

def valueOf (key : List UInt8) (entries : List KVEntry) : Option (List UInt8) :=
  (entries.find? fun e => e.key = key).map KVEntry.value

/-- More entries than go to one leaf. -/
def Crowded (entries : Multiset KVEntry) : Prop :=
  1 < entries.card ∧ LeafNodeStartPage.capacity < (entries.map KVEntry.size).sum

namespace Tree

/-- The entry that points to the tree. -/
def entry : Tree → Nat
  | empty => 0
  | leaf page _ _ => page
  | node page _ => page + 2 ^ 63

def Rep (m : Mem) : Tree → Prop
  | empty => True
  | leaf page entries regions => page ≠ 0 ∧ page < 2 ^ 63 ∧ LeafAt m page entries regions
  | node page children => page < 2 ^ 63 ∧
      ∀ i : Fin branchingFactor, InternalNodePage.entries m page i = (children i).entry ∧ (children i).Rep m

section Collect

variable {α : Type} (ofLeaf : Nat → List KVEntry → List Nat → Multiset α) (ofNode : Nat → Multiset α)

/-- What the leaves and nodes of a tree have, together. -/
def collect : Tree → Multiset α
  | empty => 0
  | leaf page entries regions => ofLeaf page entries regions
  | node page children => ofNode page + ∑ i, (children i).collect

def collectPath : List Branch → Multiset α
  | [] => 0
  | b :: rest => ofNode b.page + ∑ i ∈ Finset.univ.erase b.index, (b.children i).collect ofLeaf ofNode + collectPath rest

end Collect

def pages : Tree → Multiset Nat := collect (fun page _ regions => leafPages page regions) fun page => {page}

def entries : Tree → Multiset KVEntry := collect (fun _ entries _ => (entries : Multiset KVEntry)) fun _ => 0

/-- Keys are where the digits of their hashes lead. -/
def Placed : Nat → Tree → Prop
  | _, empty => True
  | _, leaf _ _ _ => True
  | depth, node _ children => ∀ i, (children i).Placed (depth + 1) ∧ ∀ e ∈ (children i).entries, digit e.key depth = i

/-- A node is there only for entries that do not go to one leaf. -/
def Needed : Tree → Prop
  | node _ children => Crowded (∑ i, (children i).entries) ∧ ∀ i, (children i).Needed
  | _ => True

/-- What the entries below one place of a node are split into. -/
structure Sorts (sub : Tree) (depth : Nat) (all : Multiset KVEntry) : Prop where
  placed : sub.Placed depth
  entries : sub.entries = all
  needed : sub.Needed

def lookup (key : List UInt8) : Nat → Tree → Option (List UInt8)
  | _, empty => none
  | _, leaf _ entries _ => valueOf key entries
  | depth, node _ children => (children (digit key depth)).lookup key (depth + 1)

def isNode : Tree → Bool
  | node _ _ => true
  | _ => false

/-- The tree that comes from filling the hole at the end of a path, which begins with the lowest node. -/
def plug : List Branch → Tree → Tree
  | [], t => t
  | b :: rest, t => plug rest (node b.page (Function.update b.children b.index t))

/-- The path is where the digits of the key lead. -/
def Follows (key : List UInt8) : List Branch → Prop
  | [] => True
  | b :: rest => digit key rest.length = b.index ∧ Follows key rest

def pathPages : List Branch → Multiset Nat := collectPath (fun page _ regions => leafPages page regions) fun page => {page}

def pathEntries : List Branch → Multiset KVEntry := collectPath (fun _ entries _ => (entries : Multiset KVEntry)) fun _ => 0

/-- The nodes of the path with all other children, when the hole is filled with the given entry. -/
def PathRep (m : Mem) : Nat → List Branch → Prop
  | _, [] => True
  | hole, b :: rest => InternalNodePage.entries m b.page b.index = hole ∧ b.page < 2 ^ 63 ∧
      (∀ i : Fin branchingFactor, i ≠ b.index → InternalNodePage.entries m b.page i = (b.children i).entry ∧ (b.children i).Rep m) ∧
      PathRep m (b.page + 2 ^ 63) rest

def PathPlaced : List Branch → Prop
  | [] => True
  | b :: rest => (∀ i, i ≠ b.index → (b.children i).Placed (rest.length + 1) ∧
      ∀ e ∈ (b.children i).entries, digit e.key rest.length = i ∧ Follows e.key rest) ∧ PathPlaced rest

variable {m m' : Mem} {path rest : List Branch} {b : Branch} {t t' : Tree} {key : List UInt8}

section Collect

variable {α : Type} {ofLeaf : Nat → List KVEntry → List Nat → Multiset α} {ofNode : Nat → Multiset α}

theorem sum_update (children : Fin branchingFactor → Tree) (index : Fin branchingFactor) (f : Tree → Multiset α) :
    ∑ i, f (Function.update children index t i) = f t + ∑ i ∈ Finset.univ.erase index, f (children i) := by
  rw [← Finset.add_sum_erase _ _ (Finset.mem_univ index), Function.update_self]
  refine congrArg (f t + ·) (Finset.sum_congr rfl fun i other => ?_)
  rw [Function.update_of_ne (Finset.ne_of_mem_erase other)]

theorem collect_plug : (plug path t).collect ofLeaf ofNode = collectPath ofLeaf ofNode path + t.collect ofLeaf ofNode := by
  induction path generalizing t with
  | nil => rw [plug, collectPath, zero_add]
  | cons b rest ih =>
    rw [plug, ih, collect, sum_update, collectPath]
    abel

end Collect

theorem pages_plug : (plug path t).pages = pathPages path + t.pages := collect_plug

theorem entries_plug : (plug path t).entries = pathEntries path + t.entries := collect_plug

theorem pages_node (page : Nat) (children : Fin branchingFactor → Tree) :
    (node page children).pages = {page} + ∑ i, (children i).pages := rfl

theorem mem_pages_node {p page : Nat} {children : Fin branchingFactor → Tree} :
    p ∈ (node page children).pages ↔ p = page ∨ ∃ i, p ∈ (children i).pages := by
  simp [pages_node, Multiset.mem_sum]

theorem mem_entries_node {e : KVEntry} {page : Nat} {children : Fin branchingFactor → Tree} :
    e ∈ (node page children).entries ↔ ∃ i, e ∈ (children i).entries := by
  change e ∈ 0 + ∑ i, (children i).entries ↔ _
  simp [Multiset.mem_sum]

theorem Sorts.node {page depth : Nat} {children : Fin branchingFactor → Tree} {all : Multiset KVEntry} (placed : (node page children).Placed depth)
    (entries : (Tree.node page children).entries = all) (crowded : Crowded all) (needed : ∀ i, (children i).Needed) :
    (Tree.node page children).Sorts depth all := by
  refine ⟨placed, entries, ?_, needed⟩
  rw [show ∑ i, (children i).entries = all from (zero_add _).symm.trans entries]
  exact crowded

theorem entries_child (page : Nat) (children : Fin branchingFactor → Tree) (i : Fin branchingFactor) :
    (node page children).entries = (children i).entries + ∑ j ∈ Finset.univ.erase i, (children j).entries :=
  (zero_add _).trans (Finset.add_sum_erase _ (fun j => (children j).entries) (Finset.mem_univ i)).symm

theorem rep_plug : (plug path t).Rep m ↔ PathRep m t.entry path ∧ t.Rep m := by
  induction path generalizing t with
  | nil => simp [plug, PathRep]
  | cons b rest ih =>
    rw [plug, ih, PathRep, entry, Rep]
    have split : (∀ i : Fin branchingFactor, InternalNodePage.entries m b.page i = (Function.update b.children b.index t i).entry ∧
        (Function.update b.children b.index t i).Rep m) ↔
        (InternalNodePage.entries m b.page b.index = t.entry ∧ t.Rep m) ∧ ∀ i : Fin branchingFactor, i ≠ b.index →
          InternalNodePage.entries m b.page i = (b.children i).entry ∧ (b.children i).Rep m := by
      constructor
      · intro all
        refine ⟨by simpa using all b.index, fun i other => ?_⟩
        have here := all i
        rwa [Function.update_of_ne other] at here
      · rintro ⟨hole, others⟩ i
        by_cases same : i = b.index
        · subst same
          rw [Function.update_self]
          exact hole
        · rw [Function.update_of_ne same]
          exact others i same
    rw [split]
    constructor
    · rintro ⟨path, low, ⟨hole, rep⟩, others⟩
      exact ⟨⟨hole, low, others, path⟩, rep⟩
    · rintro ⟨⟨hole, low, others, path⟩, rep⟩
      exact ⟨path, low, ⟨hole, rep⟩, others⟩

theorem placed_plug : (plug path t).Placed 0 ↔ PathPlaced path ∧ t.Placed path.length ∧ ∀ e ∈ t.entries, Follows e.key path := by
  induction path generalizing t with
  | nil => simp [plug, PathPlaced, Follows]
  | cons b rest ih =>
    rw [plug, ih, PathPlaced, Placed]
    constructor
    · rintro ⟨path, here, follow⟩
      refine ⟨⟨fun i other => ?_, path⟩, ?_, fun e member => ?_⟩
      · obtain ⟨placed, digits⟩ := here i
        rw [Function.update_of_ne other] at placed digits
        refine ⟨placed, fun e member => ⟨digits e member, follow e ?_⟩⟩
        rw [mem_entries_node]
        exact ⟨i, by rwa [Function.update_of_ne other]⟩
      · have placed := (here b.index).1
        rwa [Function.update_self] at placed
      · have digits := (here b.index).2
        rw [Function.update_self] at digits
        refine ⟨digits e member, follow e ?_⟩
        rw [mem_entries_node]
        exact ⟨b.index, by rwa [Function.update_self]⟩
    · rintro ⟨⟨others, path⟩, placed, follow⟩
      refine ⟨path, fun i => ?_, fun e member => ?_⟩
      · by_cases same : i = b.index
        · subst same
          rw [Function.update_self]
          exact ⟨placed, fun e member => (follow e member).1⟩
        · rw [Function.update_of_ne same]
          exact ⟨(others i same).1, fun e member => ((others i same).2 e member).1⟩
      · obtain ⟨i, inside⟩ := mem_entries_node.mp member
        by_cases same : i = b.index
        · subst same
          rw [Function.update_self] at inside
          exact (follow e inside).2
        · rw [Function.update_of_ne same] at inside
          exact ((others i same).2 e inside).2

theorem follows_iff {other : List UInt8} (follows : Follows key path) : Follows other path ↔ ∀ d, d < path.length → digit other d = digit key d := by
  induction path with
  | nil => exact ⟨fun _ d impossible => absurd impossible (Nat.not_lt_zero d), fun _ => trivial⟩
  | cons b rest ih =>
    obtain ⟨turn, follows⟩ := follows
    rw [List.length_cons, Nat.forall_lt_succ_right, ← ih follows, turn]
    exact And.comm

/-- Beside a path there are no entries whose digits lead along it. -/
theorem pathEntries_elsewhere {e : KVEntry} (placed : PathPlaced path) (member : e ∈ pathEntries path) : ¬ Follows e.key path := by
  induction path with
  | nil => exact absurd member (Multiset.notMem_zero e)
  | cons b rest ih =>
    rintro ⟨turn, follows⟩
    change e ∈ 0 + ∑ i ∈ Finset.univ.erase b.index, (b.children i).entries + pathEntries rest at member
    rw [zero_add] at member
    rcases Multiset.mem_add.mp member with beside | above
    · obtain ⟨i, different, inside⟩ := Multiset.mem_sum.mp beside
      have different := Finset.ne_of_mem_erase different
      exact different (((placed.1 i different).2 e inside).1.symm.trans turn)
    · exact ih placed.2 above follows

theorem lookup_plug (follows : Follows key path) : (plug path t).lookup key 0 = t.lookup key path.length := by
  induction path generalizing t with
  | nil => rfl
  | cons b rest ih =>
    rw [plug, ih follows.2, lookup, follows.1, Function.update_self]
    rfl

/-- A tree consists of its pages. -/
theorem Rep.congr (rep : t.Rep m) (same : ∀ p ∈ t.pages, SamePage m m' p) : t.Rep m' := by
  induction t with
  | empty => trivial
  | leaf page entries regions => exact ⟨rep.1, rep.2.1, rep.2.2.congr same⟩
  | node page children ih =>
    refine ⟨rep.1, fun i => ⟨?_, ih i (rep.2 i).2 fun p member => same p (mem_pages_node.mpr (Or.inr ⟨i, member⟩))⟩⟩
    exact (InternalNodePage.entries_congr (same page (mem_pages_node.mpr (Or.inl rfl))) i.isLt).trans (rep.2 i).1

theorem mem_pathPages_cons {p : Nat} :
    p ∈ pathPages (b :: rest) ↔ p = b.page ∨ (∃ i, i ≠ b.index ∧ p ∈ (b.children i).pages) ∨ p ∈ pathPages rest := by
  change p ∈ {b.page} + ∑ i ∈ Finset.univ.erase b.index, (b.children i).pages + pathPages rest ↔ _
  rw [Multiset.mem_add, Multiset.mem_add, Multiset.mem_sum, or_assoc]
  simp

/-- The lowest node of a path is in no other place. -/
theorem pathPages_ne (nodup : (pathPages (b :: rest)).Nodup) {p : Nat}
    (elsewhere : (∃ i, i ≠ b.index ∧ p ∈ (b.children i).pages) ∨ p ∈ pathPages rest) : p ≠ b.page := by
  change ({b.page} + ∑ i ∈ Finset.univ.erase b.index, (b.children i).pages + pathPages rest).Nodup at nodup
  rw [add_assoc] at nodup
  rintro rfl
  refine Multiset.disjoint_left.mp (Multiset.nodup_add.mp nodup).2.2 (Multiset.mem_singleton_self b.page) (Multiset.mem_add.mpr ?_)
  refine elsewhere.imp_left fun ⟨i, other, member⟩ => Multiset.mem_sum.mpr ⟨i, ?_, member⟩
  exact Finset.mem_erase.mpr ⟨other, Finset.mem_univ i⟩

theorem PathRep.congr {hole : Nat} (rep : PathRep m hole path) (same : ∀ p ∈ pathPages path, SamePage m m' p) : PathRep m' hole path := by
  induction path generalizing hole with
  | nil => trivial
  | cons b rest ih =>
    obtain ⟨entry, low, others, path⟩ := rep
    have here := same b.page (mem_pathPages_cons.mpr (Or.inl rfl))
    refine ⟨(InternalNodePage.entries_congr here b.index.isLt).trans entry, low, fun i other => ⟨?_, ?_⟩,
      ih path fun p member => same p (mem_pathPages_cons.mpr (Or.inr (Or.inr member)))⟩
    · exact (InternalNodePage.entries_congr here i.isLt).trans (others i other).1
    · exact (others i other).2.congr fun p member => same p (mem_pathPages_cons.mpr (Or.inr (Or.inl ⟨i, other, member⟩)))

theorem entry_lt (rep : t.Rep m) : t.entry < 2 ^ 64 := by
  cases t with
  | empty => exact Nat.two_pow_pos 64
  | leaf page entries regions =>
    have low := rep.2.1
    rw [entry]
    omega
  | node page children =>
    have low := rep.1
    rw [entry]
    omega

theorem eq_empty_of_entry (rep : t.Rep m) (zero : t.entry = 0) : t = empty := by
  cases t with
  | empty => rfl
  | leaf page entries regions => exact absurd zero rep.1
  | node page children =>
    rw [entry] at zero
    omega

end Tree

end DiskMap
