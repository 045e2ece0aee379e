import DiskMap.Map.Insert

namespace DiskMap
open ByteMemory DiskMap.Tree BigValue LeafNodeStartPage

variable {t : Tx} {key v : List UInt8} {tree sub : Tree} {lists : Nat → FreeList} {path : List Branch} {beyond : Mem}

/-- `read_part` of a stored key returns the bytes that are asked for, and reads no others, if and only
if the part does not begin behind the value, and behind the region at depth 19 only by coincidence. -/
theorem readPart_exact_iff (wf : WellFormed tree lists t) (stored : tree.lookup key 0 = some v) (beyond : Mem) {offset length : Nat}
    (offset64 : offset < 2 ^ 64) :
    (readPart beyond key offset length t).Ends (ReadsPart tree t key v offset length) ↔
      (offset ≤ v.length ∨ length = 0) ∧
        (capacity < key.length + 9 + v.length → before (key.length + 9) 20 ≤ offset →
          Coincides tree key v offset (min length (v.length - offset))) :=
  ⟨wf.readPart_only stored beyond offset64, fun holds => wf.readPart_part stored beyond (fun _ => offset64) holds.1 holds.2⟩

/-- Two keys in one bucket, and a value in continuation regions. -/
def sharedAndLarge : List KVEntry := [⟨[97], [1, 2, 3]⟩, ⟨[97, 100], [4, 5]⟩, ⟨[98], List.replicate 5000 7⟩]

theorem readPart_exact_iff_chained : ∃ t tree lists, WellFormed tree lists t ∧ tree.entries = (sharedAndLarge : Multiset KVEntry) ∧
    (readPart (fun _ => 0) [97, 100] 1 2 t).Ends (ReadsPart tree t [97, 100] [4, 5] 1 2) ∧
    (readPart (fun _ => 0) [98] 4000 100 t).Ends (ReadsPart tree t [98] (List.replicate 5000 7) 4000 100) ∧
    ¬ (readPart (fun _ => 0) [98] 5001 100 t).Ends (ReadsPart tree t [98] (List.replicate 5000 7) 5001 100) := by
  obtain ⟨t, tree, lists, wf, entries, stored, _⟩ := exists_entries sharedAndLarge (by decide +kernel) (by decide +kernel) (by decide +kernel)
  have shared := stored ⟨[97, 100], [4, 5]⟩ (List.mem_cons_of_mem _ List.mem_cons_self)
  have large := stored ⟨[98], List.replicate 5000 7⟩ (List.mem_cons_of_mem _ (List.mem_cons_of_mem _ List.mem_cons_self))
  have near : 4000 < before (1 + 9) 20 := by decide
  refine ⟨t, tree, lists, wf, entries, ?_, ?_, ?_⟩
  · exact (readPart_exact_iff wf shared (fun _ => 0) (by decide)).mpr ⟨by decide, fun chained => absurd chained (by decide)⟩
  · refine (readPart_exact_iff wf large (fun _ => 0) (by decide)).mpr ⟨?_, fun _ far => absurd far (Nat.not_le.mpr near)⟩
    rw [List.length_replicate]
    decide
  · intro ends
    obtain ⟨either, _⟩ := (readPart_exact_iff wf large (fun _ => 0) (by decide)).mp ends
    rw [List.length_replicate] at either
    exact absurd either (by decide)

/-- A part that begins behind a value of three bytes. -/
theorem readPart_behind : ∃ t tree lists, WellFormed tree lists t ∧ tree.lookup [97] 0 = some [1, 2, 3] ∧
    ¬ (readPart (fun _ => 0) [97] 5 1 t).Ends (ReadsPart tree t [97] [1, 2, 3] 5 1) := by
  obtain ⟨t, tree, lists, wf, _, stored, _⟩ := exists_singleEntry ⟨[97], [1, 2, 3]⟩ (by decide) (by decide) (by decide)
  refine ⟨t, tree, lists, wf, stored, fun ends => ?_⟩
  obtain ⟨either, _⟩ := wf.readPart_only stored (fun _ => 0) (by decide) ends
  exact absurd either (by decide)

def readValueLength (beyond : Mem) (key : List UInt8) : TxProgram (Bool × Nat) := do
  let (parent, parentEntry, _) ← findParent key
  let value ← getPage fun m => InternalNodePage.entries m parent parentEntry
  if getMsb value ≠ 0 then return (false, 0)
  else
    let leaf := clearMsb value
    let entryOffset ← getPage fun m => findEntryInLeaf (LeafNodeStartPage.data m leaf beyond) key
    match entryOffset with
    | none => return (false, 0)
    | some entryOffset =>
      let offset := entryOffset + key.length + 1
      let length ← getPage fun m => leAt (LeafNodeStartPage.data m leaf beyond) offset 8
      return (true, length)

/-- The entry for a key in the last node on the way to it: zero when no leaf is there. -/
def Tree.bucketEntry (key : List UInt8) : Nat → Tree → Nat
  | depth, .node _ children => (children (digit key depth)).bucketEntry key (depth + 1)
  | _, t => t.entry

/-- The entries of the leaf where the digits of a key lead. -/
def Tree.leafOf (key : List UInt8) : Nat → Tree → List KVEntry
  | depth, .node _ children => (children (digit key depth)).leafOf key (depth + 1)
  | _, t => t.leafEntries

/-- None of the readers finds the key. -/
structure ReportsAbsent (beyond : Mem) (key : List UInt8) (t : Tx) : Prop where
  read : read beyond key t = .done .notFound t
  readPart : ∀ offset length, readPart beyond key offset length t = .done .notFound t
  readValueLength : readValueLength beyond key t = .done (false, 0) t

theorem bucketEntry_plug (follows : Follows key path) : (plug path sub).bucketEntry key 0 = sub.bucketEntry key path.length := by
  induction path generalizing sub with
  | nil => rfl
  | cons b rest ih =>
    rw [plug, ih follows.2, Tree.bucketEntry, follows.1, Function.update_self]
    rfl

theorem bucketEntry_leaf (last : sub.isNode = false) {depth : Nat} : sub.bucketEntry key depth = sub.entry := by
  cases sub with
  | node page children => cases last
  | _ => rfl

theorem leafOf_plug (follows : Follows key path) : (plug path sub).leafOf key 0 = sub.leafOf key path.length := by
  induction path generalizing sub with
  | nil => rfl
  | cons b rest ih =>
    rw [plug, ih follows.2, Tree.leafOf, follows.1, Function.update_self]
    rfl

theorem leafOf_leaf (last : sub.isNode = false) {depth : Nat} : sub.leafOf key depth = sub.leafEntries := by
  cases sub with
  | node page children => cases last
  | _ => rfl

namespace Rooted

/-- Where all the readers look: an entry that is not a node's, of which zero stands for the meta page. -/
theorem bucket_run (rooted : Rooted tree lists t) (key : List UInt8) :
    ∃ parent index depth, findParent key t = .done (parent, index, depth) t ∧
      InternalNodePage.entries t.mem parent index = tree.bucketEntry key 0 ∧ tree.bucketEntry key 0 < 2 ^ 63 := by
  obtain ⟨b, rest, sub, rfl, follows, last, found⟩ := rooted.findParent_run key
  obtain ⟨path, rep⟩ := rep_plug.mp rooted.rep
  refine ⟨_, _, _, found, ?_⟩
  rw [bucketEntry_plug follows, path.1]
  cases sub with
  | empty => exact ⟨rfl, Nat.two_pow_pos 63⟩
  | leaf page entries regions => exact ⟨rfl, rep.2.1⟩
  | node page children => cases last

/-- A leaf without the part of a key in front of its first NUL. -/
theorem leaf_apart (rooted : Rooted tree lists t) (apart : ∀ e ∈ tree.leafOf key 0, e.key ≠ cutNul key)
    (leaf : tree.bucketEntry key 0 ≠ 0) (beyond : Mem) :
    findEntryInLeaf (LeafNodeStartPage.data t.mem (tree.bucketEntry key 0) beyond) key = none := by
  obtain ⟨b, rest, sub, rfl, follows, last, _⟩ := rooted.findParent_run key
  obtain ⟨_, rep⟩ := rep_plug.mp rooted.rep
  rw [leafOf_plug follows, leafOf_leaf last] at apart
  rw [bucketEntry_plug follows, bucketEntry_leaf last] at leaf ⊢
  cases sub with
  | empty => exact absurd rfl leaf
  | node page children => cases last
  | leaf page entries regions =>
    obtain ⟨_, _, at_⟩ := rep
    exact findEntryInLeaf_cut (at_.data_holds beyond) at_.headersInside at_.keys.nulFree apart

theorem leafOf_absent (rooted : Rooted tree lists t) (noNul : 0 ∉ key) (absent : tree.lookup key 0 = none) :
    ∀ e ∈ tree.leafOf key 0, e.key ≠ cutNul key := by
  intro e member
  obtain ⟨b, rest, sub, rfl, follows, last, _⟩ := rooted.findParent_run key
  rw [leafOf_plug follows, leafOf_leaf last] at member
  rw [cutNul_eq noNul]
  rintro rfl
  exact absent_leaf follows last absent (List.mem_map_of_mem member)

theorem leaf_absent (rooted : Rooted tree lists t) (noNul : NulFree key) (absent : tree.lookup key 0 = none)
    (leaf : tree.bucketEntry key 0 ≠ 0) (beyond : Mem) :
    findEntryInLeaf (LeafNodeStartPage.data t.mem (tree.bucketEntry key 0) beyond) key = none :=
  rooted.leaf_apart (rooted.leafOf_absent noNul.2 absent) leaf beyond

theorem reportsAbsent (rooted : Rooted tree lists t)
    (none_ : findEntryInLeaf (LeafNodeStartPage.data t.mem (tree.bucketEntry key 0) beyond) key = none) : ReportsAbsent beyond key t := by
  obtain ⟨parent, index, depth, found, entry, low⟩ := rooted.bucket_run key
  have part : ∀ offset length, readPart beyond key offset length t = .done .notFound t := by
    intro offset length
    rw [readPart, Program.done_bind found]
    dsimp only
    rw [getPage_bind, entry, getMsb_leaf low, if_neg (fun h => h rfl), clearMsb_leaf low, getPage_bind, none_]
    rfl
  refine ⟨part _ _, part, ?_⟩
  rw [readValueLength, Program.done_bind found]
  dsimp only
  rw [getPage_bind, entry, getMsb_leaf low, if_neg (fun h => h rfl), clearMsb_leaf low, getPage_bind, none_]
  rfl

theorem entry_of_reportsAbsent (rooted : Rooted tree lists t) (reports : ReportsAbsent beyond key t) :
    findEntryInLeaf (LeafNodeStartPage.data t.mem (tree.bucketEntry key 0) beyond) key = none := by
  obtain ⟨parent, index, depth, found, entry, low⟩ := rooted.bucket_run key
  have run := reports.readValueLength
  rw [readValueLength, Program.done_bind found] at run
  dsimp only at run
  rw [getPage_bind, entry, getMsb_leaf low, if_neg (fun h => h rfl), clearMsb_leaf low, getPage_bind] at run
  cases is : findEntryInLeaf (LeafNodeStartPage.data t.mem (tree.bucketEntry key 0) beyond) key with
  | none => rfl
  | some offset =>
    rw [is] at run
    cases run

end Rooted

/-- The third byte of `next_free_page` is where the entries of a leaf begin. -/
theorem meta_first (m beyond : Mem) : (LeafNodeStartPage.data m 0 beyond 0).toNat = MetaPage.nextFreePage m / 2 ^ 16 % 256 := by
  have first := (m 16).toNat_lt
  have second := (m 17).toNat_lt
  have third := (m 18).toNat_lt
  have value : MetaPage.nextFreePage m =
      (m 16).toNat + 256 * ((m 17).toNat + 256 * ((m 18).toNat + 256 * leNat [m 19, m 20, m 21, m 22, m 23])) := rfl
  change (m 18).toNat = _
  rw [value]
  omega

/-- In a file of less than 65536 pages the meta page is a leaf without entries. -/
theorem findEntryInLeaf_meta {m : Mem} (free : MetaPage.nextFreePage m / 2 ^ 16 % 256 = 0) (key : List UInt8) (beyond : Mem) :
    findEntryInLeaf (LeafNodeStartPage.data m 0 beyond) key = none := by
  have first : LeafNodeStartPage.data m 0 beyond 0 = 0 := UInt8.toNat_inj.mp ((meta_first m beyond).trans free)
  rw [findEntryInLeaf, show capacity = 4077 + 1 from rfl, findEntryFrom, if_neg (by decide), if_pos first]

/-- No reader finds a key that is not stored, unless its bucket is empty and the meta page, read as a leaf, has an entry for it. -/
theorem readers_report_absent_iff (wf : WellFormed tree lists t) (noNul : NulFree key) (absent : tree.lookup key 0 = none) (beyond : Mem) :
    ReportsAbsent beyond key t ↔
      tree.bucketEntry key 0 ≠ 0 ∨ findEntryInLeaf (LeafNodeStartPage.data t.mem 0 beyond) key = none := by
  constructor
  · intro reports
    have none_ := wf.rooted.entry_of_reportsAbsent reports
    refine or_iff_not_imp_left.mpr fun empty => ?_
    rwa [not_not.mp empty] at none_
  · intro either
    refine wf.rooted.reportsAbsent ?_
    by_cases empty : tree.bucketEntry key 0 = 0
    · rw [empty]
      exact either.resolve_left (not_not.mpr empty)
    · exact wf.rooted.leaf_absent noNul absent empty beyond

theorem readers_report_absent_iff_new_file : ∃ t, WellFormed (node rootPage noChildren) newLists t ∧
    (ReportsAbsent (fun _ => 0) [97] t ↔
      (node rootPage noChildren).bucketEntry [97] 0 ≠ 0 ∨ findEntryInLeaf (LeafNodeStartPage.data t.mem 0 fun _ => 0) [97] = none) := by
  obtain ⟨_, t, _, wf, _⟩ := construct_wellFormed (m := fun _ => 0) fun _ _ _ _ => rfl
  exact ⟨t, wf, readers_report_absent_iff wf (by decide) rfl fun _ => 0⟩

/-- A map without entries whose file has got longer than 65536 pages. -/
def emptied : Tx :=
  match (SpaceManager.allocate 16 >>= fun page => SpaceManager.free page 16) Clients.fresh.tx with
  | .done _ t => t
  | _ => { mem := fun _ => 0 }

theorem emptied_wellFormed : ∃ lists, WellFormed (node rootPage noChildren) lists emptied := by
  obtain ⟨_, t, ended, wf, next⟩ := construct_wellFormed (m := fun _ => 0) fun _ _ _ _ => rfl
  have start : Clients.fresh.tx = t := by rw [Clients.fresh, ended]
  have held := wf.space
  rw [blank_pages, Multiset.erase_singleton] at held
  obtain ⟨page, t₁, allocate, allocated⟩ := allocate_allocated held (show 16 < 31 by decide) fun _ => by
    rw [next]
    decide
  obtain ⟨lists₁, space₁, _⟩ := allocated.space
  have grown := allocated.next
  rw [next] at grown
  rcases free_fits space₁ (by decide) with ⟨_, t₂, free, freed, _⟩ | ⟨_, noRoom⟩
  · have is : emptied = t₂ := by rw [emptied, start, Program.done_bind allocate, free]
    obtain ⟨lists₂, space₂, _⟩ := freed.space
    have frame := allocated.frame.trans freed.frame
    refine ⟨lists₂, is ▸ ⟨⟨_, rfl⟩, wf.rep.congr fun p member => ?_, wf.placed, ?_, frame.kvEntryCount.trans wf.kvEntryCount⟩⟩
    · rw [blank_pages] at member
      rw [Multiset.mem_singleton.mp member]
      exact frame.root
    · rw [blank_pages, Multiset.erase_singleton]
      exact space₂
  · have bound : maxOrder + 3 + 2 ^ 16 + 1 ≤ maxPages := by decide
    omega

/-- In its meta page the readers find a key. -/
theorem readers_find_meta : ∃ lists, WellFormed (node rootPage noChildren) lists emptied ∧
    (node rootPage noChildren).lookup [1] 0 = none ∧ ¬ ReportsAbsent (fun _ => 0) [1] emptied := by
  obtain ⟨lists, wf⟩ := emptied_wellFormed
  refine ⟨lists, wf, rfl, fun reports => ?_⟩
  have none_ := wf.rooted.entry_of_reportsAbsent reports
  have found : findEntryInLeaf (LeafNodeStartPage.data emptied.mem 0 fun _ => 0) [1] = some 0 := by decide +kernel
  exact absurd (none_.symm.trans found) nofun

end DiskMap
