import DiskMap.Map.CallRuns

namespace DiskMap
open ByteMemory LeafNodeStartPage BigValue DiskMap.Tree

/-- What makes a call possible whatever the tree looks like, apart from its key: values in leaves with other entries do not
get shorter by `write`, parts begin where regions are found, and only a key that is alone is removed. -/
def Call.Grows (c : Contents) : Call → Prop
  | write key buffer => ∀ v, c key = some v → KVEntry.size ⟨key, v⟩ ≤ capacity ∧ v.length ≤ buffer.length
  | writePart key offset buffer => (c key = none → offset ≠ appendOffset → offset + buffer.length < 2 ^ 64) ∧
      ∀ v, c key = some v → (if offset = appendOffset then v.length else offset) < before (key.length + 9) 20 ∧
        partValue (some v) offset buffer ≠ []
  | append key buffer => ∀ v, c key = some v → v.length < before (key.length + 9) 20 ∧ v ++ buffer ≠ []
  | remove key => c key ≠ none → ∀ other, other ≠ key → c other = none

/-- What makes a call possible in every map with the contents. -/
structure Call.Safe (c : Contents) (call : Call) : Prop where
  noNul : NulFree call.key
  short : call.key.length ≤ maxKeyLength
  size : ∀ v, call.value (c call.key) = some v → KVEntry.size ⟨call.key, v⟩ ≤ chainCapacity 30
  apart : ∀ other, other ≠ call.key → c other ≠ none → fnvHash other ≠ fnvHash call.key
  grows : call.Grows c

def SafeRun : Contents → List Call → Prop
  | _, [] => True
  | c, call :: more => call.Safe c ∧ SafeRun (c.apply call) more

variable {t t' : Tx} {lists : Nat → FreeList} {tree tree' sub : Tree} {key v new buffer : List UInt8} {beyond : Mem} {call : Call}
  {calls : List Call} {c : Contents} {offset depth : Nat}

theorem contents_ne_none (wf : WellFormed tree lists t) {e : KVEntry} (member : e ∈ tree.entries) : tree.contents e.key ≠ none := by
  have found : tree.contents e.key = some e.value := lookup_key wf.rep wf.placed member
  rw [found]
  exact Option.some_ne_none _

namespace Call.Safe

/-- Keys with different hashes are told apart. -/
theorem settable (safe : call.Safe tree.contents) (wf : WellFormed tree lists t) (is : call.value (tree.contents call.key) = some v) :
    Settable tree call.key v where
  noNul := safe.noNul
  short := safe.short
  size := safe.size v is
  separable := Or.inl fun e member => by
    obtain ⟨inside, other⟩ := Multiset.mem_filter.mp member
    exact safe.apart e.key other (contents_ne_none wf inside)

end Call.Safe

/-- A value that does not get shorter leaves nothing behind. -/
theorem replaceable_longer (wf : WellFormed tree lists t) (stored : tree.lookup key 0 = some v) (small : KVEntry.size ⟨key, v⟩ ≤ capacity)
    (longer : v.length ≤ new.length) : Replaceable tree t key v new := by
  obtain ⟨b, rest, page, front, back, regions, s⟩ := wf.storedIn stored
  rw [Replaceable, if_neg (Nat.not_lt.mpr small), s.tree, leafOf_plug s.follows]
  change LeavesZeros (front ++ ⟨key, v⟩ :: back) (setValue key new (front ++ ⟨key, v⟩ :: back))
  rw [setValue_eq s.leaf.keys]
  exact leavesZeros_longer longer

theorem writable_of (sum : tree.lookup key 0 = none → offset ≠ appendOffset → offset + buffer.length < 2 ^ 64)
    (grows : ∀ v, tree.lookup key 0 = some v → (if offset = appendOffset then v.length else offset) < before (key.length + 9) 20 ∧
      partValue (some v) offset buffer ≠ []) : Writable tree key offset buffer :=
  ⟨sum, fun v stored _ => (grows v stored).1, fun v stored _ => (grows v stored).2⟩

/-- What is raised has only entries of other keys. -/
theorem Raises.other (raises : Raises tree key sub depth) (wf : WellFormed tree lists t) {e : KVEntry} (member : e ∈ sub.entries) :
    e.key ≠ key ∧ tree.contents key ≠ none ∧ tree.contents e.key ≠ none := by
  have inside := Multiset.mem_of_le raises.entries_le member
  obtain ⟨b, c, rest, page, first, regions, rfl, rfl, follows, only, rfl⟩ := raises
  have entries : (plug (b :: c :: rest) (leaf page [first] regions)).entries = pathEntries (b :: c :: rest) + {first} := entries_plug
  have nodup := entries_keys_nodup wf.rep wf.placed
  have here : first ∈ (plug (b :: c :: rest) (leaf page [first] regions)).entries := by
    rw [entries]
    exact Multiset.mem_add.mpr (Or.inr (Multiset.mem_singleton_self _))
  refine ⟨fun same => ?_, contents_ne_none wf here, contents_ne_none wf inside⟩
  rw [entries, only.pathEntries, Multiset.map_add, Multiset.nodup_add] at nodup
  refine Multiset.disjoint_left.mp nodup.2.2 (Multiset.mem_map_of_mem _ (Multiset.mem_add.mpr (Or.inl member))) ?_
  rw [same, Multiset.map_singleton]
  exact Multiset.mem_singleton_self _

theorem Contents.apply_self (c : Contents) (call : Call) : c.apply call call.key = call.value (c call.key) := Function.update_self _ _ _

theorem Contents.apply_other {other : List UInt8} (different : other ≠ call.key) : c.apply call other = c other := Function.update_of_ne different _ _

theorem Call.Safe.admissible (safe : call.Safe tree.contents) (wf : WellFormed tree lists t) (beyond : Mem) : call.Admissible beyond tree t := by
  have grows := safe.grows
  cases call with
  | write key buffer =>
    refine ⟨safe.settable wf rfl, fun v stored => ?_⟩
    obtain ⟨small, longer⟩ := grows v stored
    exact replaceable_longer wf stored small longer
  | writePart key offset buffer => exact ⟨safe.settable wf rfl, writable_of grows.1 grows.2⟩
  | append key buffer =>
    refine ⟨safe.settable wf rfl, writable_of (fun _ other => absurd rfl other) fun v stored => ?_⟩
    rw [if_pos rfl, partValue_append]
    exact grows v stored
  | remove key =>
    refine ⟨fun nul => absurd safe.noNul nul, fun sub depth raises e member => ?_⟩
    obtain ⟨other, some_, also⟩ := raises.other wf member
    exact absurd (grows some_ e.key other) also

/-- After each safe call the map has the contents that the next one is safe for. -/
theorem SafeRun.admissibleRun (safe : SafeRun tree.contents calls) (wf : WellFormed tree lists t) (beyond : Mem) :
    AdmissibleRun beyond tree t calls := by
  induction calls generalizing tree lists t with
  | nil => trivial
  | cons call more ih =>
    obtain ⟨first, rest⟩ := safe
    refine ⟨first.admissible wf beyond, fun r t' tree' lists' _ wf' contents => ih ?_ wf'⟩
    rw [contents]
    exact rest

/-- The first map has no values. -/
def Contents.none : Contents := fun _ => Option.none

/-- A value is appended to nothing, and its key removed. -/
def shortLived : List Call := [.append [97] [1, 2], .remove [97]]

theorem shortLived_safe : SafeRun Contents.none shortLived := by
  have others : ∀ other, other ≠ [97] → Contents.none.apply (.append [97] [1, 2]) other = none := fun other different =>
    Function.update_of_ne different _ _
  have first : (Call.append [97] [1, 2]).Safe Contents.none := by
    refine ⟨by decide, by decide, fun v is => ?_, fun _ _ some_ => absurd rfl some_, fun v is => ?_⟩
    · cases is
      decide
    · cases is
  have second : (Call.remove [97]).Safe (Contents.none.apply (.append [97] [1, 2])) := by
    refine ⟨by decide, by decide, fun v is => ?_, fun other different some_ => absurd (others other different) some_, fun _ => others⟩
    cases is
  exact ⟨first, second, trivial⟩

theorem shortLived_room : maxOrder + 3 + Contents.none.cost shortLived ≤ maxPages := by decide

/-- In every run every page keeps exactly one owner, and no page is written to while a free list has it. -/
theorem calls_keep_pages (wf : WellFormed tree lists t) (admissible : AdmissibleRun beyond tree t calls)
    (room : MetaPage.nextFreePage t.mem + tree.contents.cost calls ≤ maxPages) :
    (runAll beyond calls t).Ends fun _ t' => t'.strayWrites = t.strayWrites ∧ ∃ tree' lists', WellFormed tree' lists' t' ∧
      pageOwners tree' lists' t' = Multiset.range (MetaPage.nextFreePage t'.mem) := by
  refine ((wf.calls_fits admissible).resolve_right fun stuck => Nat.not_lt.mpr room stuck.2).mono ?_
  rintro rs t' ⟨⟨_, tree', lists', wf', _, stray⟩, _⟩
  exact ⟨stray, tree', lists', wf', wf'.owned⟩

theorem calls_keep_pages_shortLived : ∃ t tree lists, WellFormed tree lists t ∧ tree.contents = Contents.none ∧
    (runAll (fun _ => 0) shortLived t).Ends fun _ t' => t'.strayWrites = t.strayWrites ∧ ∃ tree' lists', WellFormed tree' lists' t' ∧
      pageOwners tree' lists' t' = Multiset.range (MetaPage.nextFreePage t'.mem) := by
  obtain ⟨_, t, _, wf, next⟩ := construct_wellFormed (m := fun _ => 0) fun _ _ _ _ => rfl
  have safe : SafeRun (node rootPage noChildren).contents shortLived := shortLived_safe
  refine ⟨t, _, _, wf, rfl, calls_keep_pages wf (safe.admissibleRun wf _) ?_⟩
  rw [next]
  exact shortLived_room

section Appends

/-- What a key gets from a sequence of keys and buffers, in its order. -/
def appended (key : List UInt8) (appends : List (List UInt8 × List UInt8)) : List UInt8 :=
  (appends.filter fun a => a.1 = key).flatMap Prod.snd

def appendCalls (appends : List (List UInt8 × List UInt8)) : List Call := appends.map fun a => .append a.1 a.2

variable {appends : List (List UInt8 × List UInt8)}

theorem appended_cons_same (key buffer : List UInt8) (appends : List (List UInt8 × List UInt8)) :
    appended key ((key, buffer) :: appends) = buffer ++ appended key appends := by simp [appended]

theorem appended_cons_other {a : List UInt8 × List UInt8} (other : a.1 ≠ key) : appended key (a :: appends) = appended key appends := by
  simp [appended, other]

theorem appended_absent (absent : key ∉ appends.map Prod.fst) : appended key appends = [] := by
  rw [appended, List.filter_eq_nil_iff.mpr fun a member => ?_, List.flatMap_nil]
  simpa using fun is => absent (List.mem_map.mpr ⟨a, member, is⟩)

/-- The contents after a sequence of appends. -/
theorem after_appends (c : Contents) (appends : List (List UInt8 × List UInt8)) (key : List UInt8) :
    c.after (appendCalls appends) key =
      if key ∈ appends.map Prod.fst then some ((c key).getD [] ++ appended key appends) else c key := by
  induction appends generalizing c with
  | nil => rfl
  | cons a rest ih =>
    obtain ⟨first, buffer⟩ := a
    have next : c.after (appendCalls ((first, buffer) :: rest)) = (c.apply (.append first buffer)).after (appendCalls rest) := rfl
    rw [next, ih, List.map_cons]
    by_cases same : key = first
    · subst same
      have here : c.apply (.append key buffer) key = some ((c key).getD [] ++ buffer) := Contents.apply_self c (.append key buffer)
      rw [here, if_pos List.mem_cons_self, appended_cons_same, Option.getD_some, List.append_assoc]
      split
      · rfl
      · rename_i absent
        rw [appended_absent absent, List.append_nil]
    · have elsewhere : c.apply (.append first buffer) key = c key := Contents.apply_other same
      rw [elsewhere, appended_cons_other (Ne.symm same)]
      exact if_congr (List.mem_cons.trans (or_iff_right same)).symm rfl rfl

/-- What a sequence of appends is about: keys without zero bytes whose hashes tell them apart, and final values of a size for which
nineteen continuation regions are enough. -/
structure Appending (c : Contents) (appends : List (List UInt8 × List UInt8)) : Prop where
  noNul : ∀ a ∈ appends, 0 ∉ a.1
  apart : ∀ a ∈ appends, ∀ other, c other ≠ none ∨ other ∈ appends.map Prod.fst → fnvHash other = fnvHash a.1 → other = a.1
  sizes : ∀ a ∈ appends, ((c a.1).getD [] ++ appended a.1 appends).length < before (a.1.length + 9) 20

theorem size_le_of_before (short : key.length ≤ maxKeyLength) (small : v.length < before (key.length + 9) 20) :
    KVEntry.size ⟨key, v⟩ ≤ chainCapacity 30 := by
  have room : key.length + 9 ≤ capacity := by
    have wide : maxKeyLength + 9 ≤ capacity := by decide
    omega
  have reach : key.length + 9 + before (key.length + 9) 20 = chainCapacity 19 := before_chainCapacity room 19
  have most := chainCapacity_mono (show 19 ≤ 30 by decide)
  rw [KVEntry.size]
  dsimp only
  omega

namespace Appending

theorem value_lt (appending : Appending c ((key, buffer) :: appends)) : ((c key).getD [] ++ buffer).length < before (key.length + 9) 20 := by
  have small := appending.sizes _ List.mem_cons_self
  rw [appended_cons_same, List.length_append, List.length_append] at small
  rw [List.length_append]
  exact (Nat.add_le_add_left (Nat.le_add_right _ _) _).trans_lt small

/-- After the first append the others are about the contents that it has left. -/
theorem tail (appending : Appending c ((key, buffer) :: appends)) : Appending (c.apply (.append key buffer)) appends := by
  refine ⟨fun a member => appending.noNul a (List.mem_cons_of_mem _ member), fun a member other either => ?_, fun a member => ?_⟩
  · refine appending.apart a (List.mem_cons_of_mem _ member) other ?_
    rcases either with stored | later
    · by_cases same : other = key
      · exact Or.inr (same ▸ List.mem_cons_self)
      · have elsewhere : c.apply (.append key buffer) other = c other := Contents.apply_other same
        rw [elsewhere] at stored
        exact Or.inl stored
    · exact Or.inr (List.mem_cons_of_mem _ later)
  · have bound := appending.sizes a (List.mem_cons_of_mem _ member)
    by_cases same : a.1 = key
    · rw [same, appended_cons_same] at bound
      have here : c.apply (.append key buffer) key = some ((c key).getD [] ++ buffer) := Contents.apply_self c (.append key buffer)
      rw [same, here, Option.getD_some, List.append_assoc]
      exact bound
    · rw [appended_cons_other (Ne.symm same)] at bound
      have elsewhere : c.apply (.append key buffer) a.1 = c a.1 := Contents.apply_other same
      rw [elsewhere]
      exact bound

end Appending

def turns : List (List UInt8 × List UInt8) := [([97], [1]), ([98], [2, 3]), ([97], [4])]

end Appends

end DiskMap
