import DiskMap.Map.MapRuns
import Mathlib.Logic.Relation

namespace DiskMap
open ByteMemory LeafNodeStartPage BigValue DiskMap.Tree

/-- An entry for which the regions are enough, and a part of it that begins where the sizes of the regions are exact. -/
structure PartSmall (tree : Tree) (key : List UInt8) (offset : Nat) (buffer : List UInt8) : Prop where
  size : KVEntry.size ⟨key, partValue (tree.lookup key 0) offset buffer⟩ ≤ chainCapacity 30
  reach : ∀ v, tree.lookup key 0 = some v → (tree.leafOf key 0).length = 1 →
    (if offset = appendOffset then v.length else offset) < before (key.length + 9) 20

namespace Call

/-- A key without zero bytes, and a small entry. -/
def Small (tree : Tree) : Call → Prop
  | write key buffer => 0 ∉ key ∧ KVEntry.size ⟨key, buffer⟩ ≤ chainCapacity 30
  | writePart key offset buffer => 0 ∉ key ∧ PartSmall tree key offset buffer
  | append key buffer => 0 ∉ key ∧ PartSmall tree key appendOffset buffer
  | remove key => 0 ∉ key

/-- The call neither replaces a value in a leaf that it has freed, or leaves a part of one in its leaf, nor raises a node whose entries
are not found from its new place. -/
def KeepsPages (tree : Tree) (t : Tx) : Call → Prop
  | write key buffer => ∀ v, tree.lookup key 0 = some v → Replaceable tree t key v buffer
  | writePart _ _ _ | append _ _ => True
  | remove key => ∀ sub depth, Raises tree key sub depth → ∀ e ∈ sub.entries, sub.lookup e.key depth = some e.value

end Call

/-- A call that returns. -/
def KeepingStep (beyond : Mem) (t t' : Tx) : Prop :=
  ∃ call r, (∀ tree lists, WellFormed tree lists t → Call.Small tree call ∧ call.KeepsPages tree t) ∧ call.run beyond t = .done r t'

variable {t t₀ t' : Tx} {tree : Tree} {lists : Nat → FreeList} {key v buffer : List UInt8} {beyond m : Mem} {offset : Nat}

namespace WellFormed

/-- Where a call of `write` returns, it has set the value. -/
theorem write_done (wf : WellFormed tree lists t) (noNul : 0 ∉ key) (size : KVEntry.size ⟨key, v⟩ ≤ chainCapacity 30)
    (replaceable : ∀ w, tree.lookup key 0 = some w → Replaceable tree t key w v) (ended : write beyond key (some v) t = .done () t') :
    Resorts tree t key v t' := by
  obtain ⟨some_, short⟩ := wf.write_allowed (.of_done ended)
  refine (wf.write_fits ⟨some_, noNul⟩ short size (fun small => ?_) replaceable beyond).of_done ended
  cases stored : tree.lookup key 0 with
  | none =>
    rw [others_absent wf.rep wf.placed stored]
    exact wf.write_separable stored ⟨some_, noNul⟩ (.of_done ended)
  | some w =>
    obtain ⟨b, rest, page, front, back, regions, s⟩ := wf.storedIn stored
    obtain rfl : regions = [] := by
      by_contra chained
      exact Nat.not_lt.mpr (small w stored) (s.chained_iff.mp chained)
    rw [write, Program.done_bind s.found] at ended
    exact s.writeAtNode_splits wf size beyond (.of_done ended)

theorem writePart_done (wf : WellFormed tree lists t) (noNul : 0 ∉ key) (small : PartSmall tree key offset buffer)
    (ended : writePart beyond key offset (some buffer) t = .done () t') : Resorts tree t key (partValue (tree.lookup key 0) offset buffer) t' := by
  have size := small.size
  cases stored : tree.lookup key 0 with
  | none =>
    rw [stored] at size
    have sum : offset ≠ appendOffset → offset + buffer.length < 2 ^ 64 := by
      intro middle
      by_contra wraps
      obtain ⟨parent, index, depth, _, run⟩ := wf.writePart_notFound noNul stored beyond
      have wide : chainCapacity 30 < 2 ^ 64 := by decide
      rw [KVEntry.size, partValue_none_length middle] at size
      dsimp only at size
      rw [run, keyNotFound, if_neg middle] at ended
      simp only at ended
      rw [if_neg (by omega), if_pos (Nat.not_lt.mp wraps)] at ended
      cases ended
    rw [wf.writePart_absent noNul stored sum] at ended
    exact wf.write_done noNul size (replaceable_absent stored) ended
  | some v =>
    obtain ⟨b, rest, page, front, back, regions, s⟩ := wf.storedIn stored
    have leaf := s.leafOf
    rw [← stored]
    have found : tree.lookup key 0 ≠ none := by simp [stored]
    refine (wf.writePart_fits s.noNul s.short size (fun either => ?_) ⟨fun none_ => absurd none_ found, small.reach, ?_⟩ beyond).of_done ended
    · have several := either.resolve_right found
      rw [leaf] at several
      rw [stored] at size ⊢
      exact s.writePart_splits wf several size (.of_done ended)
    · intro w found several
      obtain rfl := Option.some.inj (stored.symm.trans found)
      rw [leaf] at several
      exact s.writePart_nonempty several (.of_done ended)

end WellFormed

/-- Each call that returns leaves a well-formed map, and has written to no page on a free list. -/
theorem KeepingStep.keeps (step : KeepingStep beyond t t') (wf : WellFormed tree lists t) :
    ∃ tree' lists', WellFormed tree' lists' t' ∧ t'.strayWrites = t.strayWrites := by
  obtain ⟨call, r, holds, ended⟩ := step
  obtain ⟨small, keeps⟩ := holds tree lists wf
  have sets : ∀ {key v}, Resorts tree t key v t' → ∃ tree' lists', WellFormed tree' lists' t' ∧ t'.strayWrites = t.strayWrites := fun resorts => by
    obtain ⟨tree', lists', wf', _, stray⟩ := resorts.sets wf
    exact ⟨tree', lists', wf', stray⟩
  cases call with
  | write key buffer =>
    obtain ⟨_, called⟩ := Outcome.done_of_return ended
    exact sets (wf.write_done small.1 small.2 keeps called)
  | writePart key offset buffer =>
    obtain ⟨_, called⟩ := Outcome.done_of_return ended
    exact sets (wf.writePart_done small.1 small.2 called)
  | append key buffer =>
    obtain ⟨_, called⟩ := Outcome.done_of_return ended
    exact sets (wf.writePart_done small.1 small.2 called)
  | remove key =>
    obtain ⟨_, called⟩ := Outcome.done_of_return ended
    have removable : Removable beyond tree t key := by
      refine ⟨fun special leaf => ?_, keeps⟩
      have absent : tree.lookup key 0 = none := by
        by_contra some_
        obtain ⟨v, stored⟩ := Option.ne_none_iff_exists'.mp some_
        obtain ⟨_, _, _, _, _, _, s⟩ := wf.storedIn stored
        exact special s.noNul
      exact wf.rooted.leaf_apart (wf.rooted.leafOf_absent small absent) leaf beyond
    obtain ⟨_, tree', lists', wf', _, stray⟩ := (wf.remove_fits removable).of_done called
    exact ⟨tree', lists', wf', stray⟩

/-- In every state that is reached from a new file each page has one owner, and no call has written to a page on a free list. -/
theorem reached_owned (zero : ∀ page, 1 ≤ page → ZeroPage m page) (constructed : construct { mem := m } = .done () t₀)
    (reached : Relation.ReflTransGen (KeepingStep beyond) t₀ t) : t.strayWrites = [] ∧ ∃ tree lists, WellFormed tree lists t ∧
      pageOwners tree lists t = Multiset.range (MetaPage.nextFreePage t.mem) := by
  have invariant : t.strayWrites = [] ∧ ∃ tree lists, WellFormed tree lists t := by
    induction reached with
    | refl =>
      obtain ⟨_, t₁, ended, wf, _⟩ := construct_wellFormed zero
      obtain ⟨_, t₂, ended', _, _, quiet, _⟩ := construct_space fun page low => zero page (by omega)
      obtain ⟨_, rfl⟩ := Outcome.done.inj (constructed.symm.trans ended)
      obtain ⟨_, rfl⟩ := Outcome.done.inj (constructed.symm.trans ended')
      exact ⟨quiet, _, _, wf⟩
    | tail _ step ih =>
      obtain ⟨quiet, tree, lists, wf⟩ := ih
      obtain ⟨tree', lists', wf', stray⟩ := step.keeps wf
      exact ⟨stray.trans quiet, tree', lists', wf'⟩
  obtain ⟨quiet, tree, lists, wf⟩ := invariant
  exact ⟨quiet, tree, lists, wf, wf.owned⟩

/-- A map in which nothing is counted has no entries. -/
theorem WellFormed.lookup_none (wf : WellFormed tree lists t) (none_ : MetaPage.kvEntryCount t.mem = 0) (key : List UInt8) :
    tree.lookup key 0 = none := by
  have entries : tree.entries = 0 := Multiset.card_eq_zero.mp (wf.kvEntryCount.symm.trans none_)
  refine Option.eq_none_iff_forall_ne_some.mpr fun v stored => ?_
  rw [lookup_iff wf.rep wf.placed, entries] at stored
  exact Multiset.notMem_zero _ stored

/-- The only entry of a map has none beside it that could be raised. -/
theorem WellFormed.raises_none {sub : Tree} {depth : Nat} (wf : WellFormed tree lists t) (one : MetaPage.kvEntryCount t.mem = 1)
    (raises : Raises tree key sub depth) : sub.entries = 0 := by
  refine Multiset.eq_zero_of_forall_notMem fun e member => ?_
  obtain ⟨other, stored, also⟩ := raises.other wf member
  obtain ⟨single, is⟩ := Multiset.card_eq_one.mp (wf.kvEntryCount.symm.trans one)
  have each : ∀ key', tree.contents key' ≠ none → key' = single.key := fun key' some_ => by
    obtain ⟨v, found⟩ := Option.ne_none_iff_exists'.mp some_
    have inside : (⟨key', v⟩ : KVEntry) ∈ tree.entries := (lookup_iff wf.rep wf.placed).mp found
    rw [is, Multiset.mem_singleton] at inside
    exact congrArg KVEntry.key inside
  exact other ((each _ also).trans (each _ stored).symm)

/-- A value with continuation regions is written and removed. -/
theorem reached_owned_freed : ∃ t₀ t, construct { mem := fun _ => 0 } = .done () t₀ ∧
    Relation.ReflTransGen (KeepingStep fun _ => 0) t₀ t ∧ t.strayWrites = [] ∧ ∃ tree lists, WellFormed tree lists t ∧
      pageOwners tree lists t = Multiset.range (MetaPage.nextFreePage t.mem) := by
  obtain ⟨t₀, _, _, constructed, wf₀, written, _⟩ := oneLarge_written
  have size : KVEntry.size ⟨[97], List.replicate 5000 7⟩ = 5010 := by rw [KVEntry.size, List.length_replicate]; rfl
  have first : KeepingStep (fun _ => 0) t₀ oneLarge := by
    refine ⟨.write [97] (List.replicate 5000 7), none, fun tree lists wf => ⟨⟨by decide, by rw [size]; decide⟩, fun v stored => ?_⟩, ?_⟩
    · have none_ : MetaPage.kvEntryCount t₀.mem = 0 := by rw [wf₀.kvEntryCount, blank_entries, Multiset.card_zero]
      rw [wf.lookup_none none_] at stored
      cases stored
    · rw [Call.run, Program.done_bind written]
      rfl
  have removed : ((Call.remove [97]).run (fun _ => 0) oneLarge).Ends fun r _ => r = some true := .of_result id (by decide +kernel)
  obtain ⟨_, t, ended, rfl⟩ := removed
  have one : MetaPage.kvEntryCount oneLarge.mem = 1 := by decide +kernel
  have second : KeepingStep (fun _ => 0) oneLarge t := by
    refine ⟨.remove [97], some true, fun tree lists wf => ⟨(by decide : (0 : UInt8) ∉ [97]), fun sub depth raises e member => ?_⟩, ended⟩
    rw [wf.raises_none one raises] at member
    exact absurd member (Multiset.notMem_zero e)
  have reached := (Relation.ReflTransGen.refl.tail first).tail second
  exact ⟨t₀, t, constructed, reached, reached_owned (fun _ _ _ _ => rfl) constructed reached⟩

/-- A small value takes the place of a large one in the leaf that has been freed. -/
theorem write_strays : ((construct >>= fun _ => write (fun _ => 0) [97] (some (List.replicate 5000 7)) >>= fun _ =>
    write (fun _ => 0) [97] (some [1, 2, 3])) { mem := fun _ => 0 }).Ends fun _ t => t.strayWrites ≠ [] := by
  have strays : ((construct >>= fun _ => write (fun _ => 0) [97] (some (List.replicate 5000 7)) >>= fun _ =>
      write (fun _ => 0) [97] (some [1, 2, 3]) >>= fun _ => Program.read Tx.strayWrites) { mem := fun _ => 0 }).Ends
        fun pages _ => pages.isEmpty = false := .of_result List.isEmpty (by decide +kernel)
  obtain ⟨_, t₀, constructed, ends₀⟩ := strays.of_bind
  obtain ⟨_, t₁, written, ends₁⟩ := ends₀.of_bind
  obtain ⟨_, t₂, written', pages, _, read, some_⟩ := ends₁.of_bind
  obtain ⟨rfl, _⟩ := Outcome.done.inj read
  rw [Program.done_bind constructed, Program.done_bind written]
  exact .intro written' fun none_ => by rw [none_] at some_; cases some_

end DiskMap
