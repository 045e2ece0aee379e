import DiskMap.Pool.BufferPool

namespace DiskMap
open ByteMemory

namespace LRUReplacer

variable {l l' : LRUReplacer} {val v : Nat}

theorem nodup_insert (nodup : l.Nodup) : (l.insert val).Nodup := by
  unfold LRUReplacer.insert
  split
  · exact List.nodup_cons.mpr ⟨fun member => (nodup.mem_erase_iff.mp member).1 rfl, nodup.erase val⟩
  · rename_i absent
    exact List.nodup_cons.mpr ⟨absent, nodup⟩

theorem mem_remove (nodup : l.Nodup) : v ∈ (l.remove val).2 ↔ v ≠ val ∧ v ∈ l := nodup.mem_erase_iff

theorem evict_some (nodup : l.Nodup) (evicted : l.evict = (some val, l')) :
    val ∈ l ∧ l'.Nodup ∧ ∀ v, v ∈ l' ↔ v ≠ val ∧ v ∈ l := by
  have member := (evict_mem evicted).1
  unfold LRUReplacer.evict at evicted
  split at evicted
  · cases evicted
    exact ⟨member, nodup.erase val, fun v => mem_remove nodup⟩
  · cases evicted

theorem evict_empty (evicted : l.evict = (none, l')) : l = [] := by
  unfold LRUReplacer.evict at evicted
  split at evicted
  · cases evicted
  · rename_i none_
    exact List.getLast?_eq_none_iff.mp none_

end LRUReplacer

namespace DualPriorityReplacer

/-- Every value stands in at most one of the lists, and there once. -/
structure Distinct (d : DualPriorityReplacer) : Prop where
  important : d.important.Nodup
  unimportant : d.unimportant.Nodup
  apart : ∀ v ∈ d.important, v ∉ d.unimportant

variable {d d' : DualPriorityReplacer} {val v : Nat} {adviseEviction : Bool}

theorem Distinct.insert (distinct : d.Distinct) (absent : ¬ d.Has val) : (d.insert val adviseEviction).Distinct ∧
    ∀ v, (d.insert val adviseEviction).Has v ↔ v = val ∨ d.Has v := by
  obtain ⟨noImportant, noUnimportant⟩ := not_or.mp absent
  unfold DualPriorityReplacer.insert
  split
  · refine ⟨⟨distinct.important, LRUReplacer.nodup_insert distinct.unimportant, fun v member other => ?_⟩, fun v => ?_⟩
    · rcases LRUReplacer.mem_insert.mp other with rfl | old
      · exact noImportant member
      · exact distinct.apart v member old
    · rw [Has, LRUReplacer.mem_insert, Has, or_left_comm]
  · have same : (LRUReplacer.remove d.unimportant val).2 = d.unimportant := List.erase_of_not_mem noUnimportant
    rw [same]
    refine ⟨⟨LRUReplacer.nodup_insert distinct.important, distinct.unimportant, fun v member other => ?_⟩, fun v => ?_⟩
    · rcases LRUReplacer.mem_insert.mp member with rfl | old
      · exact noUnimportant other
      · exact distinct.apart v old other
    · rw [Has, LRUReplacer.mem_insert, Has, or_assoc]

theorem Distinct.remove (distinct : d.Distinct) : (d.remove val).2.Distinct ∧
    ∀ v, (d.remove val).2.Has v ↔ v ≠ val ∧ d.Has v := by
  unfold DualPriorityReplacer.remove
  by_cases listed : val ∈ d.unimportant
  · have noImportant : val ∉ d.important := fun member => distinct.apart val member listed
    simp only [LRUReplacer.remove, listed, decide_true]
    refine ⟨⟨distinct.important, distinct.unimportant.erase val, fun v member other =>
      distinct.apart v member (List.mem_of_mem_erase other)⟩, fun v => ?_⟩
    rw [Has, distinct.unimportant.mem_erase_iff, Has, and_or_left]
    exact or_congr_left ⟨fun member => ⟨fun same => noImportant (same ▸ member), member⟩, And.right⟩
  · simp only [LRUReplacer.remove, listed, decide_false]
    have same : d.unimportant.erase val = d.unimportant := List.erase_of_not_mem listed
    rw [same]
    refine ⟨⟨distinct.important.erase val, distinct.unimportant, fun v member other =>
      distinct.apart v (List.mem_of_mem_erase member) other⟩, fun v => ?_⟩
    rw [Has, distinct.important.mem_erase_iff, Has, and_or_left]
    exact or_congr_right ⟨fun member => ⟨fun same => listed (same ▸ member), member⟩, And.right⟩

theorem Distinct.evict_some (distinct : d.Distinct) (evicted : d.evict = (some val, d')) :
    d.Has val ∧ d'.Distinct ∧ ∀ v, d'.Has v ↔ v ≠ val ∧ d.Has v := by
  unfold DualPriorityReplacer.evict at evicted
  split at evicted
  · rename_i result unimportant from_
    cases evicted
    obtain ⟨member, nodup, rest⟩ := LRUReplacer.evict_some distinct.unimportant from_
    have noImportant : val ∉ d.important := fun other => distinct.apart val other member
    refine ⟨Or.inr member, ⟨distinct.important, nodup, fun v inside other =>
      distinct.apart v inside ((rest v).mp other).2⟩, fun v => ?_⟩
    rw [Has, rest v, Has, and_or_left]
    exact or_congr_left ⟨fun member => ⟨fun same => noImportant (same ▸ member), member⟩, And.right⟩
  · rename_i unimportant from_
    have same := LRUReplacer.evict_none from_
    have empty := LRUReplacer.evict_empty from_
    subst same
    obtain ⟨result, rfl⟩ := Prod.mk.inj evicted
    obtain ⟨member, nodup, rest⟩ := LRUReplacer.evict_some distinct.important
      (Prod.ext result rfl : d.important.evict = (some val, _))
    refine ⟨Or.inl member, ⟨nodup, distinct.unimportant, fun v inside => distinct.apart v ((rest v).mp inside).2⟩, fun v => ?_⟩
    rw [Has, rest v, Has, empty]
    simp

theorem evict_empty (evicted : d.evict = (none, d')) : ∀ v, ¬ d.Has v := by
  unfold DualPriorityReplacer.evict at evicted
  split at evicted
  · cases evicted
  · rename_i unimportant from_
    have empty := LRUReplacer.evict_empty from_
    obtain ⟨result, _⟩ := Prod.mk.inj evicted
    have other := LRUReplacer.evict_empty (Prod.ext result rfl : d.important.evict = (none, _))
    intro v
    simp [Has, empty, other]

end DualPriorityReplacer

namespace BufferPool

/-- The page table, the metadata and the replacer of a pool agree when each slot is pinned so often. -/
structure Linked (pins : Nat → Nat) (p : BufferPool) : Prop where
  bound : p.nextPoolIndex ≤ p.poolSize
  resident : ∀ i, i < p.nextPoolIndex → ∃ f, (p.metadata i).fileIndex = some f ∧ p.fileToPoolIndex f = some i
  mapped : ∀ f i, p.fileToPoolIndex f = some i → i < p.nextPoolIndex ∧ (p.metadata i).fileIndex = some f
  unused : ∀ i, p.nextPoolIndex ≤ i → p.metadata i = {}
  refcount : ∀ i, (p.metadata i).refcount = pins i
  distinct : p.replacer.Distinct
  listed : ∀ i, p.replacer.Has i ↔ i < p.nextPoolIndex ∧ pins i = 0

/-- How `retain` finds a slot for a page: the page has one, there is an unused one, or the page in
another one is evicted. -/
inductive Reserving (p : BufferPool) (fileIndex : Nat) (adviseEviction : Bool) : Retained → BufferPool → Prop
  | hit {i} : p.fileToPoolIndex fileIndex = some i →
      Reserving p fileIndex adviseEviction { poolIndex := i, writeBack := none, needsRead := false }
        ({ p with replacer := (p.replacer.remove i).2 }.pin i adviseEviction)
  | unused : p.fileToPoolIndex fileIndex = none → p.nextPoolIndex < p.poolSize →
      Reserving p fileIndex adviseEviction { poolIndex := p.nextPoolIndex, writeBack := none, needsRead := true }
        (({ p with nextPoolIndex := p.nextPoolIndex + 1 }.assign p.nextPoolIndex fileIndex adviseEviction).pin
          p.nextPoolIndex adviseEviction)
  | evicting {i replacer} : p.fileToPoolIndex fileIndex = none → p.poolSize ≤ p.nextPoolIndex →
      p.replacer.evict = (some i, replacer) →
      Reserving p fileIndex adviseEviction { poolIndex := i, writeBack := p.writeBackOf i, needsRead := true }
        ((({ p with replacer }.unassign i).assign i fileIndex adviseEviction).pin i adviseEviction)

variable {p p' : BufferPool} {pins : Nat → Nat} {fileIndex : Nat} {adviseEviction : Bool} {r : Retained}

theorem reserve_cases (reserved : p.reserve fileIndex adviseEviction = some (r, p')) :
    Reserving p fileIndex adviseEviction r p' := by
  unfold reserve at reserved
  split at reserved
  · rename_i mapped
    cases Option.some.inj reserved
    exact .hit mapped
  · rename_i unmapped
    split at reserved
    · rename_i room
      cases Option.some.inj reserved
      exact .unused unmapped room
    · rename_i full
      split at reserved
      · rename_i evicted
        cases Option.some.inj reserved
        exact .evicting unmapped (Nat.not_lt.mp full) evicted
      · cases reserved

/-- `retain` throws exactly when the page is not resident and all slots are pinned. -/
theorem Linked.reserve_eq_none (linked : Linked pins p) : p.reserve fileIndex adviseEviction = none ↔
    p.fileToPoolIndex fileIndex = none ∧ ∀ i, i < p.poolSize → 0 < pins i := by
  unfold reserve
  split
  · rename_i mapped
    simp [mapped]
  · rename_i unmapped
    split
    · rename_i room
      have free : pins p.nextPoolIndex = 0 := by
        rw [← linked.refcount, linked.unused _ le_rfl]
      constructor
      · intro impossible
        cases impossible
      · rintro ⟨_, pinned⟩
        have positive := pinned _ room
        omega
    · rename_i full
      have whole := linked.bound
      split
      · rename_i i replacer evicted
        obtain ⟨inside, free⟩ := (linked.listed i).mp (linked.distinct.evict_some evicted).1
        constructor
        · intro impossible
          cases impossible
        · rintro ⟨_, pinned⟩
          have positive := pinned i (by omega)
          omega
      · rename_i evicted
        refine ⟨fun _ => ⟨unmapped, fun i inside => ?_⟩, fun _ => rfl⟩
        by_contra free
        exact DualPriorityReplacer.evict_empty evicted i ((linked.listed i).mpr ⟨by omega, by omega⟩)

theorem Linked.mapped_inj (linked : Linked pins p) {f g i : Nat} (first : p.fileToPoolIndex f = some i)
    (second : p.fileToPoolIndex g = some i) : f = g := by
  have one := (linked.mapped f i first).2
  rw [(linked.mapped g i second).2] at one
  exact (Option.some.inj one).symm

theorem pin_metadata {i j : Nat} : (p.pin i adviseEviction).metadata j =
    if j = i then { p.metadata i with
      refcount := (p.metadata i).refcount + 1
      adviseEviction := (p.metadata i).adviseEviction && adviseEviction } else p.metadata j :=
  Function.update_apply _ _ _ _

theorem assign_metadata {i j : Nat} : (p.assign i fileIndex adviseEviction).metadata j =
    if j = i then { p.metadata i with fileIndex := some fileIndex, adviseEviction } else p.metadata j :=
  Function.update_apply _ _ _ _

/-- A slot that belongs to no page gets the page and is pinned once. -/
theorem Linked.assign (linked : Linked pins p) (p₁ : BufferPool) {i : Nat} (unmapped : p.fileToPoolIndex fileIndex = none)
    (size : p₁.poolSize = p.poolSize) (next : p₁.nextPoolIndex ≤ p.poolSize) (inside : i < p₁.nextPoolIndex)
    (grown : ∀ j, j ≠ i → (j < p₁.nextPoolIndex ↔ j < p.nextPoolIndex)) (blank : p₁.metadata i = {})
    (others : ∀ j, j ≠ i → p₁.metadata j = p.metadata j)
    (mapping : ∀ f j, j ≠ i → (p₁.fileToPoolIndex f = some j ↔ p.fileToPoolIndex f = some j))
    (gone : ∀ f, p₁.fileToPoolIndex f ≠ some i) (free : pins i = 0) (distinct : p₁.replacer.Distinct)
    (listed : ∀ j, p₁.replacer.Has j ↔ j ≠ i ∧ p.replacer.Has j) :
    Linked (Function.update pins i (pins i + 1)) ((p₁.assign i fileIndex adviseEviction).pin i adviseEviction) where
  bound := next.trans size.ge
  resident j within := by
    rw [pin_metadata, assign_metadata]
    change ∃ f, _ ∧ Function.update p₁.fileToPoolIndex fileIndex (some i) f = some j
    by_cases mine : j = i
    · subst mine
      rw [if_pos rfl, if_pos rfl]
      exact ⟨fileIndex, rfl, Function.update_self _ _ _⟩
    · rw [if_neg mine, assign_metadata, if_neg mine, others j mine]
      obtain ⟨f, index, at_⟩ := linked.resident j ((grown j mine).mp within)
      have different : f ≠ fileIndex := by
        rintro rfl
        rw [unmapped] at at_
        cases at_
      exact ⟨f, index, by rw [Function.update_of_ne different]; exact (mapping f j mine).mpr at_⟩
  mapped f j at_ := by
    change Function.update p₁.fileToPoolIndex fileIndex (some i) f = some j at at_
    rw [pin_metadata, assign_metadata]
    by_cases mine : f = fileIndex
    · subst mine
      rw [Function.update_self] at at_
      cases Option.some.inj at_
      rw [if_pos rfl, if_pos rfl]
      exact ⟨inside, rfl⟩
    · rw [Function.update_of_ne mine] at at_
      have other : j ≠ i := by
        rintro rfl
        exact gone f at_
      rw [if_neg other, assign_metadata, if_neg other, others j other]
      obtain ⟨within, index⟩ := linked.mapped f j ((mapping f j other).mp at_)
      exact ⟨(grown j other).mpr within, index⟩
  unused j above := by
    have other : j ≠ i := by
      rintro rfl
      exact Nat.not_lt.mpr above inside
    rw [pin_metadata, if_neg other, assign_metadata, if_neg other, others j other]
    exact linked.unused j (Nat.not_lt.mp fun within => Nat.not_lt.mpr above ((grown j other).mpr within))
  refcount j := by
    rw [pin_metadata, assign_metadata]
    by_cases mine : j = i
    · subst mine
      rw [if_pos rfl, if_pos rfl, Function.update_self, blank, free]
    · rw [if_neg mine, assign_metadata, if_neg mine, others j mine, Function.update_of_ne mine, linked.refcount]
  distinct := distinct
  listed j := by
    change p₁.replacer.Has j ↔ j < p₁.nextPoolIndex ∧ _
    rw [listed]
    by_cases mine : j = i
    · subst mine
      simp
    · rw [Function.update_of_ne mine, linked.listed, grown j mine]
      exact and_iff_right mine

/-- `retain` pins its slot once more. -/
theorem Linked.reserve (linked : Linked pins p) (reserving : Reserving p fileIndex adviseEviction r p') :
    Linked (Function.update pins r.poolIndex (pins r.poolIndex + 1)) p' ∧ p'.fileToPoolIndex fileIndex = some r.poolIndex := by
  cases reserving with
  | @hit i at_ =>
    obtain ⟨inside, _⟩ := linked.mapped fileIndex i at_
    obtain ⟨distinct, has⟩ : (p.replacer.remove i).2.Distinct ∧ _ := linked.distinct.remove
    refine ⟨⟨linked.bound, fun j within => ?_, fun f j found => ?_, fun j above => ?_, fun j => ?_, distinct, fun j => ?_⟩, at_⟩
    · obtain ⟨f, index, found⟩ := linked.resident j within
      refine ⟨f, ?_, found⟩
      rw [pin_metadata]
      split
      · rename_i mine
        rw [← index, mine]
      · exact index
    · obtain ⟨within, index⟩ := linked.mapped f j found
      refine ⟨within, ?_⟩
      rw [pin_metadata]
      split
      · rename_i mine
        rw [← index, mine]
      · exact index
    · have other : j ≠ i := by
        rintro rfl
        exact Nat.not_lt.mpr above inside
      rw [pin_metadata, if_neg other]
      exact linked.unused j above
    · rw [pin_metadata]
      by_cases mine : j = i
      · subst mine
        rw [if_pos rfl, Function.update_self, ← linked.refcount]
      · rw [if_neg mine, Function.update_of_ne mine]
        exact linked.refcount j
    · change (p.replacer.remove i).2.Has j ↔ j < p.nextPoolIndex ∧ _
      rw [has, linked.listed]
      by_cases mine : j = i
      · subst mine
        simp
      · rw [Function.update_of_ne mine]
        exact and_iff_right mine
  | unused unmapped room =>
    have blank := linked.unused _ le_rfl
    refine ⟨linked.assign { p with nextPoolIndex := p.nextPoolIndex + 1 } unmapped rfl room (Nat.lt_succ_self _)
      (fun j (other : j ≠ p.nextPoolIndex) => ?_) blank (fun _ _ => rfl) (fun _ _ _ => Iff.rfl) (fun f found => ?_) ?_ linked.distinct
      (fun j => ?_), Function.update_self _ _ _⟩
    · change j < p.nextPoolIndex + 1 ↔ _
      omega
    · exact Nat.lt_irrefl _ (linked.mapped f _ found).1
    · rw [← linked.refcount, blank]
    · exact (and_iff_right_of_imp fun has => Nat.ne_of_lt ((linked.listed j).mp has).1).symm
  | @evicting i replacer unmapped full evicted =>
    obtain ⟨has, distinct, rest⟩ := linked.distinct.evict_some evicted
    obtain ⟨inside, free⟩ := (linked.listed i).mp has
    obtain ⟨victim, index, at_⟩ := linked.resident i inside
    have mapping : (({ p with replacer } : BufferPool).unassign i).fileToPoolIndex = Function.update p.fileToPoolIndex victim none := by
      simp only [unassign, index]
    refine ⟨linked.assign (({ p with replacer } : BufferPool).unassign i) unmapped rfl linked.bound inside (fun _ _ => Iff.rfl)
      unassign_same (fun j other => unassign_other other) (fun f j other => ?_) (fun f => ?_) free distinct rest,
      Function.update_self _ _ _⟩
    · rw [mapping]
      by_cases mine : f = victim
      · subst mine
        rw [Function.update_self, at_]
        simpa using Ne.symm other
      · rw [Function.update_of_ne mine]
    · rw [mapping]
      by_cases mine : f = victim
      · subst mine
        rw [Function.update_self]
        simp
      · rw [Function.update_of_ne mine]
        exact fun found => mine (linked.mapped_inj found at_)

/-- `retain` has found the page in the pool. -/
structure Hit (p : BufferPool) (fileIndex : Nat) (r : Retained) (p' : BufferPool) : Prop where
  mapped : p.fileToPoolIndex fileIndex = some r.poolIndex
  writeBack : r.writeBack = none
  mapping : p'.fileToPoolIndex = p.fileToPoolIndex
  same : ∀ j, (p'.metadata j).fileIndex = (p.metadata j).fileIndex ∧ (p'.metadata j).dirty = (p.metadata j).dirty

/-- `retain` has given the page a slot that nobody has pinned. If a dirty page was in there, it has
to be written back. -/
structure Assigned (pins : Nat → Nat) (p : BufferPool) (fileIndex : Nat) (r : Retained) (p' : BufferPool) : Prop where
  unmapped : p.fileToPoolIndex fileIndex = none
  free : pins r.poolIndex = 0
  clean : (p'.metadata r.poolIndex).dirty = false
  mapped : ∀ g j, p'.fileToPoolIndex g = some j ↔
    g = fileIndex ∧ j = r.poolIndex ∨ p.fileToPoolIndex g = some j ∧ j ≠ r.poolIndex
  others : ∀ j, j ≠ r.poolIndex → p'.metadata j = p.metadata j
  evicted : ∀ g, p.fileToPoolIndex g = some r.poolIndex → (p.metadata r.poolIndex).dirty = true →
    ∃ w, r.writeBack = some w ∧ w.fileIndex = g
  written : ∀ w, r.writeBack = some w → w.poolIndex = r.poolIndex ∧ p.fileToPoolIndex w.fileIndex = some r.poolIndex

/-- Mapping the page to a slot that no page has. -/
theorem assign_mapped {f₁ : Nat → Option Nat} {i : Nat} (gone : ∀ f, f₁ f ≠ some i) (unmapped : f₁ fileIndex = none) (g j : Nat) :
    Function.update f₁ fileIndex (some i) g = some j ↔ g = fileIndex ∧ j = i ∨ f₁ g = some j ∧ j ≠ i := by
  by_cases mine : g = fileIndex
  · subst mine
    rw [Function.update_self, unmapped]
    simp [eq_comm]
  · rw [Function.update_of_ne mine]
    constructor
    · intro found
      refine Or.inr ⟨found, ?_⟩
      rintro rfl
      exact gone g found
    · rintro (⟨same, _⟩ | ⟨found, _⟩)
      · exact absurd same mine
      · exact found

theorem Linked.reserve_effect (linked : Linked pins p) (reserving : Reserving p fileIndex adviseEviction r p') :
    p'.pages = p.pages ∧ (r.needsRead = false ∧ Hit p fileIndex r p' ∨ r.needsRead = true ∧ Assigned pins p fileIndex r p') := by
  cases reserving with
  | @hit i at_ =>
    refine ⟨rfl, Or.inl ⟨rfl, at_, rfl, rfl, fun j => ?_⟩⟩
    rw [pin_metadata]
    split
    · rename_i mine
      rw [mine]
      exact ⟨rfl, rfl⟩
    · exact ⟨rfl, rfl⟩
  | unused unmapped room =>
    have blank := linked.unused _ le_rfl
    have gone : ∀ f, p.fileToPoolIndex f ≠ some p.nextPoolIndex := fun f found => Nat.lt_irrefl _ (linked.mapped f _ found).1
    refine ⟨rfl, Or.inr ⟨rfl, unmapped, ?_, ?_, assign_mapped gone unmapped, fun j other => ?_, fun g found => absurd found (gone g),
      fun w impossible => ?_⟩⟩
    · rw [← linked.refcount]
      exact congrArg PageMetadata.refcount blank
    · rw [(pin_dirty _).1, assign_dirty]
      exact congrArg PageMetadata.dirty blank
    · rw [pin_other other, assign_other other]
    · cases impossible
  | @evicting i replacer unmapped full evicted =>
    obtain ⟨inside, free⟩ := (linked.listed i).mp (linked.distinct.evict_some evicted).1
    obtain ⟨victim, index, at_⟩ := linked.resident i inside
    have mapping : (({ p with replacer } : BufferPool).unassign i).fileToPoolIndex = Function.update p.fileToPoolIndex victim none := by
      simp only [unassign, index]
    have left : ∀ g j, Function.update p.fileToPoolIndex victim none g = some j ↔ p.fileToPoolIndex g = some j ∧ j ≠ i := by
      intro g j
      by_cases mine : g = victim
      · subst mine
        rw [Function.update_self, at_]
        simp [eq_comm]
      · rw [Function.update_of_ne mine]
        refine (and_iff_left_of_imp fun found => ?_).symm
        rintro rfl
        exact mine (linked.mapped_inj found at_)
    have gone : ∀ g, Function.update p.fileToPoolIndex victim none g ≠ some i := fun g found => ((left g i).mp found).2 rfl
    have unmapped' : Function.update p.fileToPoolIndex victim none fileIndex = none := by
      by_cases mine : fileIndex = victim
      · rw [mine, Function.update_self]
      · rw [Function.update_of_ne mine, unmapped]
    refine ⟨rfl, Or.inr ⟨rfl, unmapped, free, ?_, fun g j => ?_, fun j other => ?_, fun g found dirty => ?_, fun w found => ?_⟩⟩
    · rw [(pin_dirty _).1, assign_dirty, unassign_same]
    · change Function.update (({ p with replacer } : BufferPool).unassign i).fileToPoolIndex fileIndex (some i) g = some j ↔ _
      rw [mapping, assign_mapped gone unmapped', left]
      simp only [and_assoc, and_self]
    · rw [pin_other other, assign_other other, unassign_other other]
    · cases linked.mapped_inj found at_
      refine ⟨{ poolIndex := i, fileIndex := victim, pageLsn := (p.metadata i).pageLsn }, ?_, rfl⟩
      change (p.metadata i).dirty = true at dirty
      simp only [writeBackOf, dirty, index]
    · obtain ⟨slot, _, _⟩ := writeBackOf_eq_some found
      refine ⟨slot, ?_⟩
      simp only [writeBackOf, index] at found
      split at found
      · rename_i f _ same
        cases Option.some.inj found
        cases same
        exact at_
      · cases found

/-- `release` of a pinned slot. -/
theorem Linked.release (linked : Linked pins p) {i : Nat} (pinned : 0 < pins i) :
    ∃ p', p.release i = some p' ∧ Linked (Function.update pins i (pins i - 1)) p' ∧ p'.pages = p.pages ∧
      p'.poolSize = p.poolSize ∧ p'.fileToPoolIndex = p.fileToPoolIndex ∧
      ∀ j, (p'.metadata j).fileIndex = (p.metadata j).fileIndex ∧ (p'.metadata j).dirty = (p.metadata j).dirty := by
  have count := linked.refcount i
  have inside : i < p.nextPoolIndex := by
    by_contra above
    rw [linked.unused i (Nat.not_lt.mp above)] at count
    exact Nat.ne_of_gt pinned count.symm
  obtain ⟨m, known⟩ : ∃ m, { p.metadata i with refcount := (p.metadata i).refcount - 1 } = m := ⟨_, rfl⟩
  have same : ∀ j, ((p.update i m).metadata j).fileIndex = (p.metadata j).fileIndex ∧
      ((p.update i m).metadata j).dirty = (p.metadata j).dirty := by
    intro j
    by_cases mine : j = i
    · subst mine
      rw [update_same, ← known]
      exact ⟨rfl, rfl⟩
    · rw [update_other mine]
      exact ⟨rfl, rfl⟩
  -- all of the invariant but the replacer's part
  have keep : ∀ replacer : DualPriorityReplacer, replacer.Distinct →
      (∀ j, replacer.Has j ↔ j < p.nextPoolIndex ∧ Function.update pins i (pins i - 1) j = 0) →
      Linked (Function.update pins i (pins i - 1)) { p.update i m with replacer } := by
    intro replacer distinct listed
    refine ⟨linked.bound, fun j within => ?_, fun f j found => ?_, fun j above => ?_, fun j => ?_, distinct, listed⟩
    · obtain ⟨f, index, found⟩ := linked.resident j within
      exact ⟨f, (same j).1.trans index, found⟩
    · obtain ⟨within, index⟩ := linked.mapped f j found
      exact ⟨within, (same j).1.trans index⟩
    · have other : j ≠ i := by
        rintro rfl
        exact Nat.not_lt.mpr above inside
      exact (update_other other).trans (linked.unused j above)
    · change ((p.update i m).metadata j).refcount = _
      by_cases mine : j = i
      · subst mine
        rw [update_same, Function.update_self, ← known, count]
      · rw [update_other mine, Function.update_of_ne mine, linked.refcount]
  simp only [BufferPool.release, known]
  rw [if_neg (by rw [count]; exact Nat.ne_of_gt pinned)]
  by_cases last : pins i = 1
  · rw [if_pos (count.trans last)]
    have absent : ¬ p.replacer.Has i := fun has => by
      have free := ((linked.listed i).mp has).2
      omega
    obtain ⟨distinct, has⟩ : (p.replacer.insert i (p.metadata i).adviseEviction).Distinct ∧ _ := linked.distinct.insert absent
    refine ⟨_, rfl, keep _ distinct fun j => ?_, rfl, rfl, rfl, same⟩
    refine (has j).trans ?_
    rw [linked.listed]
    by_cases mine : j = i
    · subst mine
      simp [last, inside]
    · rw [Function.update_of_ne mine]
      exact or_iff_right mine
  · rw [if_neg (count.trans_ne last)]
    refine ⟨_, rfl, keep p.replacer linked.distinct fun j => ?_, rfl, rfl, rfl, same⟩
    rw [linked.listed]
    by_cases mine : j = i
    · subst mine
      rw [Function.update_self]
      omega
    · rw [Function.update_of_ne mine]

/-- Changes of contents and of dirty flags do not matter. -/
theorem Linked.congr (linked : Linked pins p) (size : p'.poolSize = p.poolSize) (next : p'.nextPoolIndex = p.nextPoolIndex)
    (mapping : p'.fileToPoolIndex = p.fileToPoolIndex) (replacer : p'.replacer = p.replacer)
    (unused : ∀ i, p.nextPoolIndex ≤ i → p'.metadata i = p.metadata i)
    (same : ∀ i, (p'.metadata i).fileIndex = (p.metadata i).fileIndex ∧ (p'.metadata i).refcount = (p.metadata i).refcount) :
    Linked pins p' where
  bound := by rw [next, size]; exact linked.bound
  resident i within := by
    rw [next] at within
    rw [mapping, (same i).1]
    exact linked.resident i within
  mapped f i found := by
    rw [mapping] at found
    rw [next, (same i).1]
    exact linked.mapped f i found
  unused i above := by
    rw [next] at above
    rw [unused i above]
    exact linked.unused i above
  refcount i := (same i).2.trans (linked.refcount i)
  distinct := by rw [replacer]; exact linked.distinct
  listed i := by rw [replacer, next]; exact linked.listed i

theorem Linked.setMetadata (linked : Linked pins p) {i : Nat} (inside : i < p.nextPoolIndex) {m : PageMetadata}
    (index : m.fileIndex = (p.metadata i).fileIndex) (count : m.refcount = (p.metadata i).refcount) : Linked pins (p.update i m) := by
  refine linked.congr rfl rfl rfl rfl (fun j above => update_other ?_) fun j => ?_
  · rintro rfl
    exact Nat.not_lt.mpr above inside
  · by_cases mine : j = i
    · subst mine
      rw [update_same]
      exact ⟨index, count⟩
    · rw [update_other mine]
      exact ⟨rfl, rfl⟩

theorem Linked.withPages (linked : Linked pins p) (pages : Nat → Mem) : Linked pins { p with pages } :=
  linked.congr rfl rfl rfl rfl (fun _ _ => rfl) fun _ => ⟨rfl, rfl⟩

theorem linked_new (poolSize : Nat) : Linked (fun _ => 0) { poolSize } where
  bound := Nat.zero_le _
  resident i within := absurd within (Nat.not_lt_zero i)
  mapped f i found := by cases found
  unused _ _ := rfl
  refcount _ := rfl
  distinct := ⟨List.nodup_nil, List.nodup_nil, fun v member => by cases member⟩
  listed i := by simp [DualPriorityReplacer.Has]

end BufferPool

end DiskMap
