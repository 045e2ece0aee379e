import Mathlib.Data.List.Chain
import Mathlib.Data.List.Nodup
import Mathlib.Logic.Function.Basic

/-- Nodes linked both ways. -/
structure NodeLinks (P : Type) where
  next : P → Option P
  previous : P → Option P

namespace NodeLinks

variable {P : Type} {l l' : NodeLinks P} {xs ys ps : List P} {p q a b : P}

def Joined (l : NodeLinks P) (a b : P) : Prop := l.next a = some b ∧ l.previous b = some a

/-- The links hold the list. The first node may have any backward link. -/
structure Linked (l : NodeLinks P) (ps : List P) : Prop where
  joined : ps.IsChain l.Joined
  last : ∀ a ∈ ps.getLast?, l.next a = none
  distinct : ps.Nodup

theorem Linked.nil : Linked l [] := ⟨.nil, fun a member => by simp only [List.getLast?_nil, Option.mem_def, reduceCtorEq] at member, .nil⟩

theorem Linked.singleton (last : l.next a = none) : Linked l [a] := by
  refine ⟨.singleton a, fun b member => ?_, List.nodup_singleton a⟩
  simp only [List.getLast?_singleton, Option.mem_def, Option.some.injEq] at member
  rw [← member]
  exact last

theorem Linked.neighbours (linked : Linked l (xs ++ p :: q :: ys)) : l.next p = some q ∧ l.previous q = some p :=
  (List.isChain_append_cons_cons.mp linked.joined).2.1

/-- Of a list only the forward links of its nodes and the backward links behind the first node count. -/
theorem Linked.congr (linked : Linked l ps) (next : ∀ a ∈ ps, l'.next a = l.next a)
    (previous : ∀ a ∈ ps.tail, l'.previous a = l.previous a) : Linked l' ps := by
  refine ⟨linked.joined.imp_of_mem_tail_imp ?_, fun a member => ?_, linked.distinct⟩
  · intro a b first second joined
    exact ⟨(next a first).trans joined.1, (previous b second).trans joined.2⟩
  · rw [next a (List.mem_of_getLast? member)]
    exact linked.last a member

theorem Linked.dropFirst (linked : Linked l (a :: ps)) : Linked l ps := by
  refine ⟨linked.joined.tail, fun b member => ?_, linked.distinct.of_cons⟩
  cases ps with
  | nil => cases member
  | cons p ps =>
    exact linked.last b (by rw [List.getLast?_cons_cons]; exact member)

section Updates

variable [DecidableEq P]

def setNext (l : NodeLinks P) (a : P) (target : Option P) : NodeLinks P :=
  { l with next := Function.update l.next a target }

def setPrevious (l : NodeLinks P) (a : P) (target : Option P) : NodeLinks P :=
  { l with previous := Function.update l.previous a target }

@[simp] theorem setNext_next_self {target : Option P} : (l.setNext a target).next a = target := Function.update_self ..

theorem setNext_next_ne {target : Option P} (other : b ≠ a) : (l.setNext a target).next b = l.next b :=
  Function.update_of_ne other ..

@[simp] theorem setNext_previous {target : Option P} : (l.setNext a target).previous = l.previous := rfl

@[simp] theorem setPrevious_previous_self {target : Option P} : (l.setPrevious a target).previous a = target :=
  Function.update_self ..

theorem setPrevious_previous_ne {target : Option P} (other : b ≠ a) :
    (l.setPrevious a target).previous b = l.previous b :=
  Function.update_of_ne other ..

@[simp] theorem setPrevious_next {target : Option P} : (l.setPrevious a target).next = l.next := rfl

theorem Linked.setPrevious_first (linked : Linked l (p :: ps)) (target : Option P) :
    Linked (l.setPrevious p target) (p :: ps) := by
  have apart : p ∉ ps := (List.nodup_cons.mp linked.distinct).1
  exact linked.congr (fun _ _ => rfl) fun a member => setPrevious_previous_ne fun same => apart (same ▸ member)

/-- A node outside the list goes before its first one. -/
theorem Linked.pushFront (linked : Linked l (p :: ps)) (outside : a ∉ p :: ps) :
    Linked ((l.setNext a (some p)).setPrevious p (some a)) (a :: p :: ps) := by
  have rest : Linked ((l.setNext a (some p)).setPrevious p (some a)) (p :: ps) := by
    have forward : Linked (l.setNext a (some p)) (p :: ps) :=
      linked.congr (fun b member => setNext_next_ne fun same => outside (same ▸ member)) fun _ _ => rfl
    exact forward.setPrevious_first (some a)
  refine ⟨List.isChain_cons_cons.mpr ⟨⟨?_, ?_⟩, rest.joined⟩, fun b member => ?_, ?_⟩
  · rw [setPrevious_next, setNext_next_self]
  · rw [setPrevious_previous_self]
  · rw [List.getLast?_cons_cons] at member
    exact rest.last b member
  · exact List.nodup_cons.mpr ⟨outside, linked.distinct⟩

/-- The last node leaves the list when the one before it loses its forward link. -/
theorem Linked.dropLast (linked : Linked l (xs ++ [p, a])) : Linked (l.setNext p none) (xs ++ [p]) := by
  obtain ⟨before, next, -⟩ := List.isChain_append_cons_cons.mp linked.joined
  have split : xs ++ [p, a] = (xs ++ [p]) ++ [a] := by simp only [List.append_assoc, List.cons_append, List.nil_append]
  have distinct : ((xs ++ [p]) ++ [a]).Nodup := split ▸ linked.distinct
  have outside : a ∉ xs ++ [p] := fun member =>
    (List.nodup_append.mp distinct).2.2 a member a (List.mem_singleton_self a) rfl
  refine ⟨before.imp_of_mem_imp ?_, fun b member => ?_, distinct.of_append_left⟩
  · intro u w _ second joined
    have other : u ≠ p := by
      rintro rfl
      exact outside (Option.some.inj (next.1.symm.trans joined.1) ▸ second)
    exact ⟨(setNext_next_ne other).trans joined.1, joined.2⟩
  · rw [List.getLast?_concat, Option.mem_def, Option.some.injEq] at member
    rw [← member, setNext_next_self]

/-- An inner node leaves the list when its neighbours are linked to each other. -/
theorem Linked.bypass (linked : Linked l (xs ++ p :: a :: q :: ys)) :
    Linked ((l.setNext p (some q)).setPrevious q (some p)) (xs ++ p :: q :: ys) := by
  obtain ⟨before, entering, rest⟩ := List.isChain_append_cons_cons.mp linked.joined
  obtain ⟨leaving, after⟩ := List.isChain_cons_cons.mp rest
  have split : xs ++ p :: a :: q :: ys = (xs ++ [p]) ++ a :: (q :: ys) := by
    simp only [List.append_assoc, List.cons_append, List.nil_append]
  have distinct := linked.distinct
  rw [split, List.nodup_middle, List.nodup_cons, List.mem_append, not_or] at distinct
  obtain ⟨⟨notBefore, notAfter⟩, apart⟩ := distinct
  have crossing := (List.nodup_append.mp apart).2.2
  have joinedSplit : xs ++ p :: q :: ys = (xs ++ [p]) ++ q :: ys := by
    simp only [List.append_assoc, List.cons_append, List.nil_append]
  refine ⟨List.isChain_append_cons_cons.mpr ⟨before.imp_of_mem_imp ?_, ⟨?_, ?_⟩, after.imp_of_mem_imp ?_⟩, ?_, ?_⟩
  · intro u w _ second joined
    have notFirst : u ≠ p := by
      rintro rfl
      exact notBefore (Option.some.inj (entering.1.symm.trans joined.1) ▸ second)
    have notSecond : w ≠ q := crossing w second q List.mem_cons_self
    exact ⟨(setNext_next_ne notFirst).trans joined.1, (setPrevious_previous_ne notSecond).trans joined.2⟩
  · rw [setPrevious_next, setNext_next_self]
  · rw [setPrevious_previous_self]
  · intro u w first _ joined
    have notFirst : u ≠ p := fun same =>
      crossing p (List.mem_append_right _ (List.mem_singleton_self p)) u first same.symm
    have notSecond : w ≠ q := by
      rintro rfl
      exact notAfter (Option.some.inj (leaving.2.symm.trans joined.2) ▸ first)
    exact ⟨(setNext_next_ne notFirst).trans joined.1, (setPrevious_previous_ne notSecond).trans joined.2⟩
  · intro b member
    have inside : b ∈ q :: ys := by
      rw [joinedSplit, List.getLast?_append_of_ne_nil _ (List.cons_ne_nil _ _)] at member
      exact List.mem_of_getLast? member
    have other : b ≠ p := fun same =>
      crossing p (List.mem_append_right _ (List.mem_singleton_self p)) b inside same.symm
    rw [setPrevious_next, setNext_next_ne other]
    refine linked.last b ?_
    rw [split, List.getLast?_append_of_ne_nil _ (List.cons_ne_nil _ _), List.getLast?_cons_cons]
    rwa [joinedSplit, List.getLast?_append_of_ne_nil _ (List.cons_ne_nil _ _)] at member
  · rw [joinedSplit]
    exact apart

end Updates

end NodeLinks
