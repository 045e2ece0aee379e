import Mathlib.Algebra.BigOperators.Group.Multiset.Basic
import Mathlib.Data.List.GetD
import Mathlib.Tactic.Abel

namespace Worklist

variable {α β : Type}

/-- The last element moves to the place of the one that is taken. -/
def swapRemove (l : List α) (idx : Nat) : List α :=
  match l.getLast? with
  | none => []
  | some last => (l.set idx last).dropLast

/-- Takes elements out of a worklist in any order. What a visit finds is kept until there is enough of it, and the
elements that it names are visited later. -/
def search (visit : α → List α × List β) (rand : Nat → Nat) (count : Nat) : Nat → List α → List β → Option (List β)
  | 0, _, _ => none
  | fuel + 1, pending, found =>
    if h : 0 < pending.length ∧ found.length < count then
      let next := visit (pending.get ⟨rand 0 % pending.length, Nat.mod_lt _ h.1⟩)
      search visit (fun i => rand (i + 1)) count fuel (swapRemove pending (rand 0 % pending.length) ++ next.1)
        (found ++ next.2.take (count - found.length))
    else some found

theorem swapRemove_map (f : α → β) (l : List α) (idx : Nat) : swapRemove (l.map f) idx = (swapRemove l idx).map f := by
  unfold swapRemove
  rw [List.getLast?_map]
  cases l.getLast? with
  | none => rfl
  | some last => rw [Option.map_some, List.map_dropLast, List.map_set]

theorem swapRemove_perm {l : List α} {idx : Nat} (within : idx < l.length) : (l[idx] :: swapRemove l idx).Perm l := by
  rcases List.eq_nil_or_concat l with rfl | ⟨front, last, rfl⟩
  · exact absurd within (Nat.not_lt_zero idx)
  rw [List.concat_eq_append] at within
  simp only [List.concat_eq_append]
  have removed : swapRemove (front ++ [last]) idx = ((front ++ [last]).set idx last).dropLast := by
    rw [swapRemove, List.getLast?_concat]
  rw [removed]
  by_cases inside : idx < front.length
  · rw [List.set_append_left _ _ inside, List.dropLast_concat, List.getElem_append_left inside]
    calc front[idx] :: front.set idx last
      _ = front[idx] :: (front.take idx ++ last :: front.drop (idx + 1)) := by rw [List.set_eq_take_append_cons_drop, if_pos inside]
      List.Perm _ (last :: (front.take idx ++ front[idx] :: front.drop (idx + 1))) :=
        (List.Perm.cons _ List.perm_middle).trans ((List.Perm.swap _ _ _).trans (List.Perm.cons _ List.perm_middle.symm))
      _ = last :: front := by rw [← List.drop_eq_getElem_cons inside, List.take_append_drop]
      List.Perm _ (front ++ [last]) := (List.perm_append_singleton _ _).symm
  · have atEnd : idx = front.length := by
      rw [List.length_append, List.length_singleton] at within
      omega
    subst atEnd
    rw [List.set_append_right _ _ le_rfl, Nat.sub_self, List.set_cons_zero, List.dropLast_concat,
      List.getElem_append_right le_rfl]
    simpa using (List.perm_append_singleton last front).symm

/-- What has been found, together with some rest, is what there was to find. The search stops early only with the
number that was asked for. -/
theorem search_finds {visit : α → List α × List β} {yields : α → Multiset β} {weight : α → Nat} {count fuel : Nat} {rand : Nat → Nat}
    {pending : List α} {found : List β} {valid : α → Prop}
    (step : ∀ a, valid a → (∀ b ∈ (visit a).1, valid b) ∧ yields a = (visit a).2 + ((visit a).1.map yields).sum ∧
      ((visit a).1.map weight).sum < weight a)
    (all : ∀ a ∈ pending, valid a) (enough : (pending.map weight).sum < fuel) (le : found.length ≤ count) :
    ∃ more rest, search visit rand count fuel pending found = some (found ++ more) ∧
      (more : Multiset β) + rest = (pending.map yields).sum ∧ (found ++ more).length ≤ count ∧
        (rest = 0 ∨ (found ++ more).length = count) := by
  induction fuel generalizing rand pending found with
  | zero => exact absurd enough (Nat.not_lt_zero _)
  | succ fuel ih =>
    rw [search]
    split
    · rename_i goes
      have within := Nat.mod_lt (rand 0) goes.1
      have perm := swapRemove_perm within
      rw [List.get_eq_getElem]
      generalize pending[rand 0 % pending.length] = a at perm
      have valid_a := all a (perm.subset List.mem_cons_self)
      obtain ⟨children, yield, lighter⟩ := step a valid_a
      have weights := (perm.map weight).sum_eq
      have total := (perm.map yields).sum_eq
      rw [List.map_cons, List.sum_cons] at weights total
      obtain ⟨more, rest, ended, parts, bound, either⟩ := @ih (fun i => rand (i + 1))
        (swapRemove pending (rand 0 % pending.length) ++ (visit a).1) (found ++ (visit a).2.take (count - found.length))
        (fun b member => (List.mem_append.mp member).elim (fun old => all b (perm.subset (List.mem_cons_of_mem _ old))) (children b))
        (by rw [List.map_append, List.sum_append]; omega)
        (by rw [List.length_append, List.length_take]; omega)
      rw [List.append_assoc] at ended bound either
      rw [List.map_append, List.sum_append] at parts
      refine ⟨_, rest + (visit a).2.drop (count - found.length), ended, ?_, bound, ?_⟩
      · have cut : ((visit a).2 : Multiset β) =
            ((visit a).2.take (count - found.length) : Multiset β) + ((visit a).2.drop (count - found.length) : Multiset β) := by
          rw [Multiset.coe_add, List.take_append_drop]
        calc (((visit a).2.take (count - found.length) ++ more : List β) : Multiset β) + (rest + (visit a).2.drop (count - found.length))
          _ = ((visit a).2.take (count - found.length) : Multiset β) + ((visit a).2.drop (count - found.length) : Multiset β) +
              ((more : Multiset β) + rest) := by rw [← Multiset.coe_add]; abel
          _ = (visit a).2 + (((swapRemove pending (rand 0 % pending.length)).map yields).sum + ((visit a).1.map yields).sum) := by
            rw [← cut, parts]
          _ = (pending.map yields).sum := by rw [← total, yield]; abel
      · rcases either with none_ | full
        · by_cases short : (visit a).2.length ≤ count - found.length
          · exact Or.inl (by rw [none_, List.drop_eq_nil_of_le short]; rfl)
          · rw [List.length_append, List.length_append, List.length_take] at bound ⊢
            exact Or.inr (by omega)
        · exact Or.inr full
    · rename_i stops
      refine ⟨[], (pending.map yields).sum, by rw [List.append_nil], by simp, by rwa [List.append_nil], ?_⟩
      rw [List.append_nil]
      rcases Nat.eq_zero_or_pos pending.length with none_ | some_
      · exact Or.inl (by rw [List.length_eq_zero_iff.mp none_]; rfl)
      · exact Or.inr (by omega)

end Worklist
