import Mathlib.Algebra.BigOperators.Group.Finset.Basic
import Mathlib.Algebra.Order.BigOperators.Group.Finset
import Mathlib.Data.Fintype.BigOperators
import Mathlib.Logic.Relation
import Mathlib.Order.WellFounded

namespace Schedules

section
variable {S : Type} {move : S → S → Prop} {done : S → Prop}

/-- From `s`, every schedule of moves comes to an end, and where it ends `done` holds. -/
inductive Settles (move : S → S → Prop) (done : S → Prop) : S → Prop
  | intro {s : S} : ((∀ s', ¬ move s s') → done s) → (∀ s', move s s' → Settles move done s') → Settles move done s

/-- Moves that lower a rank settle wherever nothing is stuck too early. -/
theorem Settles.of_rank {α : Type} [Preorder α] [WellFoundedLT α] (rank : S → α) (inv : S → Prop)
    (stuck : ∀ s, inv s → (∀ s', ¬ move s s') → done s) (lower : ∀ s s', inv s → move s s' → inv s' ∧ rank s' < rank s) {s : S}
    (holds : inv s) : Settles move done s := by
  induction ranked : rank s using WellFoundedLT.induction generalizing s with
  | ind r ih =>
    refine .intro (stuck s holds) fun s' moved => ?_
    obtain ⟨holds', less⟩ := lower s s' holds moved
    exact ih (rank s') (ranked ▸ less) holds' rfl

theorem Settles.later {s s' : S} (settles : Settles move done s) (run : Relation.ReflTransGen move s s') : Settles move done s' := by
  induction run with
  | refl => exact settles
  | tail _ moved ih =>
    cases ih with
    | intro _ next => exact next _ moved

/-- The last state of a schedule. -/
theorem Settles.ended {s s' : S} (settles : Settles move done s) (run : Relation.ReflTransGen move s s') (stuck : ∀ s'', ¬ move s' s'') :
    done s' := by
  cases settles.later run with
  | intro last => exact last stuck

end

section
variable {ι Pc : Type} [Fintype ι]

/-- The total weight of the places that some threads are at. -/
def weight (w : Pc → Nat) (threads : ι → Pc) : Nat := ∑ i, w (threads i)

variable {w : Pc → Nat} {threads other : ι → Pc}

theorem weight_update [DecidableEq ι] (i : ι) (pc : Pc) :
    weight w (Function.update threads i pc) + w (threads i) = weight w threads + w pc := by
  have rest : ∑ j ∈ Finset.univ.erase i, w (Function.update threads i pc j) = ∑ j ∈ Finset.univ.erase i, w (threads j) :=
    Finset.sum_congr rfl fun j member => by rw [Function.update_of_ne (Finset.ne_of_mem_erase member)]
  have before := Finset.add_sum_erase Finset.univ (fun j => w (threads j)) (Finset.mem_univ i)
  have after := Finset.add_sum_erase Finset.univ (fun j => w (Function.update threads i pc j)) (Finset.mem_univ i)
  rw [rest, Function.update_self] at after
  unfold weight
  omega

theorem weight_congr (same : ∀ i, w (threads i) = w (other i)) : weight w threads = weight w other :=
  Finset.sum_congr rfl fun i _ => same i

theorem weight_eq_zero : weight w threads = 0 ↔ ∀ i, w (threads i) = 0 := by
  unfold weight
  rw [Finset.sum_eq_zero_iff]
  exact ⟨fun all i => all i (Finset.mem_univ i), fun all i _ => all i⟩

theorem weight_pos : 0 < weight w threads ↔ ∃ i, 0 < w (threads i) := by
  rw [Nat.pos_iff_ne_zero, Ne, weight_eq_zero, not_forall]
  exact exists_congr fun i => Nat.pos_iff_ne_zero.symm

end

end Schedules
