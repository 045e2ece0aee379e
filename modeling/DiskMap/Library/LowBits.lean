import Mathlib.Data.Nat.Bitwise
import Mathlib.Data.Nat.ModEq
import Mathlib.Tactic.Ring

namespace LowBits

/-- The bits of the two numbers are the same below `p`, and different at `p`. -/
structure DifferAt (p a b : Nat) : Prop where
  below : ∀ i, i < p → a.testBit i = b.testBit i
  here : a.testBit p ≠ b.testBit p

variable {p n k a b c a' b' : Nat}

theorem modEq_iff : a ≡ b [MOD 2 ^ n] ↔ ∀ i, i < n → a.testBit i = b.testBit i := by
  constructor
  · intro same i within
    have bit := congrArg (Nat.testBit · i) same
    simpa only [Nat.testBit_mod_two_pow, decide_eq_true within, Bool.true_and] using bit
  · intro bits
    refine Nat.eq_of_testBit_eq fun i => ?_
    rw [Nat.testBit_mod_two_pow, Nat.testBit_mod_two_pow]
    by_cases within : i < n
    · rw [bits i within]
    · rw [decide_eq_false within, Bool.false_and, Bool.false_and]

theorem differAt_iff : DifferAt p a b ↔ a ≡ b [MOD 2 ^ p] ∧ ¬ a ≡ b [MOD 2 ^ (p + 1)] := by
  rw [modEq_iff, modEq_iff]
  constructor
  · rintro ⟨below, here⟩
    exact ⟨below, fun all => here (all p (Nat.lt_succ_self p))⟩
  · rintro ⟨below, notAll⟩
    refine ⟨below, fun same => notAll fun i within => ?_⟩
    rcases Nat.lt_succ_iff_lt_or_eq.mp within with lower | rfl
    · exact below i lower
    · exact same

namespace DifferAt

theorem ne (differ : DifferAt p a b) : a ≠ b := fun same => differ.here (same ▸ rfl)

theorem add_right (differ : DifferAt p a b) (c : Nat) : DifferAt p (a + c) (b + c) := by
  obtain ⟨below, here⟩ := differAt_iff.mp differ
  exact differAt_iff.mpr ⟨below.add_right c, fun same => here (Nat.ModEq.add_right_cancel' c same)⟩

theorem add_left (differ : DifferAt p a b) (c : Nat) : DifferAt p (c + a) (c + b) := by
  rw [Nat.add_comm c, Nat.add_comm c]
  exact differ.add_right c

theorem mul_odd (differ : DifferAt p a b) (odd : Nat.Coprime k 2) : DifferAt p (a * k) (b * k) := by
  obtain ⟨below, here⟩ := differAt_iff.mp differ
  refine differAt_iff.mpr ⟨below.mul_right k, fun same => here ?_⟩
  exact Nat.ModEq.cancel_right_of_coprime (Nat.Coprime.pow_left (p + 1) odd.symm) same

theorem two_pow_mul (differ : DifferAt p a b) (k : Nat) : DifferAt (k + p) (2 ^ k * a) (2 ^ k * b) where
  below i within := by
    rw [Nat.testBit_two_pow_mul, Nat.testBit_two_pow_mul]
    by_cases high : k ≤ i
    · rw [differ.below (i - k) (by omega)]
    · rw [decide_eq_false high, Bool.false_and, Bool.false_and]
  here := by
    rw [Nat.testBit_two_pow_mul, Nat.testBit_two_pow_mul, Nat.add_sub_cancel_left, decide_eq_true (Nat.le_add_right k p),
      Bool.true_and, Bool.true_and]
    exact differ.here

theorem congr (differ : DifferAt p a b) (within : p < n) (left : a' ≡ a [MOD 2 ^ n]) (right : b' ≡ b [MOD 2 ^ n]) : DifferAt p a' b' where
  below i lower := by
    rw [modEq_iff.mp left i (by omega), modEq_iff.mp right i (by omega)]
    exact differ.below i lower
  here := by
    rw [modEq_iff.mp left p within, modEq_iff.mp right p within]
    exact differ.here

theorem mod (differ : DifferAt p a b) (within : p < n) : DifferAt p (a % 2 ^ n) (b % 2 ^ n) :=
  differ.congr within (Nat.mod_modEq a _) (Nat.mod_modEq b _)

/-- Shifting to the right moves the lowest difference down. -/
theorem xor_shiftRight (differ : DifferAt p a b) (enough : k ≤ p) (some_ : 0 < k) :
    DifferAt (p - k) (a ^^^ (a >>> k)) (b ^^^ (b >>> k)) where
  below i within := by
    rw [Nat.testBit_xor, Nat.testBit_xor, Nat.testBit_shiftRight, Nat.testBit_shiftRight, differ.below i (by omega),
      differ.below (k + i) (by omega)]
  here := by
    have here := differ.here
    rw [Nat.testBit_xor, Nat.testBit_xor, Nat.testBit_shiftRight, Nat.testBit_shiftRight, differ.below (p - k) (by omega),
      Nat.add_sub_cancel' enough]
    intro same
    exact here (Bool.xor_right_inj.mp same)

/-- The low bits are the same if the difference is above them. -/
theorem mod_eq_iff (differ : DifferAt p a b) : a % 2 ^ n = b % 2 ^ n ↔ n ≤ p := by
  constructor
  · intro same
    by_contra lower
    exact differ.here (modEq_iff.mp same p (Nat.not_le.mp lower))
  · intro above
    exact modEq_iff.mpr fun i within => differ.below i (within.trans_le above)

theorem lt_of_lt (differ : DifferAt p a b) (small : a < 2 ^ n) (small' : b < 2 ^ n) : p < n := by
  by_contra above
  have same := differ.mod_eq_iff.mpr (Nat.not_lt.mp above)
  rw [Nat.mod_eq_of_lt small, Nat.mod_eq_of_lt small'] at same
  exact differ.ne same

end DifferAt

theorem xor_shiftRight_injective (some_ : 0 < k) (same : a ^^^ (a >>> k) = b ^^^ (b >>> k)) : a = b := by
  have fixed : a ^^^ b = (a ^^^ b) >>> k := by
    refine Nat.eq_of_testBit_eq fun i => ?_
    have bit := congrArg (Nat.testBit · i) same
    simp only [Nat.testBit_xor, Nat.testBit_shiftRight] at bit ⊢
    generalize a.testBit i = x, a.testBit (k + i) = x', b.testBit i = y, b.testBit (k + i) = y' at bit ⊢
    revert bit
    revert x x' y y'
    decide
  have zero : a ^^^ b = 0 := by
    rw [Nat.shiftRight_eq_div_pow] at fixed
    by_contra nonzero
    have smaller := Nat.div_lt_self (Nat.pos_of_ne_zero nonzero) (Nat.one_lt_two_pow (Nat.ne_of_gt some_))
    omega
  exact Nat.xor_eq_zero_iff.mp zero

end LowBits
