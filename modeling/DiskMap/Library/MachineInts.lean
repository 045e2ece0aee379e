import Mathlib.Data.Int.Bitwise

namespace MachineInts

/-- `x << n` for an `int`, which wraps around. A shift by 32 or more is undefined. -/
def intShl (x n : Nat) : Option Int := if n < 32 then some (Int.bmod ((x * 2 ^ n : Nat) : Int) (2 ^ 32)) else none

/-- The conversion to `size_t`. -/
def toSize (i : Int) : Nat := (i % 2 ^ 64).toNat

/-- Subtraction on `size_t`. -/
def sub64 (a b : Nat) : Nat := (a + (2 ^ 64 - b % 2 ^ 64)) % 2 ^ 64

theorem intShl_exact {x n : Nat} (small : x * 2 ^ n < 2 ^ 31) (short : n < 32) :
    intShl x n = some ((x * 2 ^ n : Nat) : Int) := by
  rw [intShl, if_pos short, Int.bmod_eq_of_le_mul_two]
  · omega
  · omega

theorem toSize_exact {n : Nat} (small : n < 2 ^ 64) : toSize (n : Int) = n := by
  unfold toSize
  omega

theorem sub64_eq {a b : Nat} (le : b ≤ a) (small : a < 2 ^ 64) : sub64 a b = a - b := by
  unfold sub64
  omega

theorem sub64_of_lt {a b : Nat} (lt : a < b) (small : b < 2 ^ 64) : 0 < sub64 a b := by
  unfold sub64
  omega

end MachineInts
