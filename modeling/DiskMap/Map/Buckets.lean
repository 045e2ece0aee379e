import DiskMap.Map.Pages

namespace DiskMap

/-- `char` is signed. -/
def charToSize (c : UInt8) : UInt64 := c.toInt8.toInt64.toUInt64

def fnvHash (key : List UInt8) : UInt64 :=
  key.foldl (fun hash c => (hash * 1099511628211) ^^^ charToSize c) 14695981039346656037

/-- `get_bucket` of a hash. -/
def getHashBucket (hash : Nat) : Nat → Nat
  | 0 => hash % branchingFactor
  | depth + 1 => getHashBucket (hash / branchingFactor) depth

def splitsPerHash : Nat := 8

/-- `get_bucket` of a key, whose depths begin at 1. -/
def getBucket (key : List UInt8) (depth : Nat) : Nat :=
  let hashFunction := (depth - 1) / splitsPerHash
  let hashKey := if 0 < hashFunction then UInt8.ofNat (48 + hashFunction) :: key else key
  getHashBucket (fnvHash hashKey).toNat (depth - 1)

theorem branchingFactor_pos : 0 < branchingFactor := by decide +kernel

/-- The digits of the hash of a key, from the least significant one on. -/
def digit (key : List UInt8) (d : Nat) : Fin branchingFactor :=
  ⟨(fnvHash key).toNat / branchingFactor ^ d % branchingFactor, Nat.mod_lt _ branchingFactor_pos⟩

theorem getHashBucket_eq (hash depth : Nat) : getHashBucket hash depth = hash / branchingFactor ^ depth % branchingFactor := by
  induction depth generalizing hash with
  | zero => simp [getHashBucket]
  | succ depth ih => rw [getHashBucket, ih, Nat.div_div_eq_div_mul, pow_succ']

theorem getHashBucket_digit (key : List UInt8) (d : Nat) : getHashBucket (fnvHash key).toNat d = digit key d :=
  getHashBucket_eq _ d

/-- A hash has no more than eight digits. -/
theorem hash_div {d : Nat} (deep : splitsPerHash ≤ d) (hash : UInt64) : hash.toNat / branchingFactor ^ d = 0 := by
  refine Nat.div_eq_of_lt (hash.toNat_lt.trans_le ?_)
  calc 2 ^ 64 ≤ branchingFactor ^ splitsPerHash := by decide +kernel
    _ ≤ branchingFactor ^ d := Nat.pow_le_pow_right branchingFactor_pos deep

/-- Below the eighth level the other hash does not matter. -/
theorem getBucket_digit (key : List UInt8) (d : Nat) : getBucket key (d + 1) = digit key d := by
  simp only [getBucket, Nat.add_sub_cancel, getHashBucket_eq, digit]
  by_cases deep : splitsPerHash ≤ d
  · rw [hash_div deep, hash_div deep]
  · rw [if_neg]
    rw [Nat.div_eq_of_lt (Nat.not_le.mp deep)]
    exact Nat.lt_irrefl 0

theorem eq_of_digits {a b n : Nat} (small : a < branchingFactor ^ n) (small' : b < branchingFactor ^ n)
    (same : ∀ d, d < n → a / branchingFactor ^ d % branchingFactor = b / branchingFactor ^ d % branchingFactor) : a = b := by
  induction n generalizing a b with
  | zero =>
    rw [pow_zero] at small small'
    omega
  | succ n ih =>
    have low : a % branchingFactor = b % branchingFactor := by simpa using same 0 (Nat.zero_lt_succ n)
    have high : a / branchingFactor = b / branchingFactor := by
      rw [pow_succ'] at small small'
      refine ih (Nat.div_lt_of_lt_mul small) (Nat.div_lt_of_lt_mul small') fun d bound => ?_
      rw [Nat.div_div_eq_div_mul, Nat.div_div_eq_div_mul, ← pow_succ']
      exact same (d + 1) (Nat.succ_lt_succ bound)
    rw [← Nat.div_add_mod a branchingFactor, ← Nat.div_add_mod b branchingFactor, low, high]

/-- Keys with different hashes are in different buckets on one of the first eight levels. -/
theorem digit_ne {key other : List UInt8} (different : fnvHash key ≠ fnvHash other) :
    ∃ d, d < splitsPerHash ∧ digit key d ≠ digit other d := by
  by_contra none_
  have bound : ∀ hash : UInt64, hash.toNat < branchingFactor ^ splitsPerHash := fun hash =>
    hash.toNat_lt.trans_le (by decide +kernel)
  refine different (UInt64.toNat_inj.mp (eq_of_digits (bound _) (bound _) fun d small => ?_))
  by_contra apart
  exact none_ ⟨d, small, fun same => apart (congrArg Fin.val same)⟩

/-- The buckets of a subtree that is created are those in which its keys are looked for, and the first eight levels
tell keys with different hashes apart. -/
theorem buckets_agree : (∀ key depth, getHashBucket (fnvHash key).toNat depth = getBucket key (depth + 1)) ∧
    ∀ key other, fnvHash key ≠ fnvHash other → ∃ depth, depth < 8 ∧ getBucket key (depth + 1) ≠ getBucket other (depth + 1) := by
  refine ⟨fun key depth => ?_, fun key other different => ?_⟩
  · rw [getHashBucket_digit, getBucket_digit]
  · obtain ⟨d, shallow, apart⟩ := digit_ne different
    refine ⟨d, shallow, fun same => apart (Fin.ext ?_)⟩
    rwa [getBucket_digit, getBucket_digit] at same

theorem buckets_agree_letters : getHashBucket (fnvHash [97]).toNat 9 = getBucket [97] 10 ∧
    ∃ depth, depth < 8 ∧ getBucket [97] (depth + 1) ≠ getBucket [98] (depth + 1) :=
  ⟨buckets_agree.1 [97] 9, buckets_agree.2 [97] [98] (by decide)⟩

end DiskMap
