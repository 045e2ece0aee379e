import Mathlib.Tactic.Ring
import Mathlib.Data.List.GetD

namespace ByteMemory

/-- A byte memory: every address holds one byte. -/
abbrev Mem := Nat → UInt8

/-- The `width` low bytes of `n`, least significant byte first. -/
def leBytes : Nat → Nat → List UInt8
  | 0, _ => []
  | width + 1, n => UInt8.ofNat n :: leBytes width (n / 256)

def leNat : List UInt8 → Nat
  | [] => 0
  | b :: bs => b.toNat + 256 * leNat bs

/-- The `n` bytes from address `a` on. -/
def slice (m : Mem) (a n : Nat) : List UInt8 :=
  (List.range n).map fun i => m (a + i)

/-- The number whose little-endian bytes stand at address `a`. -/
def leAt (m : Mem) (a width : Nat) : Nat :=
  leNat (slice m a width)

/-- The range of `n` bytes at `a` is replaced by `bs` and, behind it, by zeros. -/
def overwrite (m : Mem) (a n : Nat) (bs : List UInt8) : Mem := fun x =>
  if a ≤ x ∧ x < a + n then bs.getD (x - a) 0 else m x

@[simp] theorem leBytes_length (width n : Nat) : (leBytes width n).length = width := by
  induction width generalizing n with
  | zero => rfl
  | succ width ih => simp [leBytes, ih]

theorem leNat_leBytes (width n : Nat) : leNat (leBytes width n) = n % 256 ^ width := by
  induction width generalizing n with
  | zero => simp [leBytes, leNat, Nat.mod_one]
  | succ width ih =>
    have low : (UInt8.ofNat n).toNat = n % 256 := UInt8.toNat_ofNat'
    rw [leBytes, leNat, ih, low, pow_succ', Nat.mod_mul]

theorem leNat_leBytes_of_lt {width n : Nat} (small : n < 256 ^ width) :
    leNat (leBytes width n) = n := by
  rw [leNat_leBytes, Nat.mod_eq_of_lt small]

theorem leNat_lt (bs : List UInt8) : leNat bs < 256 ^ bs.length := by
  induction bs with
  | nil => simp [leNat]
  | cons b bs ih =>
    have byte := b.toNat_lt
    simp only [leNat, List.length_cons, pow_succ']
    omega

theorem leNat_append (front back : List UInt8) : leNat (front ++ back) = leNat front + 256 ^ front.length * leNat back := by
  induction front with
  | nil => simp [leNat]
  | cons b front ih =>
    rw [List.cons_append, leNat, leNat, ih, List.length_cons]
    ring

theorem leBytes_leNat (bs : List UInt8) : leBytes bs.length (leNat bs) = bs := by
  induction bs with
  | nil => rfl
  | cons b bs ih =>
    have byte := b.toNat_lt
    have low : UInt8.ofNat (b.toNat + 256 * leNat bs) = b := by
      apply UInt8.toNat_inj.mp
      rw [UInt8.toNat_ofNat']
      omega
    have high : (b.toNat + 256 * leNat bs) / 256 = leNat bs := by omega
    simp only [List.length_cons, leNat, leBytes, low, high, ih]

@[simp] theorem slice_length (m : Mem) (a n : Nat) : (slice m a n).length = n := by
  simp [slice]

theorem slice_getElem? (m : Mem) (a : Nat) {n i : Nat} (within : i < n) :
    (slice m a n)[i]? = some (m (a + i)) := by
  simp [slice, within]

theorem slice_getD (m : Mem) (a : Nat) {n i : Nat} (within : i < n) :
    (slice m a n).getD i 0 = m (a + i) := by
  rw [List.getD_eq_getElem?_getD, slice_getElem? m a within, Option.getD_some]

theorem slice_congr {m m' : Mem} {a n : Nat} (same : ∀ i, i < n → m (a + i) = m' (a + i)) :
    slice m a n = slice m' a n := by
  apply List.map_congr_left
  intro i member
  exact same i (List.mem_range.mp member)

theorem slice_eq_iff {m : Mem} {a : Nat} {bs : List UInt8} :
    slice m a bs.length = bs ↔ ∀ i, i < bs.length → m (a + i) = bs.getD i 0 := by
  constructor
  · intro same i within
    rw [← slice_getD m a within, same]
  · intro bytes
    apply List.ext_getElem?
    intro i
    by_cases within : i < bs.length
    · rw [slice_getElem? m a within, bytes i within, List.getD_eq_getElem?_getD,
        List.getElem?_eq_getElem within, Option.getD_some]
    · rw [List.getElem?_eq_none (by simp; omega), List.getElem?_eq_none (by omega)]

theorem slice_append (m : Mem) (a n k : Nat) :
    slice m a (n + k) = slice m a n ++ slice m (a + n) k := by
  simp only [slice, List.range_add, List.map_append, List.map_map]
  congr 1
  apply List.map_congr_left
  intro i _
  simp [Nat.add_assoc]

/-- A run of known bytes is read piece by piece. -/
theorem slice_split {m : Mem} {a : Nat} {xs ys : List UInt8}
    (bytes : slice m a (xs ++ ys).length = xs ++ ys) :
    slice m a xs.length = xs ∧ slice m (a + xs.length) ys.length = ys := by
  rw [List.length_append, slice_append] at bytes
  exact List.append_inj bytes (slice_length m a _)

theorem leAt_of_slice {m : Mem} {a width n : Nat} (small : n < 256 ^ width)
    (bytes : slice m a (leBytes width n).length = leBytes width n) : leAt m a width = n := by
  rw [leBytes_length] at bytes
  rw [leAt, bytes, leNat_leBytes_of_lt small]

theorem overwrite_inside {m : Mem} {a n x : Nat} {bs : List UInt8} (lower : a ≤ x) (upper : x < a + n) :
    overwrite m a n bs x = bs.getD (x - a) 0 :=
  if_pos ⟨lower, upper⟩

theorem overwrite_outside {m : Mem} {a n x : Nat} {bs : List UInt8} (outside : x < a ∨ a + n ≤ x) :
    overwrite m a n bs x = m x :=
  if_neg (by omega)

theorem slice_overwrite_outside {m : Mem} {a n b k : Nat} {bs : List UInt8}
    (apart : b + k ≤ a ∨ a + n ≤ b) : slice (overwrite m a n bs) b k = slice m b k :=
  slice_congr fun i within => overwrite_outside (by omega)

theorem slice_overwrite_self (m : Mem) (a : Nat) (bs : List UInt8) :
    slice (overwrite m a bs.length bs) a bs.length = bs := by
  rw [slice_eq_iff]
  intro i within
  rw [overwrite_inside (by omega) (by omega), Nat.add_sub_cancel_left]

theorem leAt_congr {m m' : Mem} {a width : Nat} (same : ∀ i, i < width → m (a + i) = m' (a + i)) :
    leAt m a width = leAt m' a width :=
  congrArg leNat (slice_congr same)

theorem leAt_lt (m : Mem) (a width : Nat) : leAt m a width < 256 ^ width := by
  simpa [leAt] using leNat_lt (slice m a width)

theorem leAt_overwrite_outside {m : Mem} {a n b width : Nat} {bs : List UInt8}
    (apart : b + width ≤ a ∨ a + n ≤ b) : leAt (overwrite m a n bs) b width = leAt m b width :=
  congrArg leNat (slice_overwrite_outside apart)

theorem leAt_overwrite_self (m : Mem) (a width n : Nat) :
    leAt (overwrite m a width (leBytes width n)) a width = n % 256 ^ width := by
  have written := slice_overwrite_self m a (leBytes width n)
  rw [leBytes_length] at written
  rw [leAt, written, leNat_leBytes]

theorem leAt_zero {m : Mem} {a width : Nat} (zeros : ∀ i, i < width → m (a + i) = 0) :
    leAt m a width = 0 := by
  have nothing : slice m a width = List.replicate width 0 := by
    rw [List.eq_replicate_iff]
    refine ⟨slice_length m a width, ?_⟩
    simp only [slice, List.mem_map, List.mem_range]
    rintro b ⟨i, within, rfl⟩
    exact zeros i within
  rw [leAt, nothing]
  clear zeros nothing
  induction width with
  | zero => rfl
  | succ width ih => simp [List.replicate_succ, leNat, ih]

/-- The `n` bytes at `a` are `bs` and, behind it, zeros, as `overwrite` leaves them. -/
def Holds (m : Mem) (a n : Nat) (bs : List UInt8) : Prop := ∀ i, i < n → m (a + i) = bs.getD i 0

theorem Holds.overwrite (m : Mem) (a n : Nat) (bs : List UInt8) : Holds (overwrite m a n bs) a n bs := by
  intro i within
  rw [overwrite_inside (by omega) (by omega), Nat.add_sub_cancel_left]

theorem Holds.congr {m m' : Mem} {a n : Nat} {bs : List UInt8} (holds : Holds m a n bs)
    (same : ∀ i, i < n → m' (a + i) = m (a + i)) : Holds m' a n bs :=
  fun i within => (same i within).trans (holds i within)

theorem Holds.drop {m : Mem} {a n : Nat} {xs ys : List UInt8} (holds : Holds m a n (xs ++ ys)) :
    Holds m (a + xs.length) (n - xs.length) ys := by
  intro i within
  rw [Nat.add_assoc, holds _ (by omega), List.getD_append_right _ _ _ _ (by omega), Nat.add_sub_cancel_left]

theorem Holds.slice {m : Mem} {a n : Nat} {xs ys : List UInt8} (holds : Holds m a n (xs ++ ys)) (inside : xs.length ≤ n) :
    slice m a xs.length = xs := by
  rw [slice_eq_iff]
  intro i within
  rw [holds i (by omega), List.getD_append _ _ _ _ within]

theorem Holds.append {m : Mem} {a n : Nat} {xs ys : List UInt8} (front : ByteMemory.slice m a xs.length = xs)
    (back : Holds m (a + xs.length) (n - xs.length) ys) : Holds m a n (xs ++ ys) := by
  intro i within
  by_cases inside : i < xs.length
  · rw [List.getD_append _ _ _ _ inside, slice_eq_iff.mp front i inside]
  · rw [List.getD_append_right _ _ _ _ (by omega), ← back _ (by omega)]
    exact congrArg m (by omega)

/-- A part is overwritten in place, or everything from some point on. -/
theorem Holds.replace {m : Mem} {a n : Nat} {xs old ys bs : List UInt8} (holds : Holds m a n (xs ++ (old ++ ys)))
    (covers : old.length = bs.length ∨ old.length ≤ bs.length ∧ ys = []) :
    Holds (ByteMemory.overwrite m (a + xs.length) bs.length bs) a n (xs ++ (bs ++ ys)) := by
  intro i within
  by_cases before : i < xs.length
  · rw [overwrite_outside (by omega), holds i within, List.getD_append _ _ _ _ before, List.getD_append _ _ _ _ before]
  rw [List.getD_append_right _ _ _ _ (by omega)]
  by_cases inside : i < xs.length + bs.length
  · rw [overwrite_inside (by omega) (by omega), List.getD_append _ _ _ _ (by omega)]
    exact congrArg (bs.getD · 0) (by omega)
  · rw [overwrite_outside (by omega), holds i within, List.getD_append_right _ _ _ _ (by omega),
      List.getD_append_right _ _ _ _ (by omega), List.getD_append_right _ _ _ _ (by omega)]
    rcases covers with same | ⟨_, rfl⟩
    · rw [same]
    · simp

theorem Holds.slice_zeros {m : Mem} {a n k : Nat} {bs : List UInt8} (holds : Holds m a n bs) (inside : bs.length + k ≤ n) :
    ByteMemory.slice m a (bs.length + k) = bs ++ List.replicate k 0 := by
  have padded : Holds m a n ((bs ++ List.replicate k 0) ++ []) := by
    intro i within
    rw [holds i within, List.append_nil]
    by_cases stored : i < bs.length
    · rw [List.getD_append _ _ _ _ stored]
    · rw [List.getD_append_right _ _ _ _ (by omega), List.getD_eq_default _ _ (by omega)]
      by_cases last : i - bs.length < k
      · rw [List.getD_replicate _ last]
      · rw [List.getD_eq_default _ _ (by simp; omega)]
  have whole := padded.slice (by simpa using inside)
  rwa [List.length_append, List.length_replicate] at whole

/-- What stands behind the bytes is zero. -/
theorem Holds.append_iff {m : Mem} {a n : Nat} {xs ys : List UInt8} (holds : Holds m a n (xs ++ ys))
    (inside : xs.length + ys.length ≤ n) : Holds m a n xs ↔ ∀ b ∈ ys, b = 0 := by
  constructor
  · intro alone b member
    obtain ⟨i, bound, rfl⟩ := List.mem_iff_getElem.mp member
    have byte := (holds (xs.length + i) (by omega)).symm.trans (alone (xs.length + i) (by omega))
    rwa [List.getD_append_right _ _ _ _ (by omega), Nat.add_sub_cancel_left, List.getD_eq_getElem _ _ bound,
      List.getD_eq_default _ _ (by omega)] at byte
  · intro zeros i within
    rw [holds i within]
    by_cases stored : i < xs.length
    · rw [List.getD_append _ _ _ _ stored]
    · rw [List.getD_append_right _ _ _ _ (by omega), List.getD_eq_default xs _ (by omega)]
      by_cases last : i - xs.length < ys.length
      · rw [List.getD_eq_getElem _ _ last]
        exact zeros _ (List.getElem_mem last)
      · rw [List.getD_eq_default _ _ (by omega)]

/-- `memcpy` into a buffer. -/
def patch (buffer : List UInt8) (pos : Nat) (bytes : List UInt8) : List UInt8 :=
  buffer.take pos ++ bytes ++ buffer.drop (pos + bytes.length)

theorem patch_append (front old back bytes : List UInt8) (same : old.length = bytes.length) :
    patch (front ++ (old ++ back)) front.length bytes = front ++ (bytes ++ back) := by
  rw [patch, List.take_left, ← same, List.append_assoc, ← List.drop_drop, List.drop_left, List.drop_left]

end ByteMemory
