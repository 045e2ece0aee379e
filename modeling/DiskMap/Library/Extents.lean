import DiskMap.Library.ByteMemory

open ByteMemory

/-- A byte string laid out over several ranges of a memory, each given by its address and length. -/
abbrev Extents := List (Nat × Nat)

namespace Extents

def total (xs : Extents) : Nat := (xs.map Prod.snd).sum

/-- The address of a byte of the string. -/
def locate : Extents → Nat → Nat
  | [], _ => 0
  | (a, n) :: rest, i => if i < n then a + i else locate rest (i - n)

/-- The ranges hold the bytes and, behind them, zeros. -/
def Stores (m : Mem) (xs : Extents) (bytes : List UInt8) : Prop := ∀ i, i < xs.total → m (xs.locate i) = bytes.getD i 0

/-- No two ranges overlap. -/
def Separate (xs : Extents) : Prop := xs.Pairwise fun x y => x.1 + x.2 ≤ y.1 ∨ y.1 + y.2 ≤ x.1

/-- The bytes have been written at a position of the string, and nothing else has changed. -/
structure Written (m m' : Mem) (xs : Extents) (pos : Nat) (bytes : List UInt8) : Prop where
  inside : ∀ i, i < bytes.length → m' (xs.locate (pos + i)) = bytes.getD i 0
  outside : ∀ x, (∀ i, i < bytes.length → x ≠ xs.locate (pos + i)) → m' x = m x

/-- Bytes of a string are replaced from a position on; a gap in front of them is filled with zeros. -/
def splice (old : List UInt8) (pos : Nat) (new : List UInt8) : List UInt8 :=
  (old ++ List.replicate (pos - old.length) 0).take pos ++ new ++ old.drop (pos + new.length)

variable {m m' : Mem} {xs ys : Extents} {a n i j pos : Nat} {bytes old new : List UInt8}

@[simp] theorem total_nil : total [] = 0 := rfl

@[simp] theorem total_cons (x : Nat × Nat) (xs : Extents) : total (x :: xs) = x.2 + total xs := by
  simp [total]

theorem total_append : total (xs ++ ys) = total xs + total ys := by
  simp [total]

theorem locate_first (inside : i < n) : locate ((a, n) :: xs) i = a + i := if_pos inside

theorem locate_later (beyond : n ≤ i) : locate ((a, n) :: xs) i = locate xs (i - n) := if_neg (Nat.not_lt.mpr beyond)

theorem locate_append (inside : i < xs.total) : locate (xs ++ ys) i = locate xs i := by
  induction xs generalizing i with
  | nil => cases inside
  | cons x xs ih =>
    obtain ⟨a, n⟩ := x
    rw [total_cons] at inside
    rw [List.cons_append, locate, locate]
    split
    · rfl
    · exact ih (by omega)

theorem locate_append_right (beyond : xs.total ≤ i) : locate (xs ++ ys) i = locate ys (i - xs.total) := by
  induction xs generalizing i with
  | nil => rfl
  | cons x xs ih =>
    obtain ⟨a, n⟩ := x
    rw [total_cons] at beyond ⊢
    dsimp only at beyond ⊢
    rw [List.cons_append, locate_later (by omega), ih (by omega), Nat.sub_sub]

theorem locate_mem (inside : i < xs.total) : ∃ x ∈ xs, x.1 ≤ xs.locate i ∧ xs.locate i < x.1 + x.2 := by
  induction xs generalizing i with
  | nil => cases inside
  | cons x xs ih =>
    obtain ⟨a, n⟩ := x
    rw [total_cons] at inside
    rw [locate]
    split
    · exact ⟨(a, n), List.mem_cons_self, by dsimp only; omega⟩
    · obtain ⟨y, member, within⟩ := ih (i := i - n) (by dsimp only at inside; omega)
      exact ⟨y, List.mem_cons_of_mem _ member, within⟩

/-- Different bytes of the string have different addresses. -/
theorem Separate.locate_inj (separate : xs.Separate) (first : i < xs.total) (second : j < xs.total)
    (same : xs.locate i = xs.locate j) : i = j := by
  induction xs generalizing i j with
  | nil => cases first
  | cons x xs ih =>
    obtain ⟨a, n⟩ := x
    obtain ⟨apart, later⟩ := List.pairwise_cons.mp separate
    rw [total_cons] at first second
    dsimp only at first second apart
    have elsewhere : ∀ k, n ≤ k → k < n + total xs → locate xs (k - n) < a ∨ a + n ≤ locate xs (k - n) := by
      intro k beyond inside
      obtain ⟨y, member, within⟩ := locate_mem (show k - n < total xs by omega)
      have := apart y member
      omega
    by_cases here : i < n
    · by_cases there : j < n
      · rw [locate_first here, locate_first there] at same
        omega
      · rw [locate_first here, locate_later (by omega)] at same
        have := elsewhere j (by omega) second
        omega
    · by_cases there : j < n
      · rw [locate_later (by omega), locate_first there] at same
        have := elsewhere i (by omega) first
        omega
      · rw [locate_later (by omega), locate_later (by omega)] at same
        have := ih later (by omega) (by omega) same
        omega

theorem splice_length : (splice old pos new).length = max old.length (pos + new.length) := by
  simp only [splice, List.length_append, List.length_take, List.length_replicate, List.length_drop]
  omega

theorem splice_getD : (splice old pos new).getD i 0 =
    if pos ≤ i ∧ i < pos + new.length then new.getD (i - pos) 0 else old.getD i 0 := by
  have front : ((old ++ List.replicate (pos - old.length) 0).take pos).length = pos := by
    simp only [List.length_take, List.length_append, List.length_replicate]
    omega
  rw [splice]
  by_cases before : i < pos
  · rw [if_neg (by omega), List.append_assoc, List.getD_append _ _ _ _ (by omega), List.getD_eq_getElem?_getD, List.getElem?_take,
      if_pos before, ← List.getD_eq_getElem?_getD]
    by_cases stored : i < old.length
    · rw [List.getD_append _ _ _ _ stored]
    · rw [List.getD_append_right _ _ _ _ (by omega), List.getD_replicate _ (by omega), List.getD_eq_default _ _ (by omega)]
  · by_cases inside : i < pos + new.length
    · rw [if_pos ⟨by omega, inside⟩, List.getD_append _ _ _ _ (by simp only [List.length_append, front]; omega),
        List.getD_append_right _ _ _ _ (by omega), front]
    · rw [if_neg (by omega), List.getD_append_right _ _ _ _ (by simp only [List.length_append, front]; omega),
        List.length_append, front, List.getD_eq_getElem?_getD, List.getElem?_drop, ← List.getD_eq_getElem?_getD]
      exact congrArg (old.getD · 0) (by omega)

theorem Stores.congr (stores : Stores m xs bytes) (same : ∀ i, i < xs.total → m' (xs.locate i) = m (xs.locate i)) :
    Stores m' xs bytes :=
  fun i inside => (same i inside).trans (stores i inside)

/-- Further ranges of zeros do not change the string. -/
theorem Stores.grow (stores : Stores m xs bytes) (fits : bytes.length ≤ xs.total)
    (zeros : ∀ i, i < ys.total → m (ys.locate i) = 0) : Stores m (xs ++ ys) bytes := by
  intro i inside
  rw [total_append] at inside
  by_cases before : i < xs.total
  · rw [locate_append before, stores i before]
  · rw [locate_append_right (by omega), zeros _ (by omega), List.getD_eq_default _ _ (by omega)]

theorem Stores.written (stores : Stores m xs old) (separate : xs.Separate) (written : Written m m' xs pos new)
    (fits : pos + new.length ≤ xs.total) : Stores m' xs (splice old pos new) := by
  intro i inside
  rw [splice_getD]
  split
  · rename_i within
    have byte := written.inside (i - pos) (by omega)
    rwa [Nat.add_sub_cancel' within.1] at byte
  · rename_i apart
    rw [written.outside, stores i inside]
    intro k bound same
    have := separate.locate_inj inside (by omega) same
    omega

theorem Written.nil (m : Mem) (xs : Extents) (pos : Nat) : Written m m xs pos [] where
  inside i impossible := absurd impossible (Nat.not_lt_zero i)
  outside _ _ := rfl

/-- A range is written within one of the extents, and then what follows. -/
theorem Written.append {m₁ m₂ : Mem} {at_ : Nat} (here : ∀ i, i < old.length → xs.locate (pos + i) = at_ + i)
    (first : m₁ = overwrite m at_ old.length old) (later : Written m₁ m₂ xs (pos + old.length) new)
    (apart : ∀ i j, i < old.length → j < new.length → xs.locate (pos + old.length + j) ≠ xs.locate (pos + i)) :
    Written m m₂ xs pos (old ++ new) where
  inside i bound := by
    rw [List.length_append] at bound
    by_cases before : i < old.length
    · rw [later.outside _ fun j within => (apart i j before within).symm, first, here i before,
        overwrite_inside (by omega) (by omega), Nat.add_sub_cancel_left, List.getD_append _ _ _ _ before]
    · have byte := later.inside (i - old.length) (by omega)
      rw [Nat.add_assoc, Nat.add_sub_cancel' (by omega)] at byte
      rw [byte, List.getD_append_right _ _ _ _ (by omega)]
  outside x elsewhere := by
    rw [List.length_append] at elsewhere
    have untouched := later.outside x fun j within => by
      have := elsewhere (old.length + j) (by omega)
      rwa [← Nat.add_assoc] at this
    rw [untouched, first, overwrite_outside]
    by_contra within
    exact elsewhere (x - at_) (by omega) (by rw [here _ (by omega)]; omega)

end Extents
