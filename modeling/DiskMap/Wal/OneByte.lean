import DiskMap.Library.LowBits
import DiskMap.Wal.Record

namespace DiskMap
open ByteMemory LowBits

namespace Checksum

/-- The 64-bit words that `digest` adds to its state, one in each round. -/
def digestWords : List UInt8 → List Nat
  | b0 :: b1 :: b2 :: b3 :: b4 :: b5 :: b6 :: b7 :: rest => leNat [b0, b1, b2, b3, b4, b5, b6, b7] :: digestWords rest
  | tail => tail.map signExtend

/-- The rounds from the word with the `i`-th of `n` bytes on, and the first bit of that byte in its word. -/
def roundsFrom (n i : Nat) : Nat := if i < n / 8 * 8 then n / 8 - i / 8 + n % 8 else n - i

def byteShift (n i : Nat) : Nat := if i < n / 8 * 8 then 8 * (i % 8) else 0

variable {front back bytes : List UInt8} {b b' : UInt8} {state state' word word' p : Nat}

theorem digest_eq (state : Nat) (bytes : List UInt8) : digest state bytes = (digestWords bytes).foldl mix state := by
  fun_induction digest state bytes with
  | case1 state b0 b1 b2 b3 b4 b5 b6 b7 rest ih => rw [digestWords, List.foldl_cons, ih]
  | case2 state tail short => rw [digestWords.eq_2 tail short, List.foldl_map]

theorem digestWords_short (short : bytes.length < 8) : digestWords bytes = bytes.map signExtend := by
  refine digestWords.eq_2 bytes fun b0 b1 b2 b3 b4 b5 b6 b7 rest is => ?_
  rw [is] at short
  simp only [List.length_cons] at short
  omega

theorem digestWords_append (front rest : List UInt8) (eight : front.length = 8) :
    digestWords (front ++ rest) = leNat front :: digestWords rest := by
  match front, eight with
  | [b0, b1, b2, b3, b4, b5, b6, b7], _ => rfl

theorem digestWords_length (bytes : List UInt8) : (digestWords bytes).length = bytes.length / 8 + bytes.length % 8 := by
  induction size : bytes.length using Nat.strong_induction_on generalizing bytes with
  | h n ih =>
    subst size
    by_cases short : bytes.length < 8
    · rw [digestWords_short short, List.length_map]
      omega
    · have eight : (bytes.take 8).length = 8 := by
        rw [List.length_take]
        omega
      have later := ih (bytes.drop 8).length (by rw [List.length_drop]; omega) (bytes.drop 8) rfl
      rw [← List.take_append_drop 8 bytes, digestWords_append _ _ eight, List.length_cons, later, List.length_append, eight]
      omega

theorem mix_eq (state word : Nat) : mix state word =
    ((state + word) * 1025 % 2 ^ 64) ^^^ (((state + word) * 1025 % 2 ^ 64) >>> 6) := by
  have product : (state + word) % 2 ^ 64 + ((state + word) % 2 ^ 64) <<< 10 = (state + word) % 2 ^ 64 * 1025 := by
    rw [Nat.shiftLeft_eq]
    ring
  simp only [mix, product, Nat.mod_mul_mod]

/-- In each round the lowest difference moves down by six bits. -/
theorem mix_differs (differ : DifferAt p (state + word) (state' + word')) (enough : 6 ≤ p) (inside : p < 64) :
    DifferAt (p - 6) (mix state word) (mix state' word') := by
  rw [mix_eq, mix_eq]
  exact ((differ.mul_odd (k := 1025) (by decide)).mod inside).xor_shiftRight enough (by decide)

theorem foldl_differs {words : List Nat} (differ : DifferAt p state state') (enough : 6 * words.length ≤ p) (inside : p < 64) :
    DifferAt (p - 6 * words.length) (words.foldl mix state) (words.foldl mix state') := by
  induction words generalizing p state state' with
  | nil => exact differ
  | cons word words ih =>
    rw [List.length_cons] at enough
    have later := ih (mix_differs (differ.add_right word) (by omega) inside) (by omega) (by omega)
    rwa [show p - 6 - 6 * words.length = p - 6 * (word :: words).length by rw [List.length_cons]; omega] at later

/-- A round loses nothing. -/
theorem mix_inj (same : mix state word = mix state' word') : state + word ≡ state' + word' [MOD 2 ^ 64] := by
  rw [mix_eq, mix_eq] at same
  exact Nat.ModEq.cancel_right_of_coprime (by decide) (xor_shiftRight_injective (by decide) same)

theorem mix_lt (state word : Nat) : mix state word < 2 ^ 64 := by
  rw [mix_eq]
  have low := Nat.mod_lt ((state + word) * 1025) (Nat.two_pow_pos 64)
  exact Nat.xor_lt_two_pow low ((Nat.shiftRight_le _ 6).trans_lt low)

theorem foldl_inj {words : List Nat} (small : state < 2 ^ 64) (small' : state' < 2 ^ 64)
    (same : words.foldl mix state = words.foldl mix state') : state = state' := by
  induction words generalizing state state' with
  | nil => exact same
  | cons word words ih =>
    have next := mix_inj (ih (mix_lt _ _) (mix_lt _ _) same)
    exact (Nat.ModEq.add_right_cancel' word next).eq_of_lt_of_lt small small'

theorem signExtend_mod (b : UInt8) : signExtend b ≡ b.toNat [MOD 2 ^ 8] := by
  have byte := b.toNat_lt
  unfold signExtend Nat.ModEq
  split <;> omega

theorem leNat_lt_word (eight : bytes.length = 8) : leNat bytes < 2 ^ 64 := by
  have bound := leNat_lt bytes
  rwa [eight] at bound

theorem signExtend_lt (b : UInt8) : signExtend b < 2 ^ 64 := by
  have byte := b.toNat_lt
  unfold signExtend
  split <;> omega

/-- Where a byte is in the words that are digested. -/
structure WordOf (front back : List UInt8) (b b' : UInt8) : Prop where
  words : ∃ before word word' after, digestWords (front ++ b :: back) = before ++ word :: after ∧
    digestWords (front ++ b' :: back) = before ++ word' :: after ∧
    after.length + 1 = roundsFrom (front ++ b :: back).length front.length ∧ word < 2 ^ 64 ∧ word' < 2 ^ 64 ∧
    (b ≠ b' → word ≠ word') ∧
    ∀ v, DifferAt v b.toNat b'.toNat → DifferAt (byteShift (front ++ b :: back).length front.length + v) word word'

theorem WordOf.cons {chunk : List UInt8} (eight : chunk.length = 8) (rest : WordOf front back b b') : WordOf (chunk ++ front) back b b' := by
  obtain ⟨before, word, word', after, shape, shape', rounds, small, small', apart, differ⟩ := rest.words
  refine ⟨leNat chunk :: before, word, word', after, ?_, ?_, rounds.trans ?_, small, small', apart, fun v at_ => ?_⟩
  · rw [List.append_assoc, digestWords_append _ _ eight, shape, List.cons_append]
  · rw [List.append_assoc, digestWords_append _ _ eight, shape', List.cons_append]
  · simp only [roundsFrom, List.length_append, List.length_cons, eight]
    split <;> split <;> omega
  · have place := differ v at_
    simp only [byteShift, List.length_append, List.length_cons, eight] at place ⊢
    split at place <;> split
    · rwa [Nat.add_mod_left]
    · omega
    · omega
    · exact place

/-- A byte of one of the whole words. -/
theorem WordOf.whole {tail : List UInt8} (eight : front.length + 1 + back.length = 8) : WordOf front (back ++ tail) b b' := by
  have length : ∀ c : UInt8, (front ++ c :: back).length = 8 := fun c => by
    rw [List.length_append, List.length_cons]
    omega
  have split : ∀ c : UInt8, digestWords (front ++ c :: (back ++ tail)) = leNat (front ++ c :: back) :: digestWords tail := fun c => by
    rw [← List.cons_append, ← List.append_assoc, digestWords_append _ _ (length c)]
  have value : ∀ c : UInt8, leNat (front ++ c :: back) = leNat front + 2 ^ (8 * front.length) * (c.toNat + 256 * leNat back) := fun c => by
    rw [leNat_append, leNat, pow_mul]
    rfl
  have place : ∀ v, DifferAt v b.toNat b'.toNat → DifferAt (8 * front.length + v) (leNat (front ++ b :: back)) (leNat (front ++ b' :: back)) := by
    intro v at_
    rw [value, value]
    exact ((at_.add_right _).two_pow_mul _).add_left _
  refine ⟨[], _, _, _, split b, split b', ?_, leNat_lt_word (length b), leNat_lt_word (length b'), fun apart same => ?_, fun v at_ => ?_⟩
  · simp only [digestWords_length, roundsFrom, List.length_append, List.length_cons]
    rw [if_pos (by omega)]
    omega
  · rw [value, value] at same
    have inner := Nat.eq_of_mul_eq_mul_left (Nat.two_pow_pos _) (Nat.add_left_cancel same)
    exact apart (UInt8.toNat_inj.mp (Nat.add_right_cancel inner))
  · have inside := place v at_
    simp only [byteShift, List.length_append, List.length_cons]
    rwa [if_pos (by omega), Nat.mod_eq_of_lt (by omega)]

/-- A byte behind the last whole word. -/
theorem WordOf.tail (few : front.length + 1 + back.length < 8) : WordOf front back b b' := by
  have short : ∀ c : UInt8, digestWords (front ++ c :: back) = front.map signExtend ++ signExtend c :: back.map signExtend := fun c => by
    rw [digestWords_short (by rw [List.length_append, List.length_cons]; omega), List.map_append, List.map_cons]
  have place : ∀ v, DifferAt v b.toNat b'.toNat → DifferAt v (signExtend b) (signExtend b') := fun v at_ =>
    at_.congr (at_.lt_of_lt b.toNat_lt b'.toNat_lt) (signExtend_mod b) (signExtend_mod b')
  refine ⟨_, _, _, _, short b, short b', ?_, signExtend_lt b, signExtend_lt b', fun apart same => apart ?_, fun v at_ => ?_⟩
  · simp only [List.length_map, roundsFrom, List.length_append, List.length_cons]
    rw [if_neg (by omega)]
    omega
  · have low := ((signExtend_mod b).symm.trans (same ▸ signExtend_mod b')).eq_of_lt_of_lt b.toNat_lt b'.toNat_lt
    exact UInt8.toNat_inj.mp low
  · simp only [byteShift, List.length_append, List.length_cons]
    rw [if_neg (by omega), Nat.zero_add]
    exact place v at_

theorem wordOf (front back : List UInt8) (b b' : UInt8) : WordOf front back b b' := by
  induction size : front.length using Nat.strong_induction_on generalizing front with
  | h n ih =>
    subst size
    by_cases long : 8 ≤ front.length
    · have eight : (front.take 8).length = 8 := by
        rw [List.length_take]
        omega
      have rest := ih (front.drop 8).length (by rw [List.length_drop]; omega) (front.drop 8) rfl
      rw [← List.take_append_drop 8 front]
      exact rest.cons eight
    · by_cases few : front.length + 1 + back.length < 8
      · exact .tail few
      · rw [← List.take_append_drop (7 - front.length) back]
        exact .whole (by rw [List.length_take]; omega)

/-- The lowest bit in which two bytes differ. -/
def lowestBit (b b' : UInt8) : Nat := ((List.range 8).find? fun i => b.toNat.testBit i != b'.toNat.testBit i).getD 8

theorem lowestBit_differs (apart : b ≠ b') : DifferAt (lowestBit b b') b.toNat b'.toNat := by
  cases found : (List.range 8).find? fun i => b.toNat.testBit i != b'.toNat.testBit i with
  | none =>
    refine absurd (UInt8.toNat_inj.mp ?_) apart
    refine Nat.ModEq.eq_of_lt_of_lt (modEq_iff.mpr fun i within => ?_) b.toNat_lt b'.toNat_lt
    simpa using List.find?_eq_none.mp found i (List.mem_range.mpr within)
  | some p =>
    obtain ⟨here, _, below⟩ := List.find?_range_eq_some.mp found
    rw [lowestBit, found]
    exact ⟨fun i within => by simpa using below i within, by simpa using here⟩

end Checksum

namespace InMemoryWALRecord
open Checksum

def digestWords (r : InMemoryWALRecord) : List Nat := Checksum.digestWords r.digested ++ Checksum.digestWords r.data

/-- The state of `Checksum` at the end, of which the record keeps 32 bits. -/
def checksumState (r : InMemoryWALRecord) : Nat := r.digestWords.foldl mix start

theorem computeChecksum_eq (r : InMemoryWALRecord) : r.computeChecksum = r.checksumState % 2 ^ 32 := by
  rw [computeChecksum, checksumState, digestWords, List.foldl_append, ← digest_eq, ← digest_eq]
  cases is : r.data with
  | nil => rfl
  | cons b rest => rfl

/-- The rounds from the `j`-th of the digested bytes on. -/
def rounds (r : InMemoryWALRecord) (j : Nat) : Nat :=
  if j < r.digested.length then roundsFrom r.digested.length j + (r.data.length / 8 + r.data.length % 8)
  else roundsFrom r.data.length (j - r.digested.length)

/-- The first bit of that byte in its word. -/
def shift (r : InMemoryWALRecord) (j : Nat) : Nat :=
  if j < r.digested.length then byteShift r.digested.length j else byteShift r.data.length (j - r.digested.length)

/-- Two records with data of the same size differ in the `j`-th of the digested bytes, and in no other. -/
structure OneByteOff (r r' : InMemoryWALRecord) (j : Nat) (b b' : UInt8) : Prop where
  data : r'.data.length = r.data.length
  bytes : ∃ front back, r.digested ++ r.data = front ++ b :: back ∧ r'.digested ++ r'.data = front ++ b' :: back ∧ front.length = j
  apart : b ≠ b'

variable {r r' : InMemoryWALRecord} {j : Nat} {b b' : UInt8}

/-- A list that begins inside another one, taken apart where the first part ends. -/
theorem append_inside {header data front back : List UInt8} (shape : header ++ data = front ++ b :: back)
    (inside : front.length < header.length) :
    header = front ++ b :: back.take (header.length - front.length - 1) ∧ data = back.drop (header.length - front.length - 1) := by
  obtain ⟨n, is⟩ : ∃ n, header.length - front.length = n + 1 := ⟨header.length - front.length - 1, by omega⟩
  have first := congrArg (List.take header.length) shape
  have last := congrArg (List.drop header.length) shape
  rw [List.take_left, List.take_append, List.take_of_length_le inside.le, is, List.take_succ_cons] at first
  rw [List.drop_left, List.drop_append, List.drop_eq_nil_of_le inside.le, List.nil_append, is, List.drop_succ_cons] at last
  rw [is, Nat.add_sub_cancel]
  exact ⟨first, last⟩

theorem append_behind {header data front back : List UInt8} (shape : header ++ data = front ++ b :: back)
    (behind : header.length ≤ front.length) :
    header = front.take header.length ∧ data = front.drop header.length ++ b :: back := by
  have first := congrArg (List.take header.length) shape
  have last := congrArg (List.drop header.length) shape
  rw [List.take_left, List.take_append_of_le_length behind] at first
  rw [List.drop_left, List.drop_append_of_le_length behind] at last
  exact ⟨first, last⟩

theorem OneByteOff.words (off : OneByteOff r r' j b b') : ∃ before word word' after, r.digestWords = before ++ word :: after ∧
    r'.digestWords = before ++ word' :: after ∧ after.length + 1 = r.rounds j ∧ word < 2 ^ 64 ∧ word' < 2 ^ 64 ∧ word ≠ word' ∧
      DifferAt (r.shift j + lowestBit b b') word word' := by
  obtain ⟨front, back, shape, shape', rfl⟩ := off.bytes
  have header : r'.digested.length = r.digested.length := by
    have length := congrArg List.length shape
    have length' := congrArg List.length shape'
    have data := off.data
    simp only [List.length_append, List.length_cons] at length length'
    omega
  rw [rounds, shift, digestWords, digestWords]
  by_cases inside : front.length < r.digested.length
  · obtain ⟨first, last⟩ := append_inside shape inside
    obtain ⟨first', last'⟩ := append_inside shape' (header ▸ inside)
    rw [header] at first' last'
    have same := last'.trans last.symm
    obtain ⟨before, word, word', after, is, is', count, small, small', apart, differ⟩ :=
      (wordOf front (back.take (r.digested.length - front.length - 1)) b b').words
    rw [← first] at is count differ
    rw [← first'] at is'
    rw [if_pos inside, if_pos inside]
    refine ⟨before, word, word', after ++ Checksum.digestWords r.data, ?_, ?_, ?_, small, small', apart off.apart,
      differ _ (lowestBit_differs off.apart)⟩
    · rw [is, List.append_assoc, List.cons_append]
    · rw [is', same, List.append_assoc, List.cons_append]
    · rw [List.length_append, digestWords_length]
      omega
  · obtain ⟨first, last⟩ := append_behind shape (Nat.not_lt.mp inside)
    obtain ⟨first', last'⟩ := append_behind shape' (header ▸ Nat.not_lt.mp inside)
    rw [header] at first' last'
    have same := first'.trans first.symm
    obtain ⟨before, word, word', after, is, is', count, small, small', apart, differ⟩ :=
      (wordOf (front.drop r.digested.length) back b b').words
    rw [← last] at is count differ
    rw [← last'] at is'
    rw [List.length_drop] at count differ
    rw [if_neg inside, if_neg inside]
    refine ⟨Checksum.digestWords r.digested ++ before, word, word', after, ?_, ?_, count, small, small', apart off.apart,
      differ _ (lowestBit_differs off.apart)⟩
    · rw [is, List.append_assoc]
    · rw [is', same, List.append_assoc]

/-- The state keeps the difference, but the 32 bits of it that are stored do so only while it has not got out of them. -/
theorem OneByteOff.checksums (off : OneByteOff r r' j b b') : r.checksumState ≠ r'.checksumState ∧
    (6 * r.rounds j ≤ r.shift j + lowestBit b b' →
      (r.computeChecksum ≠ r'.computeChecksum ↔ r.shift j + lowestBit b b' < 6 * r.rounds j + 32)) := by
  obtain ⟨before, word, word', after, shape, shape', rounds, small, small', apart, differ⟩ := off.words
  have inside := differ.lt_of_lt small small'
  rw [computeChecksum_eq, computeChecksum_eq, checksumState, checksumState, shape, shape', List.foldl_append, List.foldl_append,
    List.foldl_cons, List.foldl_cons, ← rounds]
  generalize r.shift j + lowestBit b b' = p at differ inside
  constructor
  · intro same
    have next := mix_inj (foldl_inj (mix_lt _ _) (mix_lt _ _) same)
    exact apart ((Nat.ModEq.add_left_cancel' _ next).eq_of_lt_of_lt small small')
  · intro enough
    have final := @foldl_differs _ _ _ after (mix_differs (differ.add_left (before.foldl mix start)) (by omega) inside) (by omega) (by omega)
    rw [ne_eq, final.mod_eq_iff, Nat.not_le]
    omega

end InMemoryWALRecord

/-- The bytes of an encoded record that are neither its type nor one of its lengths. -/
def FreeByte (body : RecordBody) (i : Nat) : Prop :=
  i ≠ 12 ∧ match body with
    | .set _ => ¬ (21 ≤ i ∧ i < 27)
    | .clr _ => ¬ (25 ≤ i ∧ i < 29)
    | _ => True

section Load

open InMemoryWALRecord Checksum

variable {file : List UInt8} {pos i : Nat} {r : InMemoryWALRecord} {b : UInt8}

theorem loadBody_typeCode (m : Mem) (offset : Nat) {code : Nat} : (loadBody m offset code).typeCode = code := by
  unfold loadBody
  split <;> rfl

theorem leBytes_leAt (m : Mem) (a width : Nat) : leBytes width (leAt m a width) = slice m a width := by
  have bytes := leBytes_leNat (slice m a width)
  rwa [slice_length] at bytes

theorem loadBody_bytes_eq (m : Mem) (offset code : Nat) :
    (loadBody m offset code).bytes = slice m offset (loadBody m offset code).bytes.length := by
  unfold loadBody
  split
  case h_6 =>
    have fields : slice m offset 14 = slice m offset 8 ++ slice m (offset + 8) 2 ++ slice m (offset + 10) 2 ++ slice m (offset + 12) 2 := by
      rw [← slice_append m offset 8 2, ← slice_append m offset 10 2, ← slice_append m offset 12 2]
    simp only [RecordBody.bytes, leBytes_leAt, List.length_append, slice_length]
    exact fields.symm
  case h_7 =>
    have fields : slice m offset 16 = slice m offset 4 ++ slice m (offset + 4) 8 ++ slice m (offset + 12) 2 ++ slice m (offset + 14) 2 := by
      rw [← slice_append m offset 4 8, ← slice_append m offset 12 2, ← slice_append m offset 14 2]
    simp only [RecordBody.bytes, leBytes_leAt, List.length_append, slice_length]
    exact fields.symm
  all_goals rfl

/-- A loaded record is encoded by the bytes that it has been loaded from. -/
theorem encode_loadWalRecord (file : List UInt8) (pos : Nat) : (loadWalRecord file pos).encode =
    slice (fileBytes file) pos (recordSize (loadWalRecord file pos).body) := by
  obtain ⟨body, is⟩ : ∃ body, (loadWalRecord file pos).body = body := ⟨_, rfl⟩
  have bytes := loadBody_bytes_eq (fileBytes file) (pos + 13) (leAt (fileBytes file) (pos + 12) 1)
  have code := @loadBody_typeCode (fileBytes file) (pos + 13) (leAt (fileBytes file) (pos + 12) 1)
  have length := body.bytes_length
  change loadBody (fileBytes file) (pos + 13) (leAt (fileBytes file) (pos + 12) 1) = body at is
  rw [is] at bytes code
  have parts : recordSize body = 4 + (4 + (4 + (1 + (body.bytes.length + recordDataSize body)))) := by
    rw [recordSize]
    omega
  rw [encode, digested, loadWalRecord]
  simp only [is]
  rw [code, leBytes_leAt, leBytes_leAt, leBytes_leAt, leBytes_leAt, parts, slice_append _ _ 4, slice_append _ _ 4, slice_append _ _ 4,
    slice_append _ _ 1, slice_append, ← bytes, ← length]
  simp only [List.append_assoc, Nat.add_assoc]
  rw [show body.bytes.length + 13 = 4 + (4 + (4 + (1 + body.bytes.length))) by omega]

/-- The lengths in a record determine its size. -/
theorem recordSize_loadBody {m m' : Mem} {offset code : Nat}
    (set : code = 5 → leAt m' (offset + 10) 2 = leAt m (offset + 10) 2 ∧ leAt m' (offset + 12) 2 = leAt m (offset + 12) 2)
    (clr : code = 6 → leAt m' (offset + 14) 2 = leAt m (offset + 14) 2) :
    recordSize (loadBody m' offset code) = recordSize (loadBody m offset code) := by
  unfold loadBody
  split
  case h_6 => simp only [recordSize, recordDataSize, recordHeaderSize, set rfl]
  case h_7 => simp only [recordSize, recordDataSize, recordHeaderSize, clr rfl]
  all_goals rfl

theorem recordHeaderSize_loadBody (m m' : Mem) (offset code : Nat) :
    recordHeaderSize (loadBody m' offset code) = recordHeaderSize (loadBody m offset code) := by
  unfold loadBody
  split <;> simp only [recordHeaderSize]

/-- The record that is loaded where one byte of another one has been changed. -/
structure Corrupted (r : InMemoryWALRecord) (i : Nat) (b : UInt8) (r' : InMemoryWALRecord) : Prop where
  header : recordHeaderSize r'.body = recordHeaderSize r.body
  size : recordSize r'.body = recordSize r.body
  data : r'.data.length = recordDataSize r'.body
  checksum : r'.checksum < 256 ^ 4
  encode : r'.encode = r.encode.set i b

theorem loadWalRecord_corrupted (front rest : List UInt8) (valid : r.Valid) (within : i < r.encode.length) (free : FreeByte r.body i) (b : UInt8) :
    Corrupted r i b (loadWalRecord (front ++ (r.encode.set i b ++ rest)) front.length) := by
  obtain ⟨m, memory⟩ : ∃ m, fileBytes (front ++ (r.encode ++ rest)) = m := ⟨_, rfl⟩
  obtain ⟨m', memory'⟩ : ∃ m', fileBytes (front ++ (r.encode.set i b ++ rest)) = m' := ⟨_, rfl⟩
  have same : ∀ a, a ≠ front.length + i → m' a = m a := by
    intro a other
    have set : front ++ (r.encode.set i b ++ rest) = (front ++ (r.encode ++ rest)).set (front.length + i) b := by
      rw [List.set_append_right _ _ (Nat.le_add_right _ _), Nat.add_sub_cancel_left, List.set_append_left _ _ within]
    rw [← memory, ← memory', set, fileBytes, fileBytes, List.getD_eq_getElem?_getD, List.getD_eq_getElem?_getD,
      List.getElem?_set_ne (Ne.symm other)]
  have original : (loadWalRecord (front ++ (r.encode ++ rest)) front.length).body = r.body := by
    rw [loadWalRecord_encode valid (fileBytes_slice_append front r.encode rest)]
  have field : ∀ offset width, ¬ (offset ≤ i ∧ i < offset + width) → leAt m' (front.length + offset) width = leAt m (front.length + offset) width :=
    fun offset width outside => leAt_congr fun k inside => same _ (by omega)
  have code := field 12 1 (by have notType := free.1; omega)
  change loadBody (fileBytes _) (front.length + 13) (leAt (fileBytes _) (front.length + 12) 1) = r.body at original
  rw [memory] at original
  have size : recordSize (loadWalRecord (front ++ (r.encode.set i b ++ rest)) front.length).body = recordSize r.body := by
    change recordSize (loadBody (fileBytes _) (front.length + 13) (leAt (fileBytes _) (front.length + 12) 1)) = _
    rw [memory', code, ← original]
    rw [← original] at free
    refine recordSize_loadBody (fun is => ?_) fun is => ?_
    · rw [is] at free
      have apart : ¬ (21 ≤ i ∧ i < 27) := free.2
      exact ⟨field 23 2 (by omega), field 25 2 (by omega)⟩
    · rw [is] at free
      have apart : ¬ (25 ≤ i ∧ i < 29) := free.2
      exact field 27 2 (by omega)
  refine ⟨?_, size, slice_length _ _ _, leAt_lt _ _ 4, ?_⟩
  · change recordHeaderSize (loadBody (fileBytes _) (front.length + 13) (leAt (fileBytes _) (front.length + 12) 1)) = _
    rw [memory', code, ← original]
    exact recordHeaderSize_loadBody _ _ _ _
  · have stored := fileBytes_slice_append front (r.encode.set i b) rest
    rw [List.length_set, valid.encode_length] at stored
    rw [encode_loadWalRecord, size, stored]

/-- The load loop of `recover` stops at the changed record exactly if its checksum does not match. -/
theorem loadRecords_corrupted {before : List InMemoryWALRecord} (valids : ∀ x ∈ before, x.Valid) (junk : List UInt8) (some_ : 0 < junk.length) :
    let r' := loadWalRecord (encodeAll before ++ junk) (encodeAll before).length
    loadRecords (encodeAll before ++ junk) 0 = (before, (encodeAll before).length) ↔ r'.checksum ≠ r'.computeChecksum := by
  intro r'
  have loaded := loadRecords_append valids [] junk
  rw [List.nil_append, List.length_nil, Nat.zero_add] at loaded
  rw [loaded, loadRecords, if_pos (by rw [List.length_append]; omega)]
  by_cases stands : r'.checksum = r'.computeChecksum
  · rw [if_pos stands]
    refine ⟨fun same => ?_, fun other => absurd stands other⟩
    have records := congrArg (List.length ∘ Prod.fst) same
    simp only [Function.comp_apply, List.length_append, List.length_cons] at records
    omega
  · rw [if_neg stands]
    exact ⟨fun _ => stands, fun _ => by rw [List.append_nil]⟩

theorem digested_length (r : InMemoryWALRecord) : r.digested.length + 4 = recordHeaderSize r.body := by
  have size := r.body.bytes_length
  simp only [digested, List.length_append, leBytes_length]
  omega

namespace Corrupted

variable {r' : InMemoryWALRecord}

theorem lengths (corrupted : Corrupted r i b r') (valid : r.Valid) :
    r'.digested.length = r.digested.length ∧ r'.data.length = r.data.length := by
  have header := corrupted.header
  have size := corrupted.size
  have digested := digested_length r
  have digested' := digested_length r'
  rw [recordSize, recordSize] at size
  rw [corrupted.data, valid.data]
  omega

/-- In the checksum field. -/
theorem stored (corrupted : Corrupted r i b r') (valid : r.Valid) {b₀ : UInt8} (byte : r.encode[i]? = some b₀) (apart : b₀ ≠ b)
    (field : i < 4) : r'.checksum ≠ r'.computeChecksum := by
  obtain ⟨digested, data⟩ := corrupted.lengths valid
  have shape := corrupted.encode
  rw [InMemoryWALRecord.encode, InMemoryWALRecord.encode, List.append_assoc, List.append_assoc, List.set_append_left _ _ (by rw [leBytes_length]; exact field)] at shape
  obtain ⟨first, rest⟩ := List.append_inj shape (by rw [List.length_set, leBytes_length, leBytes_length])
  obtain ⟨header, tail⟩ := List.append_inj rest digested
  have same : r'.computeChecksum = r.computeChecksum := by rw [computeChecksum, computeChecksum, header, tail]
  rw [same, ← valid.checksum]
  intro stays
  rw [stays] at first
  rw [InMemoryWALRecord.encode, List.append_assoc, List.getElem?_append_left (by rw [leBytes_length]; exact field), first,
    List.getElem?_set_self (by rw [leBytes_length]; exact field)] at byte
  exact apart (Option.some.inj byte).symm

/-- Among the bytes that are digested. -/
theorem oneByteOff (corrupted : Corrupted r i b r') (valid : r.Valid) {b₀ : UInt8} (byte : r.encode[i]? = some b₀) (apart : b₀ ≠ b)
    (behind : 4 ≤ i) : OneByteOff r r' (i - 4) b₀ b ∧ r'.checksum = r.checksum := by
  obtain ⟨digested, data⟩ := corrupted.lengths valid
  have shape := corrupted.encode
  have four := leBytes_length 4 r.checksum
  rw [InMemoryWALRecord.encode, List.append_assoc, List.getElem?_append_right (by omega), four] at byte
  rw [InMemoryWALRecord.encode, InMemoryWALRecord.encode, List.append_assoc, List.append_assoc, List.set_append_right _ _ (by omega), four] at shape
  obtain ⟨first, rest⟩ := List.append_inj shape (by rw [leBytes_length, leBytes_length])
  obtain ⟨within, is⟩ := List.getElem?_eq_some_iff.mp byte
  refine ⟨⟨data, ⟨(r.digested ++ r.data).take (i - 4), (r.digested ++ r.data).drop (i - 4 + 1), ?_, ?_, ?_⟩, apart⟩, ?_⟩
  · rw [← is, ← List.drop_eq_getElem_cons within, List.take_append_drop]
  · rw [rest, List.set_eq_take_append_cons_drop, if_pos within]
  · rw [List.length_take]
    omega
  · have small : r.checksum < 256 ^ 4 := by
      rw [valid.checksum]
      exact Nat.mod_lt _ (by decide)
    rw [← leNat_leBytes_of_lt corrupted.checksum, first, leNat_leBytes_of_lt small]

end Corrupted

/-- The 64-bit states of two records that differ in one byte are never the same. Their low 32 bits are different if the
lowest difference, which moves down by six bits in each round, has come to be among these, and the same if it still is
above them. So does `recover` notice a changed byte; it always does in the checksum field. -/
theorem checksum_detects :
    (∀ (r r' : InMemoryWALRecord) (j : Nat) (b b' : UInt8), OneByteOff r r' j b b' → r.checksumState ≠ r'.checksumState ∧
      (6 * r.rounds j ≤ r.shift j + lowestBit b b' →
        (r.computeChecksum ≠ r'.computeChecksum ↔ r.shift j + lowestBit b b' < 6 * r.rounds j + 32))) ∧
    ∀ (before : List InMemoryWALRecord) (r : InMemoryWALRecord) (rest : List UInt8) (i : Nat) (b₀ b : UInt8), (∀ x ∈ before, x.Valid) →
      r.Valid → FreeByte r.body i → r.encode[i]? = some b₀ → b₀ ≠ b →
      let stops := loadRecords (encodeAll before ++ (r.encode.set i b ++ rest)) 0 = (before, (encodeAll before).length)
      (i < 4 → stops) ∧ (4 ≤ i → 6 * r.rounds (i - 4) ≤ r.shift (i - 4) + lowestBit b₀ b →
        (stops ↔ r.shift (i - 4) + lowestBit b₀ b < 6 * r.rounds (i - 4) + 32)) := by
  refine ⟨fun r r' j b b' off => off.checksums, ?_⟩
  intro before r rest i b₀ b valids valid free byte apart stops
  obtain ⟨within, _⟩ := List.getElem?_eq_some_iff.mp byte
  have corrupted := loadWalRecord_corrupted (encodeAll before) rest valid within free b
  have stops_iff : stops ↔ _ := loadRecords_corrupted valids (r.encode.set i b ++ rest) (by
    rw [List.length_append, List.length_set]
    omega)
  refine ⟨fun field => stops_iff.mpr (corrupted.stored valid byte apart field), fun behind enough => stops_iff.trans ?_⟩
  obtain ⟨off, same⟩ := corrupted.oneByteOff valid byte apart behind
  rw [same, valid.checksum]
  exact off.checksums.2 enough

theorem checksum_detects_commit :
    InMemoryWALRecord.computeChecksum ⟨0, 0, 0, .commit, []⟩ ≠ InMemoryWALRecord.computeChecksum ⟨0, 2 ^ 16, 0, .commit, []⟩ :=
  ((checksum_detects.1 ⟨0, 0, 0, .commit, []⟩ ⟨0, 2 ^ 16, 0, .commit, []⟩ 2 0 1
    ⟨rfl, ⟨[0, 0], [0, 0, 0, 0, 0, 1], rfl, rfl, rfl⟩, by decide⟩).2 (by decide)).mpr (by decide)

/-- COMMIT records whose transaction ids differ in their highest byte, and SET records whose values differ in the lowest
bit of the last byte. -/
theorem checksum_misses :
    (∃ r r' : InMemoryWALRecord, r.Valid ∧ r'.Valid ∧ r.body = .commit ∧ r'.body = .commit ∧
      (∃ j b b', OneByteOff r r' j b b') ∧ r.checksum = r'.checksum) ∧
    ∃ r r' : InMemoryWALRecord, r.Valid ∧ r'.Valid ∧ r.body = .set ⟨0, 9, 0, 9⟩ ∧ r'.body = .set ⟨0, 9, 0, 9⟩ ∧
      (∃ j b b', OneByteOff r r' j b b') ∧ r.checksum = r'.checksum := by
  refine ⟨⟨withChecksum ⟨0, 0, 0, .commit, []⟩, withChecksum ⟨0, 0, 2 ^ 24, .commit, []⟩, ?_, ?_, rfl, rfl, ⟨7, 0, 1, ?_⟩, ?_⟩,
    withChecksum ⟨0, 1, 1, .set ⟨0, 9, 0, 9⟩, [8, 227, 12, 166, 58, 112, 104, 223, 0]⟩,
    withChecksum ⟨0, 1, 1, .set ⟨0, 9, 0, 9⟩, [8, 227, 12, 166, 58, 112, 104, 223, 1]⟩, ?_, ?_, rfl, rfl, ⟨31, 0, 1, ?_⟩, ?_⟩
  · exact ⟨rfl, by decide, by decide, trivial, rfl⟩
  · exact ⟨rfl, by decide, by decide, trivial, rfl⟩
  · exact ⟨rfl, ⟨[0, 0, 0, 0, 0, 0, 0], [1], rfl, rfl, rfl⟩, by decide⟩
  · decide +kernel
  · exact ⟨rfl, by decide, by decide, ⟨by decide, by decide, by decide, by decide⟩, rfl⟩
  · exact ⟨rfl, by decide, by decide, ⟨by decide, by decide, by decide, by decide⟩, rfl⟩
  · exact ⟨rfl, ⟨leBytes 4 1 ++ leBytes 4 1 ++ [5] ++ leBytes 8 0 ++ leBytes 2 9 ++ leBytes 2 0 ++ leBytes 2 9 ++
      [8, 227, 12, 166, 58, 112, 104, 223], [], rfl, rfl, rfl⟩, by decide⟩
  · decide +kernel

end Load

end DiskMap
