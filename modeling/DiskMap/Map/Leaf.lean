import DiskMap.Map.Pages

namespace DiskMap
open ByteMemory

structure KVEntry where
  key : List UInt8
  value : List UInt8
  deriving DecidableEq

namespace KVEntry

/-- A NUL-terminated key, the length of the value and the value. -/
def encode (e : KVEntry) : List UInt8 := e.key ++ 0 :: (leBytes 8 e.value.length ++ e.value)

def size (e : KVEntry) : Nat := e.key.length + 9 + e.value.length

theorem encode_length (e : KVEntry) : e.encode.length = e.size := by
  simp only [encode, size, List.length_append, List.length_cons, leBytes_length]
  omega

end KVEntry

def encodeEntries (entries : List KVEntry) : List UInt8 := entries.flatMap KVEntry.encode

def entriesSize (entries : List KVEntry) : Nat := (entries.map KVEntry.size).sum

theorem encodeEntries_cons (e : KVEntry) (rest : List KVEntry) :
    encodeEntries (e :: rest) = e.encode ++ encodeEntries rest := rfl

theorem encodeEntries_append (front back : List KVEntry) :
    encodeEntries (front ++ back) = encodeEntries front ++ encodeEntries back := by
  simp [encodeEntries]

theorem encodeEntries_length (entries : List KVEntry) : (encodeEntries entries).length = entriesSize entries := by
  induction entries with
  | nil => rfl
  | cons e rest ih => simp [encodeEntries_cons, entriesSize, e.encode_length, ih]

namespace LeafNodeStartPage

def nextOffset : Nat := 0
def usageOffset : Nat := 8
def entryCountOffset : Nat := 16
def dataOffset : Nat := 18
def capacity : Nat := pageSize - dataOffset

def next (m : Mem) (page : Nat) : Nat := leAt m (page * pageSize + nextOffset) 8
def usage (m : Mem) (page : Nat) : Nat := leAt m (page * pageSize + usageOffset) 8
def entryCount (m : Mem) (page : Nat) : Nat := leAt m (page * pageSize + entryCountOffset) 2

/-- The data section of a leaf in the buffer pool. What stands in memory behind the page depends
on the pool. -/
def data (m : Mem) (page : Nat) (beyond : Mem) : Mem := fun i =>
  if i < capacity then m (page * pageSize + dataOffset + i) else beyond i

end LeafNodeStartPage

open LeafNodeStartPage

/-- `strncmp` with the size of the key finds no difference. -/
def strncmpEqual (leaf : Mem) (pos : Nat) : List UInt8 → Bool
  | [] => true
  | c :: rest => leaf pos == c && (c == 0 || strncmpEqual leaf (pos + 1) rest)

/-- `strlen`, of a string that ends before the page does. -/
def strlen (leaf : Mem) (pos : Nat) : Nat → Nat
  | 0 => 0
  | room + 1 => if leaf pos = 0 then 0 else 1 + strlen leaf (pos + 1) room

/-- The loop of `find_entry_in_leaf`. Each of its iterations gets at least nine bytes further. -/
def findEntryFrom (leaf : Mem) (key : List UInt8) : Nat → Nat → Option Nat
  | 0, _ => none
  | fuel + 1, pos =>
    if capacity ≤ pos then none
    else if leaf pos = 0 then none
    else if strncmpEqual leaf pos key ∧ leaf (pos + key.length) = 0 then some pos
    else
      let keySize := strlen leaf pos (capacity - pos) + 1
      findEntryFrom leaf key fuel (pos + keySize + 8 + leAt leaf (pos + keySize) 8)

def findEntryInLeaf (leaf : Mem) (key : List UInt8) : Option Nat := findEntryFrom leaf key capacity 0

/-- The loop of `get_entries_in_leaf`. -/
def getEntriesFrom (leaf : Mem) : Nat → Nat → List KVEntry
  | 0, _ => []
  | fuel + 1, pos =>
    if capacity ≤ pos then []
    else if leaf pos = 0 then []
    else
      let key := slice leaf pos (strlen leaf pos (capacity - pos))
      let valueLength := leAt leaf (pos + key.length + 1) 8
      let value := slice leaf (pos + key.length + 9) valueLength
      { key, value } :: getEntriesFrom leaf fuel (pos + key.length + 9 + valueLength)

def getEntriesInLeaf (leaf : Mem) : List KVEntry := getEntriesFrom leaf capacity 0

/-- Keys are NUL-terminated, and an empty key ends the entries of a leaf. -/
def NulFree (key : List UInt8) : Prop := key ≠ [] ∧ 0 ∉ key

instance (key : List UInt8) : Decidable (NulFree key) := inferInstanceAs (Decidable (_ ∧ _))

/-- What is left of a key where strings end with the first NUL. -/
def cutNul (key : List UInt8) : List UInt8 := key.takeWhile (· ≠ 0)

theorem cutNul_eq {key : List UInt8} (noNul : 0 ∉ key) : cutNul key = key := by
  induction key with
  | nil => rfl
  | cons c key ih =>
    obtain ⟨first, later⟩ := not_or.mp fun either => noNul (List.mem_cons.mpr either)
    have keeps : decide (c ≠ 0) = true := decide_eq_true (Ne.symm first)
    rw [cutNul, List.takeWhile_cons, keeps, if_pos rfl, ← cutNul, ih later]

/-- Distinct keys that a leaf can hold. -/
structure WellKeyed (entries : List KVEntry) : Prop where
  nulFree : ∀ e ∈ entries, NulFree e.key
  nodup : (entries.map KVEntry.key).Nodup

/-- The keys and the value lengths of the entries stand in the first page of the leaf. -/
def HeadersInside : Nat → List KVEntry → Prop
  | _, [] => True
  | pos, e :: rest => pos + e.key.length + 9 ≤ capacity ∧ e.value.length < 2 ^ 64 ∧ HeadersInside (pos + e.size) rest

/-- Where the entry of a key begins in the encoding. -/
def offsetOf (key : List UInt8) : List KVEntry → Option Nat
  | [] => none
  | e :: rest => if e.key = key then some 0 else (offsetOf key rest).map (e.size + ·)

section Scan

variable {leaf : Mem} {pos room : Nat} {k key : List UInt8}

theorem stored_cons {c : UInt8} (stored : slice leaf pos (c :: k).length = c :: k) :
    leaf pos = c ∧ slice leaf (pos + 1) k.length = k := by
  obtain ⟨first, rest⟩ := slice_split (show slice leaf pos ([c] ++ k).length = [c] ++ k from stored)
  exact ⟨slice_eq_iff.mp first 0 (by simp), rest⟩

theorem strlen_eq (noNul : 0 ∉ k) (stored : slice leaf pos (k ++ [0]).length = k ++ [0]) (inside : k.length < room) :
    strlen leaf pos room = k.length := by
  induction k generalizing pos room with
  | nil =>
    obtain ⟨room, rfl⟩ := Nat.exists_eq_succ_of_ne_zero (Nat.ne_of_gt inside)
    rw [strlen, if_pos (stored_cons stored).1]
    rfl
  | cons c k ih =>
    obtain ⟨room, rfl⟩ := Nat.exists_eq_succ_of_ne_zero (Nat.ne_of_gt (Nat.zero_lt_of_lt inside))
    obtain ⟨notFirst, later⟩ := not_or.mp fun either => noNul (List.mem_cons.mpr either)
    obtain ⟨byte, rest⟩ := stored_cons stored
    rw [strlen, if_neg (by rw [byte]; exact Ne.symm notFirst), ih later rest (by simpa using inside),
      List.length_cons, Nat.add_comm]

/-- A stored key matches exactly itself. -/
theorem match_iff (noNul : 0 ∉ k) (stored : slice leaf pos (k ++ [0]).length = k ++ [0]) (keyNoNul : 0 ∉ key) :
    strncmpEqual leaf pos key ∧ leaf (pos + key.length) = 0 ↔ k = key := by
  induction k generalizing pos key with
  | nil =>
    have nul := (stored_cons stored).1
    cases key with
    | nil => simpa [strncmpEqual] using nul
    | cons c key =>
      have different : ¬ 0 = c := fun same => keyNoNul (same ▸ List.mem_cons_self)
      simp [strncmpEqual, nul, different]
  | cons b k ih =>
    obtain ⟨byte, rest⟩ := stored_cons stored
    obtain ⟨notFirst, later⟩ := not_or.mp fun either => noNul (List.mem_cons.mpr either)
    cases key with
    | nil => simpa [strncmpEqual, byte] using Ne.symm notFirst
    | cons c key =>
      obtain ⟨keyFirst, keyLater⟩ := not_or.mp fun either => keyNoNul (List.mem_cons.mpr either)
      have tail := ih later rest keyLater
      rw [Nat.add_assoc, Nat.add_comm 1] at tail
      simp only [strncmpEqual, byte, List.length_cons, List.cons_eq_cons, ← tail, Bool.and_eq_true, Bool.or_eq_true,
        beq_iff_eq, Ne.symm keyFirst, false_or, and_assoc]

/-- With a key that has a zero byte it is what stands in front of that. -/
theorem match_cut (noNul : 0 ∉ k) (stored : slice leaf pos (k ++ [0]).length = k ++ [0])
    (found : strncmpEqual leaf pos key ∧ leaf (pos + key.length) = 0) : k = cutNul key := by
  induction k generalizing pos key with
  | nil =>
    have nul := (stored_cons stored).1
    cases key with
    | nil => rfl
    | cons c key =>
      have equal := found.1
      simp only [strncmpEqual, Bool.and_eq_true, beq_iff_eq] at equal
      rw [← equal.1, nul]
      rfl
  | cons b k ih =>
    obtain ⟨byte, rest⟩ := stored_cons stored
    obtain ⟨notFirst, later⟩ := not_or.mp fun either => noNul (List.mem_cons.mpr either)
    obtain ⟨equal, ends⟩ := found
    cases key with
    | nil => exact absurd (byte.symm.trans ends).symm notFirst
    | cons c key =>
      simp only [strncmpEqual, byte, Bool.and_eq_true, Bool.or_eq_true, beq_iff_eq] at equal
      obtain ⟨rfl, more⟩ := equal
      rw [List.length_cons, Nat.add_comm key.length, ← Nat.add_assoc] at ends
      rw [cutNul, List.takeWhile_cons_of_pos (by simpa using Ne.symm notFirst), ← cutNul,
        ← ih later rest ⟨more.resolve_left (Ne.symm notFirst), ends⟩]

/-- The parts of the first entry, and what follows it. -/
theorem entry_stored {e : KVEntry} {rest : List KVEntry}
    (holds : Holds leaf pos (capacity - pos) (encodeEntries (e :: rest))) (inside : HeadersInside pos (e :: rest)) :
    slice leaf pos (e.key ++ [0]).length = e.key ++ [0] ∧ leAt leaf (pos + e.key.length + 1) 8 = e.value.length ∧
      Holds leaf (pos + e.key.length + 9) (capacity - (pos + e.key.length + 9)) (e.value ++ encodeEntries rest) ∧
      Holds leaf (pos + e.size) (capacity - (pos + e.size)) (encodeEntries rest) := by
  obtain ⟨header, small, _⟩ := inside
  have shape : encodeEntries (e :: rest) = (e.key ++ [0]) ++ (leBytes 8 e.value.length ++ (e.value ++ encodeEntries rest)) := by
    simp [encodeEntries_cons, KVEntry.encode]
  rw [shape] at holds
  have afterKey := holds.drop
  have afterLength := afterKey.drop
  have afterValue := afterLength.drop
  have keyLength : (e.key ++ [0]).length = e.key.length + 1 := by simp
  rw [keyLength] at afterKey afterLength afterValue
  rw [leBytes_length, ← Nat.add_assoc] at afterLength afterValue
  refine ⟨holds.slice (by rw [keyLength]; omega), leAt_of_slice small (afterKey.slice (by rw [leBytes_length]; omega)), ?_, ?_⟩
  · rw [show pos + e.key.length + 9 = pos + e.key.length + 1 + 8 by omega,
      show capacity - (pos + e.key.length + 1 + 8) = capacity - pos - (e.key.length + 1) - 8 by omega]
    exact afterLength
  · rw [show pos + e.size = pos + e.key.length + 1 + 8 + e.value.length by unfold KVEntry.size; omega,
      show capacity - (pos + e.key.length + 1 + 8 + e.value.length) =
        capacity - pos - (e.key.length + 1) - 8 - e.value.length by omega]
    exact afterValue

/-- The same about an entry behind others. -/
theorem entry_stored_at {e : KVEntry} {front back : List KVEntry}
    (holds : Holds leaf pos (capacity - pos) (encodeEntries (front ++ e :: back))) (inside : HeadersInside pos (front ++ e :: back)) :
    pos + entriesSize front + e.key.length + 9 ≤ capacity ∧ e.value.length < 2 ^ 64 ∧
      leAt leaf (pos + entriesSize front + e.key.length + 1) 8 = e.value.length ∧
      Holds leaf (pos + entriesSize front + e.key.length + 9) (capacity - (pos + entriesSize front + e.key.length + 9))
        (e.value ++ encodeEntries back) := by
  induction front generalizing pos with
  | nil =>
    obtain ⟨_, length, value, _⟩ := entry_stored holds inside
    exact ⟨inside.1, inside.2.1, length, value⟩
  | cons first front ih =>
    have later := ih (entry_stored holds inside).2.2.2 inside.2.2
    have size : entriesSize (first :: front) = first.size + entriesSize front := by simp [entriesSize]
    rw [size, ← Nat.add_assoc]
    exact later

theorem HeadersInside.length_le {entries : List KVEntry} (inside : HeadersInside pos entries) :
    entries = [] ∨ pos + entries.length ≤ capacity := by
  induction entries generalizing pos with
  | nil => exact Or.inl rfl
  | cons e rest ih =>
    obtain ⟨header, _, later⟩ := inside
    have size : pos + e.size = pos + (e.key.length + 9 + e.value.length) := rfl
    rcases ih later with rfl | bound
    · exact Or.inr (by simp; omega)
    · exact Or.inr (by simp only [List.length_cons]; omega)

theorem HeadersInside.length_le_capacity {entries : List KVEntry} (inside : HeadersInside pos entries) : entries.length ≤ capacity := by
  rcases inside.length_le with rfl | bound
  · exact Nat.zero_le _
  · omega

theorem entry_first {e : KVEntry} {rest : List KVEntry} (holds : Holds leaf pos (capacity - pos) (encodeEntries (e :: rest)))
    (inside : HeadersInside pos (e :: rest)) (noNul : NulFree e.key) : leaf pos ≠ 0 := by
  obtain ⟨stored, _⟩ := entry_stored holds inside
  obtain ⟨nonempty, free⟩ := noNul
  obtain ⟨c, k, shape⟩ := List.exists_cons_of_ne_nil nonempty
  rw [shape] at stored free
  rw [(stored_cons stored).1]
  exact fun zero => free (zero ▸ List.mem_cons_self)

theorem findEntryFrom_end {fuel : Nat} (holds : Holds leaf pos (capacity - pos) (encodeEntries [])) (key : List UInt8) :
    findEntryFrom leaf key fuel pos = none := by
  cases fuel with
  | zero => rfl
  | succ fuel =>
    rw [findEntryFrom]
    split
    · rfl
    · have ends : leaf pos = 0 := holds 0 (by omega)
      rw [if_pos ends]

/-- The loop goes on behind an entry that does not match. -/
theorem findEntryFrom_next {e : KVEntry} {rest : List KVEntry} {fuel : Nat} (holds : Holds leaf pos (capacity - pos) (encodeEntries (e :: rest)))
    (inside : HeadersInside pos (e :: rest)) (noNul : NulFree e.key) (other : ¬(strncmpEqual leaf pos key ∧ leaf (pos + key.length) = 0)) :
    findEntryFrom leaf key (fuel + 1) pos = findEntryFrom leaf key fuel (pos + e.size) := by
  obtain ⟨stored, length, _⟩ := entry_stored holds inside
  have header := inside.1
  rw [findEntryFrom, if_neg (by omega), if_neg (entry_first holds inside noNul), if_neg other]
  simp only [strlen_eq noNul.2 stored (show e.key.length < capacity - pos by omega), ← Nat.add_assoc, length]
  have next : pos + e.key.length + 1 + 8 + e.value.length = pos + e.size := by unfold KVEntry.size; omega
  rw [next]

theorem findEntryFrom_eq {entries : List KVEntry} {fuel : Nat} (enough : entries.length ≤ fuel)
    (holds : Holds leaf pos (capacity - pos) (encodeEntries entries)) (inside : HeadersInside pos entries)
    (keys : ∀ e ∈ entries, NulFree e.key) (noNul : 0 ∉ key) :
    findEntryFrom leaf key fuel pos = (offsetOf key entries).map (pos + ·) := by
  induction entries generalizing pos fuel with
  | nil => exact findEntryFrom_end holds key
  | cons e rest ih =>
    obtain ⟨fuel, rfl⟩ := Nat.exists_eq_succ_of_ne_zero (Nat.ne_of_gt (Nat.zero_lt_of_lt enough))
    have first := keys e List.mem_cons_self
    obtain ⟨stored, _, _, later⟩ := entry_stored holds inside
    have header := inside.1
    rw [offsetOf]
    split
    · rename_i found
      rw [findEntryFrom, if_neg (by omega), if_neg (entry_first holds inside first), if_pos ((match_iff first.2 stored noNul).mpr found)]
      rfl
    · rename_i different
      rw [findEntryFrom_next holds inside first fun same => different ((match_iff first.2 stored noNul).mp same),
        ih (by simpa using enough) later inside.2.2 fun e' member => keys e' (List.mem_cons_of_mem _ member)]
      cases offsetOf key rest with
      | none => rfl
      | some offset => exact congrArg some (Nat.add_assoc _ _ _)

theorem findEntryFrom_cut {entries : List KVEntry} {fuel : Nat} (enough : entries.length ≤ fuel)
    (holds : Holds leaf pos (capacity - pos) (encodeEntries entries)) (inside : HeadersInside pos entries)
    (keys : ∀ e ∈ entries, NulFree e.key) (absent : ∀ e ∈ entries, e.key ≠ cutNul key) : findEntryFrom leaf key fuel pos = none := by
  induction entries generalizing pos fuel with
  | nil => exact findEntryFrom_end holds key
  | cons e rest ih =>
    obtain ⟨fuel, rfl⟩ := Nat.exists_eq_succ_of_ne_zero (Nat.ne_of_gt (Nat.zero_lt_of_lt enough))
    have first := keys e List.mem_cons_self
    obtain ⟨stored, _, _, later⟩ := entry_stored holds inside
    rw [findEntryFrom_next holds inside first fun same => absent e List.mem_cons_self (match_cut first.2 stored same)]
    exact ih (by simpa using enough) later inside.2.2 (fun e' member => keys e' (List.mem_cons_of_mem _ member))
      fun e' member => absent e' (List.mem_cons_of_mem _ member)

/-- The first entry that `get_entries_in_leaf` copies. -/
theorem getEntriesFrom_cons {e : KVEntry} {rest : List KVEntry} (holds : Holds leaf pos (capacity - pos) (encodeEntries (e :: rest)))
    (inside : HeadersInside pos (e :: rest)) (noNul : NulFree e.key) (fuel : Nat) :
    getEntriesFrom leaf (fuel + 1) pos =
      ⟨e.key, slice leaf (pos + e.key.length + 9) e.value.length⟩ :: getEntriesFrom leaf fuel (pos + e.size) := by
  obtain ⟨stored, length, _⟩ := entry_stored holds inside
  have header := inside.1
  have keySize := strlen_eq noNul.2 stored (show e.key.length < capacity - pos by omega)
  obtain ⟨key, _⟩ := slice_split stored
  rw [getEntriesFrom, if_neg (by omega), if_neg (entry_first holds inside noNul), keySize, key]
  simp only [length]
  have next : pos + e.key.length + 9 + e.value.length = pos + e.size := by unfold KVEntry.size; omega
  rw [next]

theorem getEntriesFrom_eq {entries : List KVEntry} {fuel : Nat} (enough : entries.length ≤ fuel)
    (holds : Holds leaf pos (capacity - pos) (encodeEntries entries)) (fits : pos + entriesSize entries ≤ capacity)
    (inside : HeadersInside pos entries) (keys : ∀ e ∈ entries, NulFree e.key) : getEntriesFrom leaf fuel pos = entries := by
  induction entries generalizing pos fuel with
  | nil =>
    cases fuel with
    | zero => rfl
    | succ fuel =>
      rw [getEntriesFrom]
      split
      · rfl
      · have ends : leaf pos = 0 := holds 0 (by omega)
        rw [if_pos ends]
  | cons e rest ih =>
    obtain ⟨fuel, rfl⟩ := Nat.exists_eq_succ_of_ne_zero (Nat.ne_of_gt (Nat.zero_lt_of_lt enough))
    obtain ⟨_, _, value, later⟩ := entry_stored holds inside
    have size : e.size = e.key.length + 9 + e.value.length := rfl
    have total : entriesSize (e :: rest) = e.size + entriesSize rest := by simp [entriesSize]
    rw [getEntriesFrom_cons holds inside (keys e List.mem_cons_self), value.slice (by omega),
      ih (by simpa using enough) later (by omega) inside.2.2 fun e' member => keys e' (List.mem_cons_of_mem _ member)]

/-- `find_entry_in_leaf` finds the keys that are in the leaf, and no other. -/
theorem findEntryInLeaf_eq {entries : List KVEntry} (holds : Holds leaf 0 capacity (encodeEntries entries))
    (inside : HeadersInside 0 entries) (keys : ∀ e ∈ entries, NulFree e.key) (noNul : 0 ∉ key) :
    findEntryInLeaf leaf key = offsetOf key entries := by
  rw [findEntryInLeaf, findEntryFrom_eq inside.length_le_capacity holds inside keys noNul]
  cases offsetOf key entries <;> simp

/-- A key is found only in front of a NUL that ends a key of the leaf. -/
theorem findEntryInLeaf_cut {entries : List KVEntry} (holds : Holds leaf 0 capacity (encodeEntries entries))
    (inside : HeadersInside 0 entries) (keys : ∀ e ∈ entries, NulFree e.key) (absent : ∀ e ∈ entries, e.key ≠ cutNul key) :
    findEntryInLeaf leaf key = none :=
  findEntryFrom_cut inside.length_le_capacity holds inside keys absent

end Scan

section Offsets

variable {key : List UInt8} {entries : List KVEntry} {offset : Nat}

theorem offsetOf_eq_none : offsetOf key entries = none ↔ key ∉ entries.map KVEntry.key := by
  induction entries with
  | nil => simp [offsetOf]
  | cons e rest ih =>
    rw [offsetOf]
    by_cases same : e.key = key
    · simp [same]
    · rw [if_neg same, Option.map_eq_none_iff, ih, List.map_cons, List.mem_cons, not_or]
      exact ⟨fun later => ⟨Ne.symm same, later⟩, fun both => both.2⟩

theorem entriesSize_cons (e : KVEntry) (rest : List KVEntry) : entriesSize (e :: rest) = e.size + entriesSize rest := by
  simp [entriesSize]

theorem entriesSize_append (front back : List KVEntry) :
    entriesSize (front ++ back) = entriesSize front + entriesSize back := by
  simp [entriesSize]

/-- The entry that stands at the offset of a key. -/
theorem offsetOf_eq_some (found : offsetOf key entries = some offset) :
    ∃ front value back, entries = front ++ ⟨key, value⟩ :: back ∧ entriesSize front = offset ∧
      key ∉ front.map KVEntry.key := by
  induction entries generalizing offset with
  | nil => cases found
  | cons e rest ih =>
    rw [offsetOf] at found
    split at found
    · rename_i same
      cases Option.some.inj found
      exact ⟨[], e.value, rest, by rw [← same]; rfl, rfl, List.not_mem_nil⟩
    · rename_i different
      obtain ⟨later, foundLater, rfl⟩ := Option.map_eq_some_iff.mp found
      obtain ⟨front, value, back, shape, size, absent⟩ := ih foundLater
      refine ⟨e :: front, value, back, by rw [shape]; rfl, by rw [entriesSize_cons, size], ?_⟩
      rw [List.map_cons, List.mem_cons, not_or]
      exact ⟨Ne.symm different, absent⟩

theorem HeadersInside.of_fits {pos : Nat} (fits : pos + entriesSize entries ≤ capacity) : HeadersInside pos entries := by
  induction entries generalizing pos with
  | nil => trivial
  | cons e rest ih =>
    rw [entriesSize_cons] at fits
    have size : e.size = e.key.length + 9 + e.value.length := rfl
    have room : capacity < 2 ^ 64 := by decide
    exact ⟨by omega, by omega, ih (by omega)⟩

theorem entries_few (fits : entriesSize entries ≤ capacity) : entries.length < 2 ^ 16 := by
  have inside := HeadersInside.of_fits (show 0 + entriesSize entries ≤ capacity by omega)
  exact inside.length_le_capacity.trans_lt (by decide)

end Offsets

/-- A leaf without continuation regions: its entries and, behind them, zeros. -/
structure SinglePage (m : Mem) (page : Nat) (entries : List KVEntry) : Prop where
  next : LeafNodeStartPage.next m page = 0
  usage : LeafNodeStartPage.usage m page = entriesSize entries
  entryCount : LeafNodeStartPage.entryCount m page = entries.length
  fits : entriesSize entries ≤ capacity
  content : Holds m (page * pageSize + dataOffset) capacity (encodeEntries entries)

theorem data_holds_iff {m : Mem} {page : Nat} {beyond : Mem} {bytes : List UInt8} :
    Holds (data m page beyond) 0 capacity bytes ↔ Holds m (page * pageSize + dataOffset) capacity bytes := by
  have same : ∀ i, i < capacity → data m page beyond (0 + i) = m (page * pageSize + dataOffset + i) := fun i within => by
    rw [Nat.zero_add, data, if_pos within]
  exact ⟨fun holds i within => (same i within).symm.trans (holds i within), fun holds i within => (same i within).trans (holds i within)⟩

theorem SinglePage.findEntryInLeaf_eq {m : Mem} {page : Nat} {entries : List KVEntry} {key : List UInt8} {beyond : Mem}
    (leaf : SinglePage m page entries) (keys : WellKeyed entries) (noNul : 0 ∉ key) :
    findEntryInLeaf (data m page beyond) key = offsetOf key entries :=
  DiskMap.findEntryInLeaf_eq (data_holds_iff.mpr leaf.content) (.of_fits (by rw [Nat.zero_add]; exact leaf.fits)) keys.nulFree noNul

end DiskMap
