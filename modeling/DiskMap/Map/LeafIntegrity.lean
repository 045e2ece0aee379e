import DiskMap.Map.Leaf

namespace DiskMap
open ByteMemory LeafNodeStartPage

/-- How far a call of `validate_leaf_integrity` has come. `outside` stands for reading a byte that is not in the page. -/
inductive Validation
  | accepts
  | throws (message : String)
  | outside
  | running
  deriving DecidableEq

/-- The address at which a page stands in the buffer pool. -/
structure PoolFrame where
  base : Nat
  inside : base + pageSize < 2 ^ 64

def allZero (leaf : Mem) (pos : Nat) : Nat → Bool
  | 0 => true
  | room + 1 => leaf pos == 0 && allZero leaf (pos + 1) room

/-- What comes after the loop over the entries. -/
def checkRest (leaf : Mem) (pos entryCount : Nat) : Validation :=
  if allZero leaf pos (pageSize - pos) = false then .throws "Leaf corruption: unused space not zeroed"
  else if leAt leaf entryCountOffset 2 ≠ entryCount then .throws "Leaf corruption: entry_count mismatch"
  else .accepts

/-- The loop over the entries, whose pointer is a 64-bit address. Of a string without a NUL in the page `strnlen` finds
the length up to its end. -/
def validateFrom (leaf : Mem) (base : Nat) : Nat → Nat → Nat → Validation
  | 0, _, _ => .running
  | fuel + 1, ptr, entryCount =>
    if base + pageSize ≤ ptr then checkRest leaf pageSize entryCount
    else if ptr < base then .outside
    else
      let pos := ptr - base
      if leaf pos = 0 then checkRest leaf pos entryCount
      else
        let maxKeyLen := pageSize - pos
        let keyLen := strlen leaf pos maxKeyLen
        if keyLen = maxKeyLen then .throws "Leaf corruption: key overruns page boundary"
        else
          let pos := pos + keyLen + 1
          if pageSize < pos + 8 then .throws "Leaf corruption: value_length field overruns page boundary"
          else
            let valueLength := leAt leaf pos 8
            validateFrom leaf base fuel ((base + pos + 8 + valueLength) % 2 ^ 64) (entryCount + 1)

/-- `leaf` holds the bytes of the page, from its header on. -/
def validateLeafIntegrity (leaf : Mem) (frame : PoolFrame) (fuel : Nat) : Validation :=
  validateFrom leaf frame.base fuel (frame.base + dataOffset) 0

/-- The data section of a page. -/
def content (leaf : Mem) : Mem := fun i => leaf (dataOffset + i)

/-- From `pos` on the data section is the encoding of these entries, followed by zeros. Only the last value may run past
the end of the page. -/
structure Encodes (leaf : Mem) (pos : Nat) (entries : List KVEntry) : Prop where
  keys : ∀ e ∈ entries, NulFree e.key
  inside : HeadersInside pos entries
  holds : Holds (content leaf) pos (capacity - pos) (encodeEntries entries)

/-- A page as `validate_leaf_integrity` is meant to accept it. -/
structure ValidLeaf (leaf : Mem) (entries : List KVEntry) : Prop where
  encodes : Encodes leaf 0 entries
  entryCount : leAt leaf entryCountOffset 2 = entries.length
  next : capacity < entriesSize entries → leAt leaf nextOffset 8 ≠ 0

section Walk

variable {leaf : Mem} {pos room : Nat} {entries rest : List KVEntry} {e : KVEntry}

theorem allZero_iff : allZero leaf pos room ↔ ∀ i, i < room → leaf (pos + i) = 0 := by
  induction room generalizing pos with
  | zero => exact ⟨fun _ i impossible => absurd impossible (Nat.not_lt_zero i), fun _ => rfl⟩
  | succ room ih =>
    rw [allZero, Bool.and_eq_true, beq_iff_eq, ih]
    constructor
    · rintro ⟨first, later⟩ i within
      cases i with
      | zero => exact first
      | succ i =>
        have byte := later i (by omega)
        rwa [Nat.add_assoc, Nat.add_comm 1] at byte
    · intro all
      refine ⟨all 0 (Nat.zero_lt_succ room), fun i within => ?_⟩
      rw [Nat.add_assoc, Nat.add_comm 1]
      exact all (i + 1) (by omega)

theorem content_strlen : strlen leaf (dataOffset + pos) room = strlen (content leaf) pos room := by
  induction room generalizing pos with
  | zero => rfl
  | succ room ih => rw [strlen, strlen, Nat.add_assoc, ih]; rfl

theorem content_leAt (width : Nat) : leAt leaf (dataOffset + pos) width = leAt (content leaf) pos width :=
  congrArg leNat (List.map_congr_left fun i _ => by rw [content, Nat.add_assoc])

theorem capacity_data : dataOffset + capacity = pageSize := by decide

theorem strlen_le : strlen leaf pos room ≤ room := by
  induction room generalizing pos with
  | zero => exact le_rfl
  | succ room ih =>
    rw [strlen]
    split
    · exact Nat.zero_le _
    · have later := @ih (pos + 1)
      omega

/-- A string that ends in the page has no NUL before its end. -/
theorem strlen_spec (ends : strlen leaf pos room < room) :
    (∀ i, i < strlen leaf pos room → leaf (pos + i) ≠ 0) ∧ leaf (pos + strlen leaf pos room) = 0 := by
  induction room generalizing pos with
  | zero => exact absurd ends (Nat.not_lt_zero _)
  | succ room ih =>
    rw [strlen] at ends ⊢
    by_cases first : leaf pos = 0
    · rw [if_pos first]
      exact ⟨fun i impossible => absurd impossible (Nat.not_lt_zero i), first⟩
    · rw [if_neg first] at ends ⊢
      obtain ⟨free, last⟩ := @ih (pos + 1) (by omega)
      refine ⟨fun i within => ?_, by rw [← Nat.add_assoc]; exact last⟩
      cases i with
      | zero => exact first
      | succ i =>
        have byte := free i (by omega)
        rwa [Nat.add_assoc, Nat.add_comm 1] at byte

theorem checkRest_iff {entryCount : Nat} (within : pos ≤ capacity) : checkRest leaf (dataOffset + pos) entryCount = .accepts ↔
    Holds (content leaf) pos (capacity - pos) [] ∧ leAt leaf entryCountOffset 2 = entryCount := by
  have room : pageSize - (dataOffset + pos) = capacity - pos := by rw [← capacity_data]; omega
  have zeros : allZero leaf (dataOffset + pos) (capacity - pos) ↔ Holds (content leaf) pos (capacity - pos) [] := by
    rw [allZero_iff]
    refine forall₂_congr fun i _ => ?_
    rw [content, Nat.add_assoc, List.getD_nil]
  rw [checkRest, room, ← zeros]
  cases allZero leaf (dataOffset + pos) (capacity - pos) with
  | false => simp
  | true => by_cases same : leAt leaf entryCountOffset 2 = entryCount <;> simp [same]

theorem checkRest_ends (leaf : Mem) (pos entryCount : Nat) :
    checkRest leaf pos entryCount ≠ .running ∧ checkRest leaf pos entryCount ≠ .outside := by
  unfold checkRest
  split
  · exact ⟨nofun, nofun⟩
  · split
    · exact ⟨nofun, nofun⟩
    · exact ⟨nofun, nofun⟩

theorem checkRest_end_iff {entryCount : Nat} : checkRest leaf pageSize entryCount = .accepts ↔ leAt leaf entryCountOffset 2 = entryCount := by
  have iff_ : checkRest leaf (dataOffset + capacity) entryCount = .accepts ↔ _ := checkRest_iff (le_refl capacity)
  rw [capacity_data] at iff_
  rw [iff_, Nat.sub_self]
  exact and_iff_right fun i impossible => absurd impossible (Nat.not_lt_zero i)

variable {base fuel entryCount : Nat}

/-- One round of the loop, inside the data section. -/
theorem validateFrom_inside (within : pos < capacity) :
    validateFrom leaf base (fuel + 1) (base + (dataOffset + pos)) entryCount =
      if content leaf pos = 0 then checkRest leaf (dataOffset + pos) entryCount
      else if strlen (content leaf) pos (capacity - pos) = capacity - pos then
        .throws "Leaf corruption: key overruns page boundary"
      else if capacity < pos + strlen (content leaf) pos (capacity - pos) + 9 then
        .throws "Leaf corruption: value_length field overruns page boundary"
      else
        validateFrom leaf base fuel ((base + (dataOffset + (pos + strlen (content leaf) pos (capacity - pos) + 9 +
          leAt (content leaf) (pos + strlen (content leaf) pos (capacity - pos) + 1) 8))) % 2 ^ 64) (entryCount + 1) := by
  have page := capacity_data
  have room : pageSize - (dataOffset + pos) = capacity - pos := by omega
  rw [validateFrom, if_neg (by omega), if_neg (by omega)]
  simp only [Nat.add_sub_cancel_left, room, content_strlen]
  generalize strlen (content leaf) pos (capacity - pos) = keyLen
  have after : dataOffset + pos + keyLen + 1 = dataOffset + (pos + keyLen + 1) := by omega
  rw [after, content_leAt]
  generalize leAt (content leaf) (pos + keyLen + 1) 8 = valueLength
  refine if_congr Iff.rfl rfl (if_congr Iff.rfl rfl (if_congr (by omega) rfl ?_))
  rw [show base + (dataOffset + (pos + keyLen + 1)) + 8 + valueLength = base + (dataOffset + (pos + keyLen + 9 + valueLength)) by omega]

/-- Behind the page the loop is over. -/
theorem validateFrom_behind (behind : capacity ≤ pos) :
    validateFrom leaf base (fuel + 1) (base + (dataOffset + pos)) entryCount = checkRest leaf pageSize entryCount := by
  have page := capacity_data
  rw [validateFrom, if_pos (by omega)]

end Walk

namespace Encodes

variable {leaf : Mem} {pos base fuel entryCount : Nat} {entries entries' rest : List KVEntry} {e : KVEntry}

theorem tail (encodes : Encodes leaf pos (e :: rest)) : Encodes leaf (pos + e.size) rest where
  keys e' member := encodes.keys e' (List.mem_cons_of_mem _ member)
  inside := encodes.inside.2.2
  holds := (entry_stored encodes.holds encodes.inside).2.2.2

/-- The parts of the first entry as the loop finds them. -/
theorem head (encodes : Encodes leaf pos (e :: rest)) : pos < capacity ∧ content leaf pos ≠ 0 ∧
    strlen (content leaf) pos (capacity - pos) = e.key.length ∧ leAt (content leaf) (pos + e.key.length + 1) 8 = e.value.length ∧
      pos + e.key.length + 9 ≤ capacity := by
  have noNul := encodes.keys e List.mem_cons_self
  have header := encodes.inside.1
  obtain ⟨stored, length, _⟩ := entry_stored encodes.holds encodes.inside
  exact ⟨by omega, entry_first encodes.holds encodes.inside noNul, strlen_eq noNul.2 stored (by omega), length, header⟩

theorem step (encodes : Encodes leaf pos (e :: rest)) :
    validateFrom leaf base (fuel + 1) (base + (dataOffset + pos)) entryCount =
      validateFrom leaf base fuel ((base + (dataOffset + (pos + e.size))) % 2 ^ 64) (entryCount + 1) := by
  obtain ⟨within, first, keyLen, valueLength, header⟩ := encodes.head
  rw [validateFrom_inside within, if_neg first, keyLen, if_neg (by omega), if_neg (by omega), valueLength]
  rw [show pos + e.key.length + 9 + e.value.length = pos + e.size by unfold KVEntry.size; omega]

/-- All entries but the last one end inside the page. -/
theorem run (frame : PoolFrame) (encodes : Encodes leaf pos entries) (some_ : entries ≠ []) :
    validateFrom leaf frame.base (fuel + entries.length) (frame.base + (dataOffset + pos)) entryCount =
      validateFrom leaf frame.base fuel ((frame.base + (dataOffset + (pos + entriesSize entries))) % 2 ^ 64) (entryCount + entries.length) := by
  induction entries generalizing pos entryCount with
  | nil => exact absurd rfl some_
  | cons e rest ih =>
    rw [List.length_cons, ← Nat.add_assoc, encodes.step, entriesSize_cons]
    cases rest with
    | nil => rfl
    | cons e' more =>
      have next := encodes.tail.head.1
      have page := capacity_data
      have inside := frame.inside
      rw [Nat.mod_eq_of_lt (by omega), ih encodes.tail (List.cons_ne_nil _ _), Nat.add_assoc, Nat.add_right_comm entryCount, ← Nat.add_assoc entryCount]

/-- The stored lengths determine how many entries there are, and where they end. -/
theorem unique (encodes : Encodes leaf pos entries) (encodes' : Encodes leaf pos entries') :
    entries.length = entries'.length ∧ entriesSize entries = entriesSize entries' := by
  induction entries generalizing pos entries' with
  | nil =>
    cases entries' with
    | nil => exact ⟨rfl, rfl⟩
    | cons e' rest' =>
      obtain ⟨within, first, _⟩ := encodes'.head
      exact absurd (encodes.holds 0 (by omega)) first
  | cons e rest ih =>
    obtain ⟨within, first, keyLen, valueLength, _⟩ := encodes.head
    cases entries' with
    | nil => exact absurd (encodes'.holds 0 (by omega)) first
    | cons e' rest' =>
      obtain ⟨_, _, keyLen', valueLength', _⟩ := encodes'.head
      have keys : e.key.length = e'.key.length := keyLen.symm.trans keyLen'
      have values : e.value.length = e'.value.length := by
        rw [keys] at valueLength
        exact valueLength.symm.trans valueLength'
      have size : e.size = e'.size := by rw [KVEntry.size, KVEntry.size, keys, values]
      obtain ⟨lengths, sizes⟩ := ih encodes.tail (size ▸ encodes'.tail)
      rw [List.length_cons, List.length_cons, entriesSize_cons, entriesSize_cons]
      omega

theorem nil_iff : Encodes leaf pos [] ↔ Holds (content leaf) pos (capacity - pos) [] :=
  ⟨fun encodes => encodes.holds, fun holds => ⟨fun _ member => absurd member List.not_mem_nil, trivial, holds⟩⟩

theorem nil_behind (behind : capacity ≤ pos) : Encodes leaf pos [] := by
  refine nil_iff.mpr fun i within => ?_
  omega

end Encodes

/-- The entry whose header stands at `pos`. -/
def entryAt (leaf : Mem) (pos : Nat) : KVEntry :=
  let keyLen := strlen (content leaf) pos (capacity - pos)
  { key := slice (content leaf) pos keyLen
    value := slice (content leaf) (pos + keyLen + 9) (leAt (content leaf) (pos + keyLen + 1) 8) }

section Classify

variable {leaf : Mem} {pos fuel entryCount : Nat} {entries rest : List KVEntry}

theorem entryAt_size : (entryAt leaf pos).size = strlen (content leaf) pos (capacity - pos) + 9 +
    leAt (content leaf) (pos + strlen (content leaf) pos (capacity - pos) + 1) 8 := by
  rw [KVEntry.size, entryAt, slice_length, slice_length]

/-- The bytes of the page are the encoding of this entry. -/
theorem entryAt_encode (ends : strlen (content leaf) pos (capacity - pos) < capacity - pos) :
    slice (content leaf) pos (entryAt leaf pos).encode.length = (entryAt leaf pos).encode := by
  obtain ⟨_, nul⟩ := strlen_spec ends
  rw [KVEntry.encode_length, entryAt_size, KVEntry.encode, entryAt]
  dsimp only
  generalize strlen (content leaf) pos (capacity - pos) = keyLen at nul
  have length : slice (content leaf) (pos + keyLen + 1) 8 = leBytes 8 (leAt (content leaf) (pos + keyLen + 1) 8) := by
    have bytes := leBytes_leNat (slice (content leaf) (pos + keyLen + 1) 8)
    rw [slice_length] at bytes
    exact bytes.symm
  have last : slice (content leaf) (pos + keyLen) 1 = [0] := by
    rw [← nul]
    rfl
  rw [slice_length, ← length, show keyLen + 9 + leAt (content leaf) (pos + keyLen + 1) 8 =
    keyLen + (1 + (8 + leAt (content leaf) (pos + keyLen + 1) 8)) by omega, slice_append, slice_append, slice_append, last]
  rw [show pos + keyLen + 1 + 8 = pos + keyLen + 9 by omega]
  rfl

/-- An entry that the loop steps over. -/
theorem Encodes.cons (some_ : content leaf pos ≠ 0) (ends : strlen (content leaf) pos (capacity - pos) < capacity - pos)
    (header : pos + strlen (content leaf) pos (capacity - pos) + 9 ≤ capacity) (later : Encodes leaf (pos + (entryAt leaf pos).size) rest) :
    Encodes leaf pos (entryAt leaf pos :: rest) where
  keys e member := by
    rcases List.mem_cons.mp member with rfl | inRest
    · obtain ⟨free, nul⟩ := strlen_spec ends
      refine ⟨fun empty => some_ ?_, fun zero => ?_⟩
      · have none_ : strlen (content leaf) pos (capacity - pos) = 0 :=
          (slice_length (content leaf) pos _).symm.trans (List.length_eq_zero_iff.mpr empty)
        rwa [none_] at nul
      · obtain ⟨i, within, byte⟩ := List.mem_map.mp zero
        exact free i (List.mem_range.mp within) byte
    · exact later.keys e inRest
  inside := by
    refine ⟨by rw [entryAt, slice_length]; exact header, ?_, later.inside⟩
    rw [entryAt, slice_length]
    exact leAt_lt _ _ 8
  holds := by
    refine .append (entryAt_encode ends) ?_
    have back := later.holds
    rw [KVEntry.encode_length, Nat.sub_sub]
    exact back

/-- While no length brings the pointer around the end of the address space, the loop ends inside the page, and accepts
what is encoded there. -/
theorem validateFrom_classified (frame : PoolFrame)
    (noWrap : ∀ entries, Encodes leaf pos entries → capacity < pos + entriesSize entries →
      frame.base + (dataOffset + (pos + entriesSize entries)) < 2 ^ 64)
    (enough : capacity < pos + fuel) (some_ : 0 < fuel) :
    let outcome := validateFrom leaf frame.base fuel (frame.base + (dataOffset + pos)) entryCount
    outcome ≠ .running ∧ outcome ≠ .outside ∧
      (outcome = .accepts ↔ ∃ entries, Encodes leaf pos entries ∧ leAt leaf entryCountOffset 2 = entryCount + entries.length) := by
  induction fuel generalizing pos entryCount with
  | zero => exact absurd some_ (Nat.lt_irrefl 0)
  | succ fuel ih =>
    intro outcome
    have nothing : ∀ message, (∀ e rest, ¬ Encodes leaf pos (e :: rest)) → content leaf pos ≠ 0 → pos < capacity →
        outcome = .throws message → outcome ≠ .running ∧ outcome ≠ .outside ∧
          (outcome = .accepts ↔ ∃ entries, Encodes leaf pos entries ∧ leAt leaf entryCountOffset 2 = entryCount + entries.length) := by
      intro message no_entry first within is
      rw [is]
      refine ⟨nofun, nofun, nofun, fun ⟨entries, encodes, _⟩ => ?_⟩
      cases entries with
      | nil => exact absurd (encodes.holds 0 (by omega)) first
      | cons e rest => exact absurd encodes (no_entry e rest)
    by_cases behind : capacity ≤ pos
    · have is : outcome = checkRest leaf pageSize entryCount := validateFrom_behind behind
      obtain ⟨ended, inside⟩ := checkRest_ends leaf pageSize entryCount
      rw [is]
      refine ⟨ended, inside, checkRest_end_iff.trans ⟨fun count => ⟨[], .nil_behind behind, count⟩, fun ⟨entries, encodes, count⟩ => ?_⟩⟩
      cases entries with
      | nil => exact count
      | cons e rest => exact absurd encodes.head.1 (Nat.not_lt.mpr behind)
    have within := Nat.not_le.mp behind
    have is : outcome = _ := validateFrom_inside within
    by_cases first : content leaf pos = 0
    · rw [if_pos first] at is
      obtain ⟨ended, inside⟩ := checkRest_ends leaf (dataOffset + pos) entryCount
      rw [is]
      refine ⟨ended, inside, (checkRest_iff within.le).trans
        ⟨fun ⟨zeros, count⟩ => ⟨[], Encodes.nil_iff.mpr zeros, count⟩, fun ⟨entries, encodes, count⟩ => ?_⟩⟩
      cases entries with
      | nil => exact ⟨encodes.holds, count⟩
      | cons e rest => exact absurd first encodes.head.2.1
    rw [if_neg first] at is
    by_cases overrun : strlen (content leaf) pos (capacity - pos) = capacity - pos
    · rw [if_pos overrun] at is
      refine nothing _ (fun e rest encodes => ?_) first within is
      obtain ⟨_, _, keyLen, _, header⟩ := encodes.head
      omega
    rw [if_neg overrun] at is
    by_cases short : capacity < pos + strlen (content leaf) pos (capacity - pos) + 9
    · rw [if_pos short] at is
      refine nothing _ (fun e rest encodes => ?_) first within is
      obtain ⟨_, _, keyLen, _, header⟩ := encodes.head
      omega
    rw [if_neg short] at is
    have ends : strlen (content leaf) pos (capacity - pos) < capacity - pos := lt_of_le_of_ne strlen_le overrun
    have cons : ∀ rest, Encodes leaf (pos + (entryAt leaf pos).size) rest → Encodes leaf pos (entryAt leaf pos :: rest) :=
      fun rest later => .cons first ends (Nat.not_lt.mp short) later
    have size := @entryAt_size leaf pos
    have next : pos + strlen (content leaf) pos (capacity - pos) + 9 + leAt (content leaf)
        (pos + strlen (content leaf) pos (capacity - pos) + 1) 8 = pos + (entryAt leaf pos).size := by omega
    rw [next] at is
    have page := capacity_data
    have low := frame.inside
    have straight : frame.base + (dataOffset + (pos + (entryAt leaf pos).size)) < 2 ^ 64 := by
      by_cases far : capacity < pos + (entryAt leaf pos).size
      · have single := noWrap [entryAt leaf pos] (cons [] (.nil_behind far.le))
        rw [entriesSize_cons, show entriesSize [] = 0 from rfl, Nat.add_zero] at single
        exact single far
      · omega
    rw [Nat.mod_eq_of_lt straight] at is
    obtain ⟨ended, inside, accepted⟩ := @ih (pos + (entryAt leaf pos).size) (entryCount + 1)
      (fun entries encodes far => by
        have whole := noWrap _ (cons entries encodes)
        rw [entriesSize_cons, ← Nat.add_assoc] at whole
        exact whole far)
      (by omega) (by omega)
    rw [is]
    refine ⟨ended, inside, accepted.trans ⟨fun ⟨entries, encodes, count⟩ => ⟨_, cons entries encodes, ?_⟩, fun ⟨entries, encodes, count⟩ => ?_⟩⟩
    · rw [List.length_cons, count]
      omega
    · cases entries with
      | nil => exact absurd (encodes.holds 0 (by omega)) first
      | cons e rest =>
        obtain ⟨_, _, keyLen, valueLength, _⟩ := encodes.head
        have same : e.size = (entryAt leaf pos).size := by rw [size, keyLen, valueLength]; rfl
        refine ⟨rest, same ▸ encodes.tail, ?_⟩
        rw [List.length_cons] at count
        omega

end Classify

/-- The check ends, stays inside the page, and accepts exactly the pages that it is meant to accept. -/
def ChecksLeaf (leaf : Mem) (frame : PoolFrame) : Prop :=
  ∃ enough, ∀ fuel, enough ≤ fuel → validateLeafIntegrity leaf frame fuel ≠ .running ∧ validateLeafIntegrity leaf frame fuel ≠ .outside ∧
    (validateLeafIntegrity leaf frame fuel = .accepts ↔ ∃ entries, ValidLeaf leaf entries)

/-- A last value that runs past the end of the page does not reach the end of the address space, and the page has a next
one or another number of entries. -/
def OverrunGuarded (leaf : Mem) (frame : PoolFrame) : Prop :=
  ∀ entries, Encodes leaf 0 entries → capacity < entriesSize entries →
    frame.base + (dataOffset + entriesSize entries) < 2 ^ 64 ∧
      (leAt leaf nextOffset 8 ≠ 0 ∨ leAt leaf entryCountOffset 2 ≠ entries.length)

/-- The length of the last value brings the pointer back into the page, which is not valid then. -/
def ComesBack (leaf : Mem) : Prop :=
  (∃ entries, Encodes leaf 0 entries ∧ 2 ^ 64 ≤ dataOffset + entriesSize entries) ∧ ¬ ∃ entries, ValidLeaf leaf entries

section Check

variable {leaf : Mem} {frame : PoolFrame} {entries : List KVEntry}

theorem OverrunGuarded.checksLeaf (guarded : OverrunGuarded leaf frame) : ChecksLeaf leaf frame := by
  refine ⟨capacity + 1, fun fuel enough => ?_⟩
  obtain ⟨ended, inside, accepted⟩ := @validateFrom_classified leaf 0 fuel 0 frame
    (fun entries encodes far => by
      rw [Nat.zero_add] at far ⊢
      exact (guarded entries encodes far).1)
    (by omega) (by omega)
  refine ⟨ended, inside, accepted.trans ⟨fun ⟨entries, encodes, count⟩ => ⟨entries, encodes, by rw [count, Nat.zero_add], fun far => ?_⟩,
    fun ⟨entries, valid⟩ => ⟨entries, valid.encodes, by rw [Nat.zero_add]; exact valid.entryCount⟩⟩⟩
  exact (guarded entries encodes far).2.resolve_right fun other => other (by rw [count, Nat.zero_add])

/-- From where the pointer is when it has passed the last entry. -/
theorem Encodes.validate (encodes : Encodes leaf 0 entries) (far : capacity < entriesSize entries) (fuel : Nat) :
    validateLeafIntegrity leaf frame (fuel + entries.length) =
      validateFrom leaf frame.base fuel ((frame.base + (dataOffset + entriesSize entries)) % 2 ^ 64) entries.length := by
  have some_ : entries ≠ [] := by
    rintro rfl
    exact Nat.not_lt_zero _ far
  have run := @Encodes.run leaf 0 fuel 0 entries frame encodes some_
  rwa [Nat.zero_add, Nat.zero_add, Nat.add_zero] at run

/-- The count of entries only grows. -/
theorem validateFrom_accepts_le {base fuel ptr entryCount : Nat} (accepts : validateFrom leaf base fuel ptr entryCount = .accepts) :
    entryCount ≤ leAt leaf entryCountOffset 2 := by
  induction fuel generalizing ptr entryCount with
  | zero => cases accepts
  | succ fuel ih =>
    have rest : ∀ pos, checkRest leaf pos entryCount = .accepts → entryCount ≤ leAt leaf entryCountOffset 2 := by
      intro pos is
      unfold checkRest at is
      split at is
      · cases is
      · split at is
        · cases is
        · rename_i same
          exact (not_not.mp same).ge
    rw [validateFrom] at accepts
    split at accepts
    · exact rest _ accepts
    · split at accepts
      · cases accepts
      · dsimp only at accepts
        split at accepts
        · exact rest _ accepts
        · split at accepts
          · cases accepts
          · split at accepts
            · cases accepts
            · exact Nat.le_of_succ_le (ih accepts)

/-- The header of the last entry, with the length of its value, is inside the page. -/
theorem Encodes.last (encodes : Encodes leaf 0 entries) (some_ : entries ≠ []) : ∃ p n, 8 ≤ p ∧ p ≤ capacity ∧ n < 2 ^ 64 ∧
    entriesSize entries = p + n ∧ leAt (content leaf) (p - 8) 8 = n := by
  obtain ⟨front, e, rfl⟩ := (List.eq_nil_or_concat entries).resolve_left some_
  rw [List.concat_eq_append] at encodes ⊢
  obtain ⟨header, small, length, _⟩ := entry_stored_at encodes.holds encodes.inside
  rw [Nat.zero_add] at header length
  refine ⟨entriesSize front + e.key.length + 9, e.value.length, by omega, header, small, ?_, ?_⟩
  · rw [entriesSize_append, entriesSize_cons, KVEntry.size, show entriesSize [] = 0 from rfl]
    omega
  · rwa [show entriesSize front + e.key.length + 9 - 8 = entriesSize front + e.key.length + 1 by omega]

theorem leAt_lt_of_top {m : Mem} {a : Nat} (top : m (a + 7) = 0) : leAt m a 8 < 2 ^ 63 := by
  have last : slice m (a + 7) 1 = [0] := by
    rw [← top]
    rfl
  have low := leNat_lt (slice m a 7)
  rw [slice_length] at low
  rw [leAt, slice_append m a 7 1, last, leNat_append, leNat, leNat, UInt8.toNat_zero, Nat.mul_zero, Nat.add_zero]
  exact low.trans (by decide)

theorem ChecksLeaf.guarded_or (checks : ChecksLeaf leaf frame) : OverrunGuarded leaf frame ∨ ComesBack leaf := by
  obtain ⟨enough, holds⟩ := checks
  refine or_iff_not_imp_left.mpr fun unguarded => ?_
  obtain ⟨entries, notHere⟩ := not_forall.mp unguarded
  obtain ⟨encodes, notFar⟩ := Classical.not_imp.mp notHere
  obtain ⟨far, neither⟩ := Classical.not_imp.mp notFar
  have some_ : entries ≠ [] := by
    rintro rfl
    exact Nat.not_lt_zero _ far
  obtain ⟨ended, inside, accepted⟩ := holds (enough + 2 + entries.length) (by omega)
  rw [encodes.validate far] at ended inside accepted
  have page := capacity_data
  have low := frame.inside
  have straightCase : frame.base + (dataOffset + entriesSize entries) < 2 ^ 64 → False := by
    intro straight
    obtain ⟨noNext, sameCount⟩ := not_or.mp (not_and.mp neither straight)
    rw [not_not] at noNext sameCount
    rw [Nat.mod_eq_of_lt straight, validateFrom_behind far.le, checkRest_end_iff] at accepted
    obtain ⟨entries', valid⟩ := accepted.mp sameCount
    exact valid.next ((encodes.unique valid.encodes).2 ▸ far) noNext
  have wraps : 2 ^ 64 ≤ frame.base + (dataOffset + entriesSize entries) := Nat.not_lt.mp straightCase
  obtain ⟨p, n, header, within, small, size, stored⟩ := encodes.last some_
  obtain ⟨ptr, lands⟩ : ∃ ptr, frame.base + (dataOffset + entriesSize entries) = ptr + 2 ^ 64 := ⟨_, (Nat.sub_add_cancel wraps).symm⟩
  have ptrMod : (frame.base + (dataOffset + entriesSize entries)) % 2 ^ 64 = ptr := by
    rw [lands, Nat.add_mod_right]
    exact Nat.mod_eq_of_lt (by omega)
  rw [ptrMod, validateFrom, if_neg (by omega)] at inside accepted
  by_cases before : ptr < frame.base
  · rw [if_pos before] at inside
    exact absurd rfl inside
  rw [if_neg before] at accepted
  refine ⟨⟨entries, encodes, by omega⟩, fun valid => ?_⟩
  obtain ⟨entries', valid'⟩ := valid
  have count := valid'.entryCount.trans (encodes.unique valid'.encodes).1.symm
  have accepts := accepted.mpr ⟨entries', valid'⟩
  dsimp only at accepts
  split at accepts
  · rw [checkRest] at accepts
    split at accepts
    · cases accepts
    · rename_i zeros
      have all := allZero_iff.mp (Bool.of_not_eq_false zeros)
      have top := all (dataOffset + (p - 8 + 7) - (ptr - frame.base)) (by omega)
      rw [Nat.add_sub_cancel' (by omega)] at top
      have bound := leAt_lt_of_top (m := content leaf) top
      have size' : pageSize = 4096 := rfl
      omega
  · split at accepts
    · cases accepts
    · split at accepts
      · cases accepts
      · have more := validateFrom_accepts_le accepts
        omega

/-- The check does what it is meant to do on the pages with a guarded last value. Where it does so on another page, the
pointer has come back into the page. -/
theorem validateLeafIntegrity_checks (leaf : Mem) (frame : PoolFrame) :
    (OverrunGuarded leaf frame → ChecksLeaf leaf frame) ∧ (ChecksLeaf leaf frame → OverrunGuarded leaf frame ∨ ComesBack leaf) :=
  ⟨OverrunGuarded.checksLeaf, ChecksLeaf.guarded_or⟩

end Check

/-- An entry whose value would not fit in a page, on a page without a next one. -/
def overrunning : Mem :=
  overwrite (overwrite (fun _ => 0) entryCountOffset 2 (leBytes 2 1)) dataOffset capacity (encodeEntries [⟨[97], List.replicate 5000 0⟩])

theorem overrunning_encodes : Encodes overrunning 0 [⟨[97], List.replicate 5000 0⟩] where
  keys e member := by
    rw [List.mem_singleton.mp member]
    exact (by decide : NulFree [97])
  inside := ⟨by decide, by rw [List.length_replicate]; decide, trivial⟩
  holds i within := by
    have byte := Holds.overwrite (overwrite (fun _ => 0) entryCountOffset 2 (leBytes 2 1)) dataOffset capacity
      (encodeEntries [⟨[97], List.replicate 5000 0⟩]) i (by omega)
    rwa [Nat.zero_add]

/-- The check accepts it. -/
theorem validateLeafIntegrity_overrun : ¬ ChecksLeaf overrunning ⟨4096, by decide⟩ := by
  have size : entriesSize [(⟨[97], List.replicate 5000 0⟩ : KVEntry)] = 5010 := by
    rw [entriesSize_cons, KVEntry.size, List.length_replicate]
    rfl
  intro checks
  rcases checks.guarded_or with guarded | ⟨⟨entries, encodes, far⟩, _⟩
  · obtain ⟨_, next | count⟩ := guarded _ overrunning_encodes (by rw [size]; decide)
    · exact next (leAt_zero fun i within => (overwrite_outside (by unfold nextOffset dataOffset; omega)).trans
        (overwrite_outside (by unfold nextOffset entryCountOffset; omega)))
    · refine count ?_
      rw [overrunning, leAt_overwrite_outside (by decide), leAt_overwrite_self]
      rfl
  · rw [(encodes.unique overrunning_encodes).2, size] at far
    exact absurd far (by decide)

end DiskMap
