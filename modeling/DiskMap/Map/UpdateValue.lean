import DiskMap.Library.MachineInts
import DiskMap.Map.Leaf

namespace DiskMap
open ByteMemory MachineInts LeafNodeStartPage

/-- The bytes from the value length to the last byte used, after the entries behind the value have
moved. When the value gets shorter, the buffer keeps its size. -/
def updateBuffer (old : List UInt8) (currentLength bytesToMove : Nat) (buffer : List UInt8) : List UInt8 :=
  let moved := patch old (8 + buffer.length) ((old.drop (8 + currentLength)).take bytesToMove)
  patch (patch moved 0 (leBytes 8 buffer.length)) 8 buffer

def updateValueTrivially (page entryOffset : Nat) (key buffer : List UInt8) : TxProgram Unit := do
  let valueLengthOffset := entryOffset + key.length + 1
  let currentLength ← getPage fun m => leAt m (page * pageSize + dataOffset + valueLengthOffset) 8
  let valueOffset := valueLengthOffset + 8
  let usage ← getPage fun m => LeafNodeStartPage.usage m page
  let newUsage := sub64 (usage + buffer.length) currentLength
  if capacity < newUsage then
    .throw "update_value_trivially: updated leaf node exceeds maximum capacity, update is not trivial"
  else if buffer.length = currentLength then writePage page (dataOffset + valueOffset) buffer
  else
    let updateEnd := usage + if currentLength < buffer.length then buffer.length - currentLength else 0
    let old ← getPage fun m => slice m (page * pageSize + dataOffset + valueLengthOffset) (updateEnd - valueLengthOffset)
    writeInt 8 page usageOffset newUsage
    writePage page (dataOffset + valueLengthOffset)
      (updateBuffer old currentLength (usage - (valueOffset + currentLength)) buffer)

/-- The entries after an update of the value of a key. -/
def setValue (key value : List UInt8) (entries : List KVEntry) : List KVEntry :=
  entries.map fun e => if e.key = key then { e with value } else e

section

variable {key old new : List UInt8} {front back entries : List KVEntry}

theorem setValue_of_not_mem (absent : key ∉ entries.map KVEntry.key) : setValue key new entries = entries := by
  have each : ∀ e ∈ entries, (if e.key = key then { e with value := new } else e) = e := fun e member =>
    if_neg fun same : e.key = key => absent (same ▸ List.mem_map_of_mem member)
  rw [setValue, List.map_congr_left each, List.map_id']

theorem setValue_eq (keys : WellKeyed (front ++ ⟨key, old⟩ :: back)) :
    setValue key new (front ++ ⟨key, old⟩ :: back) = front ++ ⟨key, new⟩ :: back := by
  have nodup := keys.nodup
  rw [List.map_append, List.map_cons, List.perm_middle.nodup_iff, List.nodup_cons, List.mem_append, not_or] at nodup
  obtain ⟨⟨before, behind⟩, _⟩ := nodup
  have split : setValue key new (front ++ ⟨key, old⟩ :: back) =
      setValue key new front ++ ⟨key, new⟩ :: setValue key new back := by
    simp [setValue]
  rw [split, setValue_of_not_mem before, setValue_of_not_mem behind]

theorem WellKeyed.setValue (keys : WellKeyed (front ++ ⟨key, old⟩ :: back)) (new : List UInt8) :
    WellKeyed (front ++ ⟨key, new⟩ :: back) where
  nulFree e member := by
    rcases List.mem_append.mp member with before | later
    · exact keys.nulFree e (List.mem_append_left _ before)
    rcases List.mem_cons.mp later with rfl | behind
    · exact keys.nulFree ⟨key, old⟩ (List.mem_append_right _ List.mem_cons_self)
    · exact keys.nulFree e (List.mem_append_right _ (List.mem_cons_of_mem _ behind))
  nodup := by simpa using keys.nodup

/-- What is left behind the moved entries is what stood there before. -/
theorem updateBuffer_eq (old tail new : List UInt8) :
    updateBuffer (leBytes 8 old.length ++ (old ++ tail) ++ List.replicate (new.length - old.length) 0) old.length
        tail.length new =
      leBytes 8 new.length ++ (new ++ (tail ++ (leBytes 8 old.length ++ (old ++ tail)).drop (8 + new.length + tail.length))) := by
  have length : (leBytes 8 old.length ++ (old ++ tail)).length = 8 + old.length + tail.length := by simp; omega
  obtain ⟨whole, known⟩ : ∃ whole, leBytes 8 old.length ++ (old ++ tail) = whole := ⟨_, rfl⟩
  have moved : ((whole ++ List.replicate (new.length - old.length) 0).drop (8 + old.length)).take tail.length = tail := by
    rw [← known, List.append_assoc, List.append_assoc, ← List.drop_drop]
    simp
  have rest : (whole ++ List.replicate (new.length - old.length) 0).drop (8 + new.length + tail.length) =
      whole.drop (8 + new.length + tail.length) := by
    rw [known] at length
    rw [List.drop_append, List.drop_replicate, length,
      show new.length - old.length - (8 + new.length + tail.length - (8 + old.length + tail.length)) = 0 by omega]
    simp
  rw [known] at length ⊢
  obtain ⟨padded, shape⟩ : ∃ padded, whole ++ List.replicate (new.length - old.length) 0 = padded := ⟨_, rfl⟩
  have long : 8 + new.length + tail.length ≤ padded.length := by
    rw [← shape, List.length_append, List.length_replicate, length]
    omega
  -- the three parts of the buffer that are overwritten, and what is behind them
  obtain ⟨first, second, third, last, parts, one, two, three⟩ : ∃ first second third last : List UInt8,
      padded = first ++ (second ++ (third ++ last)) ∧ first.length = 8 ∧ second.length = new.length ∧
        third.length = tail.length := by
    refine ⟨padded.take 8, (padded.drop 8).take new.length, ((padded.drop 8).drop new.length).take tail.length,
      ((padded.drop 8).drop new.length).drop tail.length, by simp only [List.take_append_drop], ?_, ?_, ?_⟩
    all_goals
      simp only [List.length_take, List.length_drop]
      omega
  have behind : last = whole.drop (8 + new.length + tail.length) := by
    rw [← rest, shape, parts, ← List.drop_drop, ← List.drop_drop, ← one, ← two, ← three, List.drop_left, List.drop_left,
      List.drop_left]
  rw [shape] at moved ⊢
  rw [updateBuffer, moved, parts, ← List.append_assoc first, show 8 + new.length = (first ++ second).length by simp [one, two],
    patch_append _ _ _ _ three, List.append_assoc]
  have lengthSet := patch_append [] first (second ++ (tail ++ last)) (leBytes 8 new.length) (by simp [one])
  have valueSet := patch_append (leBytes 8 new.length) second (tail ++ last) new two
  rw [leBytes_length] at valueSet
  simp only [List.nil_append, List.length_nil] at lengthSet
  rw [lengthSet, valueSet, behind, List.length_append, one, two]

end

theorem encodeEntries_split (front back : List KVEntry) (key value : List UInt8) :
    encodeEntries (front ++ ⟨key, value⟩ :: back) =
      (encodeEntries front ++ (key ++ [0])) ++ (leBytes 8 value.length ++ (value ++ encodeEntries back)) := by
  simp [encodeEntries_append, encodeEntries_cons, KVEntry.encode]

/-- Writing to the data section leaves the header alone. -/
theorem header_write (m : Mem) (page offset n : Nat) (bytes : List UInt8) :
    let m' := overwrite m (page * pageSize + (dataOffset + offset)) n bytes
    LeafNodeStartPage.next m' page = LeafNodeStartPage.next m page ∧
      LeafNodeStartPage.usage m' page = LeafNodeStartPage.usage m page ∧
      LeafNodeStartPage.entryCount m' page = LeafNodeStartPage.entryCount m page := by
  have field : ∀ start width, start + width ≤ dataOffset →
      leAt (overwrite m (page * pageSize + (dataOffset + offset)) n bytes) (page * pageSize + start) width =
        leAt m (page * pageSize + start) width := fun start width inside => leAt_overwrite_outside (by omega)
  exact ⟨field _ _ (by decide), field _ _ (by decide), field _ _ (by decide)⟩

theorem usage_write (m : Mem) (page : Nat) {value : Nat} (small : value < 2 ^ 64) :
    let m' := overwrite m (page * pageSize + usageOffset) 8 (leBytes 8 value)
    LeafNodeStartPage.next m' page = LeafNodeStartPage.next m page ∧ LeafNodeStartPage.usage m' page = value ∧
      LeafNodeStartPage.entryCount m' page = LeafNodeStartPage.entryCount m page ∧
      ∀ i, m' (page * pageSize + dataOffset + i) = m (page * pageSize + dataOffset + i) := by
  refine ⟨leAt_overwrite_outside (Or.inl ?_), ?_, leAt_overwrite_outside ?_, fun i => overwrite_outside ?_⟩
  · unfold nextOffset usageOffset
    omega
  · rw [LeafNodeStartPage.usage, leAt_overwrite_self]
    exact Nat.mod_eq_of_lt small
  · unfold usageOffset entryCountOffset
    omega
  · unfold usageOffset dataOffset
    omega

/-- The entries with the new value, and behind them what stood there before: in a leaf whose usage
gets smaller, the end of the old entries. -/
theorem updateValueTrivially_content {t : Tx} {page : Nat} {front back : List KVEntry} {key old new : List UInt8}
    (leaf : SinglePage t.mem page (front ++ ⟨key, old⟩ :: back)) (fits : entriesSize (front ++ ⟨key, new⟩ :: back) ≤ capacity) :
    (updateValueTrivially page (entriesSize front) key new t).Ends fun _ t' =>
      LeafNodeStartPage.next t'.mem page = 0 ∧ LeafNodeStartPage.usage t'.mem page = entriesSize (front ++ ⟨key, new⟩ :: back) ∧
        LeafNodeStartPage.entryCount t'.mem page = (front ++ ⟨key, new⟩ :: back).length ∧
        Holds t'.mem (page * pageSize + dataOffset) capacity (encodeEntries (front ++ ⟨key, new⟩ :: back) ++
          (encodeEntries (front ++ ⟨key, old⟩ :: back)).drop (entriesSize (front ++ ⟨key, new⟩ :: back))) ∧
        WroteOnly page t t' := by
  have oldFits := leaf.fits
  have content := leaf.content
  have usage := leaf.usage
  have page64 : capacity < 2 ^ 63 := by decide
  have size : ∀ value : List UInt8, entriesSize (front ++ ⟨key, value⟩ :: back) =
      entriesSize front + key.length + 1 + 8 + value.length + entriesSize back := by
    intro value
    rw [entriesSize_append, entriesSize_cons, KVEntry.size]
    dsimp only
    omega
  rw [encodeEntries_split front back key old] at content ⊢
  rw [encodeEntries_split front back key new]
  rw [size] at fits oldFits usage ⊢
  obtain ⟨head, headShape⟩ : ∃ head, encodeEntries front ++ (key ++ [0]) = head := ⟨_, rfl⟩
  obtain ⟨tail, tailShape⟩ : ∃ tail, encodeEntries back = tail := ⟨_, rfl⟩
  have headLength : entriesSize front + key.length + 1 = head.length := by
    rw [← headShape, ← encodeEntries_length]
    simp [Nat.add_assoc]
  have tailLength : entriesSize back = tail.length := by rw [← tailShape, encodeEntries_length]
  rw [headShape, tailShape] at content ⊢
  rw [headLength, tailLength] at fits oldFits usage ⊢
  have behind := content.drop
  have current : leAt t.mem (page * pageSize + dataOffset + head.length) 8 = old.length :=
    leAt_of_slice (by omega) (behind.slice (by rw [leBytes_length]; omega))
  have newUsage : sub64 (head.length + 8 + old.length + tail.length + new.length) old.length =
      head.length + 8 + new.length + tail.length := by
    rw [sub64_eq (by omega) (by omega)]
    omega
  unfold updateValueTrivially
  simp only [headLength]
  rw [getPage_bind, current, getPage_bind, usage, newUsage, if_neg (Nat.not_lt.mpr fits)]
  have left : (head ++ (leBytes 8 old.length ++ (old ++ tail))).drop (head.length + 8 + new.length + tail.length) =
      (leBytes 8 old.length ++ (old ++ tail)).drop (8 + new.length + tail.length) := by
    rw [Nat.add_assoc, Nat.add_assoc, ← List.drop_drop, List.drop_left, Nat.add_assoc]
  have count : (front ++ ⟨key, new⟩ :: back).length = (front ++ ⟨key, old⟩ :: back).length := by simp
  rw [left, count, ← leaf.entryCount]
  by_cases same : new.length = old.length
  · rw [if_pos same, writePage_run]
    obtain ⟨next', usage', count'⟩ := header_write t.mem page (head.length + 8) new.length new
    refine .intro rfl ⟨next'.trans leaf.next, usage'.trans (usage.trans (by rw [same])), count', ?_,
      .write (by unfold dataOffset; unfold capacity dataOffset at fits; unfold pageSize at fits ⊢; omega) new⟩
    have shape : head ++ (leBytes 8 new.length ++ (new ++ tail)) ++
        (leBytes 8 old.length ++ (old ++ tail)).drop (8 + new.length + tail.length) =
          head ++ leBytes 8 old.length ++ (new ++ tail) := by
      rw [same, List.drop_eq_nil_of_le (by simp; omega), List.append_nil, ← List.append_assoc]
    rw [← List.append_assoc] at content
    have replaced := content.replace (Or.inl same.symm)
    rw [List.length_append, leBytes_length, Nat.add_assoc (page * pageSize)] at replaced
    rw [shape]
    exact replaced
  · rw [if_neg same, getPage_bind, writeInt_bind, writePage_run]
    obtain ⟨body, bodyShape⟩ : ∃ body, leBytes 8 old.length ++ (old ++ tail) = body := ⟨_, rfl⟩
    have bodyLength : body.length = 8 + old.length + tail.length := by
      rw [← bodyShape]
      simp
      omega
    have range : (head.length + 8 + old.length + tail.length + if old.length < new.length then new.length - old.length else 0) -
        head.length = body.length + (new.length - old.length) := by
      split <;> omega
    have moving : head.length + 8 + old.length + tail.length - (head.length + 8 + old.length) = tail.length := by omega
    have filled := updateBuffer_eq old tail new
    rw [bodyShape] at behind content filled ⊢
    rw [range, behind.slice_zeros (by omega), moving, filled]
    obtain ⟨buffer, bufferShape⟩ : ∃ buffer, leBytes 8 new.length ++ (new ++ (tail ++
      body.drop (8 + new.length + tail.length))) = buffer := ⟨_, rfl⟩
    have bufferLength : buffer.length = 8 + new.length + tail.length + (body.length - (8 + new.length + tail.length)) := by
      rw [← bufferShape]
      simp
      omega
    have shape : head ++ (leBytes 8 new.length ++ (new ++ tail)) ++ body.drop (8 + new.length + tail.length) = head ++ (buffer ++ []) := by
      rw [← bufferShape]
      simp only [List.append_assoc, List.append_nil]
    rw [bufferShape, shape]
    obtain ⟨next₁, usage₁, count₁, data₁⟩ := usage_write t.mem page
      (show head.length + 8 + new.length + tail.length < 2 ^ 64 by omega)
    obtain ⟨next₂, usage₂, count₂⟩ := header_write (overwrite t.mem (page * pageSize + usageOffset) 8
      (leBytes 8 (head.length + 8 + new.length + tail.length))) page head.length buffer.length buffer
    rw [← List.append_nil body] at content
    have replaced : Holds (overwrite (overwrite t.mem (page * pageSize + usageOffset) 8
        (leBytes 8 (head.length + 8 + new.length + tail.length))) (page * pageSize + dataOffset + head.length) buffer.length buffer)
        (page * pageSize + dataOffset) capacity (head ++ (buffer ++ [])) :=
      (content.congr fun i _ => data₁ i).replace (Or.inr ⟨by omega, rfl⟩)
    rw [Nat.add_assoc (page * pageSize)] at replaced
    refine .intro rfl ⟨(next₂.trans next₁).trans leaf.next, usage₂.trans usage₁, count₂.trans count₁, replaced, ?_⟩
    refine .trans (.write (by decide) _) (.write ?_ buffer)
    unfold capacity dataOffset at fits oldFits
    unfold dataOffset
    unfold pageSize at fits oldFits ⊢
    omega

/-- `update_value_trivially` leaves the exact encoding of the entries with the new value behind if
and only if the old encoding has nothing but zeros behind the size of the new one. -/
theorem updateValueTrivially_exact_iff {t : Tx} {page offset : Nat} {entries : List KVEntry} {key new : List UInt8}
    {beyond : Mem} (leaf : SinglePage t.mem page entries) (keys : WellKeyed entries) (member : key ∈ entries.map KVEntry.key)
    (found : findEntryInLeaf (data t.mem page beyond) key = some offset)
    (fits : entriesSize (setValue key new entries) ≤ capacity) :
    (updateValueTrivially page offset key new t).Ends (fun _ t' => SinglePage t'.mem page (setValue key new entries) ∧
      ∀ key', NulFree key' → (findEntryInLeaf (data t'.mem page beyond) key' ≠ none ↔ key' ∈ entries.map KVEntry.key)) ↔
    ∀ b ∈ (encodeEntries entries).drop (entriesSize (setValue key new entries)), b = 0 := by
  obtain ⟨e, listed, rfl⟩ := List.mem_map.mp member
  rw [leaf.findEntryInLeaf_eq keys (keys.nulFree e listed).2] at found
  obtain ⟨front, old, back, rfl, rfl, _⟩ := offsetOf_eq_some found
  obtain ⟨key, known⟩ : ∃ key, e.key = key := ⟨_, rfl⟩
  rw [known] at leaf keys fits ⊢
  rw [setValue_eq keys] at fits ⊢
  obtain ⟨_, t', ended, next', usage', count', content, _⟩ := updateValueTrivially_content leaf fits
  have exact_iff := content.append_iff (by
    have oldFits := leaf.fits
    rw [List.length_drop, encodeEntries_length, encodeEntries_length]
    omega)
  constructor
  · rintro ⟨_, t'', ended', exact_, _⟩
    cases ended.symm.trans ended'
    exact exact_iff.mp exact_.content
  · intro zeros
    have page' : SinglePage t'.mem page (front ++ ⟨key, new⟩ :: back) :=
      ⟨next', usage', count', fits, exact_iff.mpr zeros⟩
    refine .intro ended ⟨page', fun key' noNul' => ?_⟩
    rw [page'.findEntryInLeaf_eq (keys.setValue new) noNul'.2, ne_eq, offsetOf_eq_none, not_not]
    simp

/-- A leaf with the given entries in page 41 of a file that is all zeros otherwise. -/
def leafOf (entries : List KVEntry) : Mem :=
  overwrite (overwrite (overwrite (fun _ => 0) (41 * pageSize + usageOffset) 8 (leBytes 8 (entriesSize entries)))
    (41 * pageSize + entryCountOffset) 2 (leBytes 2 entries.length)) (41 * pageSize + dataOffset) capacity (encodeEntries entries)

theorem singlePage_leafOf {entries : List KVEntry} (fits : entriesSize entries ≤ capacity) : SinglePage (leafOf entries) 41 entries := by
  obtain ⟨m, known⟩ : ∃ m, overwrite (fun _ => 0) (41 * pageSize + usageOffset) 8 (leBytes 8 (entriesSize entries)) = m := ⟨_, rfl⟩
  have room : capacity < 2 ^ 16 := by decide
  have few := entries_few fits
  obtain ⟨next, usage, _⟩ := usage_write (fun _ => 0) 41 (show entriesSize entries < 2 ^ 64 by omega)
  obtain ⟨next', usage', count'⟩ := header_write (overwrite m (41 * pageSize + entryCountOffset) 2 (leBytes 2 entries.length)) 41 0
    capacity (encodeEntries entries)
  rw [leafOf, known]
  rw [known] at next usage
  have other : ∀ start, start + 8 ≤ entryCountOffset →
      leAt (overwrite m (41 * pageSize + entryCountOffset) 2 (leBytes 2 entries.length)) (41 * pageSize + start) 8 =
        leAt m (41 * pageSize + start) 8 := fun start inside => leAt_overwrite_outside (by omega)
  refine ⟨(next'.trans (other _ (by decide))).trans (next.trans (leAt_zero fun _ _ => rfl)),
    (usage'.trans (other _ (by decide))).trans usage, count'.trans ?_, fits, .overwrite _ _ _ _⟩
  rw [LeafNodeStartPage.entryCount, leAt_overwrite_self]
  exact Nat.mod_eq_of_lt few

def twoEntries : List KVEntry := [⟨[97], [98, 99]⟩, ⟨[98], [7]⟩]

theorem updateValueTrivially_exact_iff_longer :
    (updateValueTrivially 41 0 [97] [1, 2, 3] { mem := leafOf twoEntries }).Ends (fun _ t' =>
      SinglePage t'.mem 41 (setValue [97] [1, 2, 3] twoEntries) ∧ ∀ key', NulFree key' →
        (findEntryInLeaf (data t'.mem 41 fun _ => 0) key' ≠ none ↔ key' ∈ twoEntries.map KVEntry.key)) ↔
    ∀ b ∈ (encodeEntries twoEntries).drop (entriesSize (setValue [97] [1, 2, 3] twoEntries)), b = 0 :=
  updateValueTrivially_exact_iff (singlePage_leafOf (by decide)) ⟨by decide, by decide⟩ (by decide) (by decide +kernel) (by decide)

/-- A value of two bytes becomes a value of one byte: the byte left behind is taken for a key. -/
theorem updateValueTrivially_phantom :
    SinglePage (leafOf [⟨[97], [98, 99]⟩]) 41 [⟨[97], [98, 99]⟩] ∧
    findEntryInLeaf (data (leafOf [⟨[97], [98, 99]⟩]) 41 fun _ => 0) [97] = some 0 ∧
    ¬ (updateValueTrivially 41 0 [97] [100] { mem := leafOf [⟨[97], [98, 99]⟩] }).Ends fun _ t' =>
      SinglePage t'.mem 41 [⟨[97], [100]⟩] ∧
        ∀ key', NulFree key' → (findEntryInLeaf (data t'.mem 41 fun _ => 0) key' ≠ none ↔ key' ∈ [[97]]) := by
  refine ⟨singlePage_leafOf (by decide), by decide +kernel, ?_⟩
  rintro ⟨_, t', ended, _, finds⟩
  have phantom : findEntryInLeaf (data t'.mem 41 fun _ => 0) [99] = some 11 := by
    cases ended
    decide +kernel
  cases List.mem_singleton.mp ((finds [99] (by decide)).mp (by simp [phantom]))

end DiskMap
