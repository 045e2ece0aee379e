import DiskMap.Map.Lookups

namespace DiskMap
open ByteMemory MachineInts LeafNodeStartPage Extents BigValue DiskMap.Tree

/-- The branch of `write_part` for the only entry of a leaf. -/
def writeInPlace (leaf valueLengthOffset existingLength writeOffset : Nat) (buffer : List UInt8) : TxProgram Unit := do
  let newValueLength := max existingLength ((writeOffset + buffer.length) % 2 ^ 64)
  BigValue.write leaf (valueLengthOffset + 8) writeOffset buffer
  if newValueLength ≠ existingLength then
    writePage leaf (dataOffset + valueLengthOffset) (leBytes 8 newValueLength)
    let usage ← getPage fun m => LeafNodeStartPage.usage m leaf
    writeInt 8 leaf usageOffset (sub64 (usage + newValueLength) existingLength)

variable {t t₁ t' : Tx} {held : Multiset Nat} {lists : Nat → FreeList} {page parent index offset pos : Nat} {regions : List Nat}
  {key v buffer bytes head old new middle : List UInt8} {sub tree : Tree}

/-- What stands in front of the position is left alone. -/
theorem splice_append (head old new : List UInt8) (pos : Nat) : splice (head ++ old) (head.length + pos) new = head ++ splice old pos new := by
  have gap : head.length + pos - (head ++ old).length = pos - old.length := by
    rw [List.length_append]
    omega
  rw [splice, splice, gap, List.append_assoc head old, List.take_length_add_append, Nat.add_assoc, List.drop_length_add_append]
  simp only [List.append_assoc]

/-- A part of the same length takes the place of another one. -/
theorem splice_same (same : middle.length = new.length) : splice (middle ++ old) 0 new = new ++ old := by
  rw [splice, Nat.zero_sub, List.replicate_zero, List.append_nil, List.take_zero, List.nil_append, Nat.zero_add, ← same, List.drop_left]

/-- A header field of the start page is not in the way of the chain. -/
theorem Chained.write_start {n : Nat} (chained : Chained t.mem (page :: regions)) (field : LeafNodeContinuationPage.dataOffset ≤ pos)
    (inside : pos + n ≤ pageSize) (bytes : List UInt8) : Chained (t.write page pos n bytes).mem (page :: regions) := by
  intro i q found
  refine Eq.trans ?_ (chained i q found)
  by_cases same : q = page
  · subst same
    exact leAt_overwrite_outside (Or.inl (by unfold LeafNodeContinuationPage.nextOffset; unfold LeafNodeContinuationPage.dataOffset at field; omega))
  · exact SamePage.leAt_eq (.overwrite same inside) (by decide)

namespace BigValue

/-- Bytes in the data section of the start page are replaced. -/
theorem Reshaped.write_start (reshaped : Reshaped held page regions bytes t t₁) (inside : pos + new.length ≤ capacity) :
    Reshaped held page regions (splice bytes pos new) t (t₁.write page (dataOffset + pos) new.length new) ∧
      MetaPage.nextFreePage (t₁.write page (dataOffset + pos) new.length new).mem = MetaPage.nextFreePage t₁.mem := by
  obtain ⟨lists₁, space₁⟩ := reshaped.space
  have whole : dataOffset + capacity = pageSize := by decide
  have touched : Touched (leafPages page regions) t₁ (t₁.write page (dataOffset + pos) new.length new) :=
    .write (start_mem page regions) (by omega) new
  have here : ∀ i, i < new.length → (leafExtents page regions).locate (pos + i) = page * pageSize + (dataOffset + pos) + i := by
    intro i bound
    rw [leafExtents, locate_first (by omega)]
    omega
  have written : Written t₁.mem (t₁.write page (dataOffset + pos) new.length new).mem (leafExtents page regions) pos (new ++ []) :=
    .append here rfl (.nil _ _ _) fun i j _ none_ => absurd none_ (Nat.not_lt_zero j)
  rw [List.append_nil] at written
  have chained := Chained.write_start reshaped.chained (show LeafNodeContinuationPage.dataOffset ≤ dataOffset + pos by
    unfold LeafNodeContinuationPage.dataOffset dataOffset
    omega) (show dataOffset + pos + new.length ≤ pageSize by omega) new
  refine ⟨reshaped.trans (.ofWritten space₁ touched chained reshaped.stores written (inside.trans (chainCapacity_mono (Nat.zero_le _)))), ?_⟩
  exact (space₁.touched touched fun p member => Or.inr (Multiset.mem_add.mpr (Or.inr member))).2.1

/-- The header of the start page gets another usage. -/
theorem Reshaped.set_usage (reshaped : Reshaped held page regions bytes t t₁) {value : Nat} (small : value < 2 ^ 64) :
    let t₂ := t₁.write page usageOffset 8 (leBytes 8 value)
    (∃ lists, Space lists (held + leafPages page regions) t₂) ∧ Chained t₂.mem (page :: regions) ∧
      Stores t₂.mem (leafExtents page regions) bytes ∧ LeafNodeStartPage.usage t₂.mem page = value ∧
        LeafNodeStartPage.entryCount t₂.mem page = LeafNodeStartPage.entryCount t.mem page ∧ Frame held t t₂ ∧
          MetaPage.nextFreePage t₂.mem = MetaPage.nextFreePage t₁.mem := by
  intro t₂
  obtain ⟨lists₁, space₁⟩ := reshaped.space
  have touched : Touched (leafPages page regions) t₁ t₂ := .write (start_mem page regions) (by decide) _
  obtain ⟨space₂, next, _⟩ := space₁.touched touched fun p member => Or.inr (Multiset.mem_add.mpr (Or.inr member))
  obtain ⟨_, usage, count, _⟩ := usage_write t₁.mem page small
  refine ⟨⟨lists₁, space₂⟩, reshaped.chained.write_start (by decide) (by decide) _, ?_, usage, count.trans reshaped.entryCount,
    reshaped.frame.trans (touched.frame space₁), next⟩
  refine reshaped.stores.congr fun i inside => overwrite_outside ?_
  have apart : _ ∨ page * pageSize + dataOffset ≤ _ := leafExtents_header (leaf_nodup space₁) (d := 0) rfl inside
  unfold usageOffset
  unfold dataOffset at apart
  omega

end BigValue

/-- Only the leaf has changed, and what is not held any more. -/
theorem Hole.reshaped {old : Tree} {lists' : Nat → FreeList} (hole : Hole lists held parent index old t) (space : Space lists' (held + sub.pages) t')
    (frame : Frame held t t') (entry : sub.entry = old.entry) (rep : sub.Rep t'.mem) :
    Regrown held parent index sub (MetaPage.kvEntryCount t.mem) t t' := by
  have same : ∀ p, Owns held p → SamePage t.mem t'.mem p := fun p owns => frame.owned owns fun _ member => member
  refine ⟨⟨lists', space⟩, rep, ?_, fun i bound _ => InternalNodePage.entries_congr (same parent hole.owns) bound, fun p theirs _ => same p theirs,
    frame.kvEntryCount, frame.strayWrites⟩
  rw [InternalNodePage.entries_congr (same parent hole.owns) hole.inside, hole.entry, entry]

/-- The only entry of a leaf with another value. -/
theorem LeafAt.rewritten {m m' : Mem} {regions' : List Nat} {n size : Nat} (leaf : LeafAt m page [⟨key, v⟩] regions)
    (chained : Chained m' (page :: regions')) (stores : Stores m' (leafExtents page regions') (encodeEntries [⟨key, new⟩]))
    (usage : LeafNodeStartPage.usage m' page = entriesSize [⟨key, new⟩])
    (count : LeafNodeStartPage.entryCount m' page = LeafNodeStartPage.entryCount m page) (few : n ≤ 30) (requires : Requires size n)
    (length : regions'.length = max regions.length n)
    (is : KVEntry.size ⟨key, new⟩ = max (KVEntry.size ⟨key, v⟩) size) : LeafAt m' page [⟨key, new⟩] regions' := by
  have total : ∀ w, entriesSize [⟨key, w⟩] = KVEntry.size ⟨key, w⟩ := fun w => Nat.add_zero _
  have fits := leaf.fits
  rw [total] at fits
  refine ⟨chained, usage, count.trans leaf.entryCount, ?_, fun some_ => ⟨rfl, ?_⟩, ?_, List.cons_ne_nil _ _, ?_, ?_, stores⟩
  · rw [total, is, length]
    exact max_le (fits.trans (chainCapacity_mono (le_max_left _ _))) (requires.enough.trans (chainCapacity_mono (le_max_right _ _)))
  · rw [total, is]
    by_cases none_ : regions = []
    · have positive : 0 < n := by
        have long := List.length_pos_of_ne_nil some_
        rw [none_] at length
        rw [length] at long
        simpa using long
      exact lt_max_of_lt_right (requires.least 0 positive)
    · have large := (leaf.single none_).2
      rw [total] at large
      exact lt_max_of_lt_left large
  · rw [length]
    exact max_le leaf.few few
  · exact ⟨by simpa using leaf.keys.nulFree, List.nodup_singleton _⟩
  · simpa using leaf.short

/-- The only entry of a leaf gets its new part, and its leaf the regions that this takes. -/
theorem writeInPlace_fits (hole : Hole lists held parent index (leaf page [⟨key, v⟩] regions) t)
    (reachable : offset < before (key.length + 9) 20) (size : key.length + 9 + (offset + buffer.length) ≤ chainCapacity 30) :
    Fits (MetaPage.nextFreePage t.mem + (key.length + 9 + (offset + buffer.length)) / 512)
      (writeInPlace page (key.length + 1) v.length offset buffer t) fun _ t' => ∃ regions',
        Regrown held parent index (leaf page [⟨key, splice v offset buffer⟩] regions') (MetaPage.kvEntryCount t.mem) t t' := by
  obtain ⟨nonzero, low, at_⟩ := hole.rep
  have short := at_.short _ List.mem_cons_self
  have wide : chainCapacity 30 < 2 ^ 63 := by decide
  have room : startOffset (key.length + 9) .start < pageSize := by
    unfold startOffset dataOffset pageSize
    unfold maxKeyLength at short
    dsimp only at short ⊢
    omega
  obtain ⟨head, shape⟩ : ∃ head, key ++ [0] = head := ⟨_, rfl⟩
  have headLength : head.length = key.length + 1 := by rw [← shape, List.length_append, List.length_singleton]
  have encoded : ∀ w, encodeEntries [⟨key, w⟩] = head ++ (leBytes 8 w.length ++ w) := fun w => by
    rw [← shape]
    simp [encodeEntries, KVEntry.encode]
  have total : ∀ w, entriesSize [⟨key, w⟩] = key.length + 9 + w.length := fun w => rfl
  obtain ⟨new, is⟩ : ∃ new, splice v offset buffer = new := ⟨_, rfl⟩
  have newLength : new.length = max v.length (offset + buffer.length) := by rw [← is, splice_length]
  have oldFits : key.length + 9 + v.length ≤ chainCapacity 30 := (total v).ge.trans (at_.fits.trans (chainCapacity_mono at_.few))
  have newFits : key.length + 9 + new.length ≤ chainCapacity 30 := by
    rw [newLength]
    rcases le_total v.length (offset + buffer.length) with le | le
    · rw [max_eq_right le]
      omega
    · rw [max_eq_left le]
      omega
  have both : KVEntry.size ⟨key, new⟩ = max (KVEntry.size ⟨key, v⟩) (key.length + 9 + (offset + buffer.length)) := by
    change key.length + 9 + new.length = max (key.length + 9 + v.length) _
    omega
  have bytes : splice (encodeEntries [⟨key, v⟩]) (key.length + 9 + offset) buffer = head ++ (leBytes 8 v.length ++ new) := by
    have front : (head ++ leBytes 8 v.length).length = key.length + 9 := by rw [List.length_append, headLength, leBytes_length]
    rw [encoded, ← List.append_assoc, ← front, splice_append, is, List.append_assoc]
  have fits : (encodeEntries [⟨key, v⟩]).length ≤ chainCapacity regions.length := by
    rw [encodeEntries_length]
    exact at_.fits
  rw [is, writeInPlace, Nat.mod_eq_of_lt (by omega), ← newLength]
  refine (BigValue.write_fits room reachable hole.space at_.links at_.few at_.content fits size).bind le_rfl ?_
  rintro _ t₁ ⟨regions', n, few, requires, length, reshaped⟩ le
  rw [bytes] at reshaped
  have done : ∀ t', (∃ lists', Space lists' (held + leafPages page regions') t') → Frame held t t' → LeafAt t'.mem page [⟨key, new⟩] regions' →
      Regrown held parent index (leaf page [⟨key, new⟩] regions') (MetaPage.kvEntryCount t.mem) t t' := by
    rintro t' ⟨lists', space'⟩ frame at'
    exact hole.reshaped space' frame rfl ⟨nonzero, low, at'⟩
  by_cases same : new.length = v.length
  · rw [if_neg (not_not.mpr same)]
    refine .intro rfl ⟨regions', done t₁ reshaped.space reshaped.frame ?_⟩ le
    refine at_.rewritten reshaped.chained ?_ ?_ reshaped.entryCount few requires length both
    · rw [encoded, same]
      exact reshaped.stores
    · rw [reshaped.usage, at_.usage, total, total, same]
  · rw [if_pos same, writePage_bind]
    have lengthBytes := leBytes_length 8 new.length
    have inside : key.length + 1 + (leBytes 8 new.length).length ≤ capacity := by
      unfold maxKeyLength at short
      unfold capacity dataOffset pageSize
      dsimp only at short
      omega
    obtain ⟨resized, next₂⟩ := reshaped.write_start inside
    obtain ⟨t₂, is₂⟩ : ∃ t₂, t₁.write page (dataOffset + (key.length + 1)) (leBytes 8 new.length).length (leBytes 8 new.length) = t₂ := ⟨_, rfl⟩
    have bytes' : splice (head ++ (leBytes 8 v.length ++ new)) (key.length + 1) (leBytes 8 new.length) = head ++ (leBytes 8 new.length ++ new) := by
      have behind := splice_append head (leBytes 8 v.length ++ new) (leBytes 8 new.length) 0
      rwa [Nat.add_zero, headLength, splice_same (by rw [leBytes_length, leBytes_length])] at behind
    rw [is₂] at resized next₂
    rw [bytes', ← encoded] at resized
    have usage : sub64 (LeafNodeStartPage.usage t₂.mem page + new.length) v.length = entriesSize [⟨key, new⟩] := by
      rw [resized.usage, at_.usage, total, total, sub64_eq (by omega) (by omega)]
      omega
    have small : entriesSize [⟨key, new⟩] < 2 ^ 64 := by
      rw [total]
      omega
    obtain ⟨space₃, chained₃, stores₃, usage₃, count₃, frame₃, next₃⟩ :=
      resized.set_usage small
    rw [is₂, getPage_bind, usage, writeInt_run]
    exact .intro rfl ⟨regions', done _ space₃ frame₃ (at_.rewritten chained₃ stores₃ usage₃ count₃ few requires length both)⟩
      ((next₃.trans next₂).le.trans le)

end DiskMap
