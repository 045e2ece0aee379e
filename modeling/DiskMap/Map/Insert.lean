import DiskMap.Map.ReadPart
import DiskMap.Map.SpaceRuns
import DiskMap.Map.SplitLeaf
import DiskMap.Map.WholeTree

namespace DiskMap
open ByteMemory LeafNodeStartPage DiskMap.Tree

def Tree.leafEntries : Tree → List KVEntry
  | .leaf _ entries _ => entries
  | _ => []

variable {t t' : Tx} {held : Multiset Nat} {lists : Nat → FreeList} {page parent index depth : Nat} {entries : List KVEntry}
  {regions : List Nat} {sub : Tree} {new e : KVEntry} {beyond : Mem}

/-- One more entry is counted. -/
structure Counted (lists : Nat → FreeList) (held : Multiset Nat) (t t' : Tx) : Prop where
  space : Space lists held t'
  next : MetaPage.nextFreePage t'.mem = MetaPage.nextFreePage t.mem
  kvEntryCount : MetaPage.kvEntryCount t'.mem = MetaPage.kvEntryCount t.mem + 1
  pages : ∀ p, 1 ≤ p → SamePage t.mem t'.mem p
  strayWrites : t'.strayWrites = t.strayWrites

/-- Another number of entries is written to the meta page. -/
structure Recounted (lists : Nat → FreeList) (held : Multiset Nat) (value : Nat) (t t' : Tx) : Prop where
  space : Space lists held t'
  next : MetaPage.nextFreePage t'.mem = MetaPage.nextFreePage t.mem
  kvEntryCount : MetaPage.kvEntryCount t'.mem = value
  pages : ∀ p, 1 ≤ p → SamePage t.mem t'.mem p
  strayWrites : t'.strayWrites = t.strayWrites

theorem Space.recounted (space : Space lists held t) {value : Nat} (small : value < 2 ^ 64) {bytes : List UInt8} (is : leBytes 8 value = bytes) :
    Recounted lists held value t (t.write 0 MetaPage.kvEntryCountOffset 8 bytes) := by
  have low := space.fpl_bounds (Nat.zero_le _) (space.base 0 (Nat.zero_le _))
  rw [Tx.write_quiet (space.not_onFreeList (Or.inl (by omega))), ← is]
  have fields : MetaIs (overwrite t.mem (0 * pageSize + MetaPage.kvEntryCountOffset) 8 (leBytes 8 value)) _ _ _ _ :=
    (MetaIs.refl t.mem).setKvEntryCount small
  have same : ∀ p, 1 ≤ p → SamePage t.mem (overwrite t.mem (0 * pageSize + MetaPage.kvEntryCountOffset) 8 (leBytes 8 value)) p :=
    fun p low => .overwrite (by omega) (by decide)
  refine ⟨⟨fun o within => ?_, space.base, space.listed, ?_, ?_, fun p above => ?_⟩, fields.nextFreePage, fields.kvEntryCount, same, rfl⟩
  · have before := space.stored o within
    refine ⟨(fields.lastFplPage o within).trans before.page, (fields.lastFplPageEntries o within).trans before.count,
      before.stored.congr (fplLinks_sameOn fun p member => same p ?_)⟩
    have bounds := space.fpl_bounds within member
    omega
  · rw [fields.nextFreePage]
    exact space.owned
  · rw [fields.nextFreePage]
    exact space.bound
  · rw [fields.nextFreePage] at above
    exact (space.fresh p above).congr (same p (by omega))

theorem increaseKvEntryCount_run (space : Space lists held t) (small : MetaPage.kvEntryCount t.mem + 1 < 2 ^ 64) :
    ∃ t', increaseKvEntryCount t = .done () t' ∧ Counted lists held t t' := by
  have recounted := space.recounted small rfl
  exact ⟨_, rfl, recounted.space, recounted.next, recounted.kvEntryCount, recounted.pages, recounted.strayWrites⟩

theorem Counted.hole {held' : Multiset Nat} (hole : Hole lists held' parent index sub t) (counted : Counted lists (held' + sub.pages) t t') :
    Hole lists held' parent index sub t' where
  space := counted.space
  leaf := hole.leaf
  rep := hole.rep.congr fun p member => counted.pages p (by
    have bounds := hole.space.held_bounds (Multiset.mem_add.mpr (Or.inr member))
    omega)
  owns := hole.owns
  inside := hole.inside
  entry := by
    have nonzero := (hole.space.owned_ne (hole.owns.imp_right fun member => Multiset.mem_add.mpr (Or.inl member))).1
    exact (InternalNodePage.entries_congr (counted.pages parent (by omega)) hole.inside).trans hole.entry

theorem appendEntry_run (leaf : SinglePage t.mem page entries) (new : KVEntry) (fits : entriesSize (entries ++ [new]) ≤ capacity) :
    ∃ t', appendEntry page new.key new.value t = .done () t' ∧ Touched (leafPages page []) t t' ∧
      SinglePage t'.mem page (entries ++ [new]) := by
  have mine := start_mem page []
  have whole : dataOffset + capacity = pageSize := by decide
  have small : capacity < 2 ^ 64 := by decide
  have few := entries_few fits
  have total := fits
  rw [entriesSize_append, entriesSize_cons] at total
  change entriesSize entries + (new.size + 0) ≤ capacity at total
  have length := new.encode_length
  obtain ⟨t₁, is₁⟩ : ∃ t₁, t.write page (dataOffset + entriesSize entries) new.encode.length new.encode = t₁ := ⟨_, rfl⟩
  obtain ⟨t₂, is₂⟩ : ∃ t₂, t₁.write page usageOffset 8 (leBytes 8 (entriesSize entries + new.size)) = t₂ := ⟨_, rfl⟩
  obtain ⟨t₃, is₃⟩ : ∃ t₃, t₂.write page entryCountOffset 2 (leBytes 2 (entries.length + 1)) = t₃ := ⟨_, rfl⟩
  have mem₁ : t₁.mem = overwrite t.mem (page * pageSize + (dataOffset + entriesSize entries)) new.encode.length new.encode := by
    rw [← is₁]
    rfl
  have mem₂ : t₂.mem = overwrite t₁.mem (page * pageSize + usageOffset) 8 (leBytes 8 (entriesSize entries + new.size)) := by
    rw [← is₂]
    rfl
  have mem₃ : t₃.mem = overwrite t₂.mem (page * pageSize + entryCountOffset) 2 (leBytes 2 (entries.length + 1)) := by
    rw [← is₃]
    rfl
  obtain ⟨next₁, usage₁, count₁⟩ := header_write t.mem page (entriesSize entries) new.encode.length new.encode
  obtain ⟨next₂, usage₂, count₂, data₂⟩ := usage_write t₁.mem page (show entriesSize entries + new.size < 2 ^ 64 by omega)
  rw [← mem₁] at next₁ usage₁ count₁
  rw [← mem₂] at next₂ usage₂ count₂ data₂
  have run : appendEntry page new.key new.value t = .done () t₃ := by
    have size : new.key.length + 1 + 8 + new.value.length = new.size := rfl
    rw [appendEntry, getPage_bind, leaf.usage, writePage_bind, is₁, getPage_bind, usage₁, leaf.usage, size, writeInt_bind, is₂,
      getPage_bind, count₂, count₁, leaf.entryCount, writeInt_run, is₃]
  have content : Holds t₁.mem (page * pageSize + dataOffset) capacity (encodeEntries (entries ++ [new])) := by
    have old := leaf.content
    rw [← List.append_nil (encodeEntries entries), ← List.append_nil []] at old
    have replaced : Holds (overwrite t.mem (page * pageSize + dataOffset + (encodeEntries entries).length) new.encode.length new.encode)
        (page * pageSize + dataOffset) capacity (encodeEntries entries ++ (new.encode ++ [])) := old.replace (Or.inr ⟨Nat.zero_le _, rfl⟩)
    rw [encodeEntries_length, Nat.add_assoc (page * pageSize), ← mem₁, List.append_nil] at replaced
    rw [encodeEntries_append, encodeEntries_cons]
    simpa [encodeEntries] using replaced
  have after : ∀ start, start + 8 ≤ entryCountOffset → leAt t₃.mem (page * pageSize + start) 8 = leAt t₂.mem (page * pageSize + start) 8 := by
    intro start apart
    rw [mem₃]
    exact leAt_overwrite_outside (by omega)
  refine ⟨t₃, run, ?_, ⟨(after nextOffset (by decide)).trans (next₂.trans (next₁.trans leaf.next)), (after usageOffset (by decide)).trans ?_, ?_,
    fits, content.congr fun i within => ?_⟩⟩
  · rw [← is₃, ← is₂, ← is₁]
    exact .trans (.trans (.write mine (by omega) _) (.write mine (by decide) _)) (.write mine (by decide) _)
  · rw [entriesSize_append, entriesSize_cons]
    exact usage₂
  · rw [LeafNodeStartPage.entryCount, mem₃, leAt_overwrite_self, List.length_append, List.length_singleton]
    rw [List.length_append, List.length_singleton] at few
    exact Nat.mod_eq_of_lt few
  · rw [mem₃, overwrite_outside (Or.inr (by unfold entryCountOffset dataOffset; omega)), data₂ i]


/-- The file does not get longer than this when an entry of the given size is added. -/
def writeCost (size : Nat) : Nat := 2 * pageSize + size / 512

/-- A tree with the new entry, which is counted. -/
def Inserted (held : Multiset Nat) (parent index depth : Nat) (sub : Tree) (new : KVEntry) (t t' : Tx) : Prop :=
  ∃ sub' : Tree, sub'.Sorts (depth + 1) (sub.entries + {new}) ∧ Regrown held parent index sub' (MetaPage.kvEntryCount t.mem + 1) t t'

theorem Regrown.recounted {kv value : Nat} {t₁ : Tx} (regrown : Regrown held parent index sub kv t t₁) (owns : Owns held parent)
    (inside : index < branchingFactor) (space : Space lists (held + sub.pages) t₁)
    (recounted : Recounted lists (held + sub.pages) value t₁ t') : Regrown held parent index sub value t t' := by
  have low : ∀ p, Owns (held + sub.pages) p → 1 ≤ p := fun p theirs => by
    have nonzero := (space.owned_ne theirs).1
    omega
  have keeps : ∀ p, Owns held p → Owns (held + sub.pages) p := fun p => Or.imp_right fun member => Multiset.mem_add.mpr (Or.inl member)
  have same := recounted.pages parent (low parent (keeps parent owns))
  exact
    { space := ⟨lists, recounted.space⟩
      rep := regrown.rep.congr fun p member => recounted.pages p (low p (Or.inr (Multiset.mem_add.mpr (Or.inr member))))
      entry := (InternalNodePage.entries_congr same inside).trans regrown.entry
      siblings := fun i bound other => (InternalNodePage.entries_congr same bound).trans (regrown.siblings i bound other)
      frame := fun p theirs other => (regrown.frame p theirs other).trans (recounted.pages p (low p (keeps p theirs)))
      kvEntryCount := recounted.kvEntryCount
      strayWrites := recounted.strayWrites.trans regrown.strayWrites }

theorem Regrown.counted {kv : Nat} {t₁ : Tx} (regrown : Regrown held parent index sub kv t t₁) (owns : Owns held parent) (inside : index < branchingFactor)
    (space : Space lists (held + sub.pages) t₁) (counted : Counted lists (held + sub.pages) t₁ t') :
    Regrown held parent index sub (kv + 1) t t' :=
  regrown.recounted owns inside space
    ⟨counted.space, counted.next, counted.kvEntryCount.trans (congrArg (· + 1) regrown.kvEntryCount), counted.pages, counted.strayWrites⟩

/-- The first key that `get_entries_in_leaf` copies, also from a leaf with continuation regions. -/
theorem LeafAt.first_copied {m : Mem} (leaf : LeafAt m page (e :: entries) regions) (beyond : Mem) :
    ∃ value rest, getEntriesInLeaf (data m page beyond) = ⟨e.key, value⟩ :: rest := by
  obtain ⟨n, is⟩ : ∃ n, capacity = n + 1 := ⟨capacity - 1, by decide⟩
  have holds := leaf.data_holds beyond
  rw [← Nat.sub_zero capacity] at holds
  have copied := getEntriesFrom_cons holds leaf.headersInside (leaf.keys.nulFree e List.mem_cons_self) n
  rw [← is] at copied
  exact ⟨_, _, copied⟩

theorem LeafAt.copied {m : Mem} (leaf : LeafAt m page entries []) (beyond : Mem) : getEntriesInLeaf (data m page beyond) = entries := by
  have fits : 0 + entriesSize entries ≤ capacity := by
    rw [Nat.zero_add]
    exact leaf.fits
  have inside := HeadersInside.of_fits fits
  exact getEntriesFrom_eq inside.length_le_capacity (leaf.data_holds beyond) fits inside leaf.keys.nulFree

theorem addEntry_fits {key buffer : List UInt8} (hole : Hole lists held parent (digit key depth) (leaf page entries regions) t)
    (storable : Storable (entries ++ [⟨key, buffer⟩])) (splits : Splits (entries ++ [⟨key, buffer⟩]))
    (agree : Agree (depth + 1) (entries ++ [⟨key, buffer⟩])) (small : MetaPage.kvEntryCount t.mem + 1 < 2 ^ 64) (beyond : Mem) :
    Fits (MetaPage.nextFreePage t.mem + writeCost (KVEntry.size ⟨key, buffer⟩))
      (addEntry beyond parent (digit key depth) depth page key buffer t) fun _ t' =>
        Inserted held parent (digit key depth) depth (leaf page entries regions) ⟨key, buffer⟩ t t' := by
  obtain ⟨t₁, increased, counted⟩ := increaseKvEntryCount_run hole.space small
  have hole₁ := counted.hole hole
  obtain ⟨nonzero, low, at_⟩ := hole₁.rep
  have size : key.length + 1 + 8 + buffer.length = KVEntry.size ⟨key, buffer⟩ := rfl
  have room : capacity + 18 ≤ 2 * pageSize := by decide
  have next := counted.next
  have done : ∀ {sub' : Tree} {t' : Tx}, sub'.Sorts (depth + 1) ((leaf page entries regions).entries + {⟨key, buffer⟩}) →
      Regrown held parent (digit key depth) sub' (MetaPage.kvEntryCount t₁.mem) t₁ t' →
      Inserted held parent (digit key depth) depth (leaf page entries regions) ⟨key, buffer⟩ t t' := by
    intro sub' t' sorts regrown
    rw [counted.kvEntryCount] at regrown
    refine ⟨sub', sorts, regrown.before hole.owns (fun p theirs => counted.pages p ?_) counted.strayWrites⟩
    have nonzero := (hole.space.owned_ne (theirs.imp_right fun member => Multiset.mem_add.mpr (Or.inl member))).1
    omega
  rw [addEntry, Program.done_bind increased, getPage_bind, at_.usage, size]
  by_cases fits : entriesSize entries + KVEntry.size ⟨key, buffer⟩ ≤ capacity
  · obtain rfl : regions = [] := by
      by_contra chained
      have large := (at_.single chained).2
      omega
    have total : entriesSize (entries ++ [⟨key, buffer⟩]) ≤ capacity := by
      rw [entriesSize_append, entriesSize_cons]
      exact fits
    rw [if_pos fits]
    obtain ⟨t', run, touched, single⟩ := appendEntry_run at_.singlePage ⟨key, buffer⟩ total
    have rep' : (leaf page (entries ++ [⟨key, buffer⟩]) []).Rep t'.mem :=
      ⟨nonzero, low, .ofSinglePage single (by simp) storable.keys storable.short⟩
    have pages : (leaf page (entries ++ [⟨key, buffer⟩]) []).pages = (leaf page entries []).pages := rfl
    obtain ⟨regrown, same⟩ := hole₁.touched touched pages rfl rep'
    have sorts : (leaf page (entries ++ [⟨key, buffer⟩]) []).Sorts (depth + 1) _ := ⟨trivial, rfl, trivial⟩
    exact .intro run (done sorts regrown) (by omega)
  rw [if_neg fits, getPage_bind, getPage_bind, at_.entryCount]
  by_cases one : entries.length = 1
  · obtain ⟨e, rfl⟩ := List.length_eq_one_iff.mp one
    obtain ⟨value, rest, copied⟩ := at_.first_copied beyond
    rw [if_pos one, copied]
    have second : (⟨key, buffer⟩ : KVEntry) ∈ [e] ++ [⟨key, buffer⟩] := by simp
    have different : fnvHash e.key ≠ fnvHash key := by
      intro same
      have whole : ([e] ++ [KVEntry.mk key buffer]).filter (fun e' => fnvHash e'.key = fnvHash key) = [e] ++ [KVEntry.mk key buffer] := by
        simp [same]
      rcases splits (fnvHash key) with single | fitting
      · rw [whole] at single
        exact absurd single (by simp)
      · rw [whole, entriesSize_append, entriesSize_cons] at fitting
        exact fits fitting
    obtain ⟨d, bound, apart⟩ := digit_ne different
    have deeper : depth + 1 ≤ d := by
      by_contra shallow
      exact apart (agree e (by simp) _ second d (Nat.not_le.mp shallow))
    have same : digit e.key depth = digit key depth := agree e (by simp) _ second depth (Nat.lt_succ_self depth)
    obtain ⟨fuel, is⟩ : ∃ fuel, maxPages = fuel + 1 := ⟨maxPages - 1, by decide⟩
    have enough : splitsPerHash ≤ fuel := by
      have few : splitsPerHash + 1 ≤ maxPages := by decide
      omega
    have digits : splitsPerHash = 8 := rfl
    have large : 2 ^ 5 ≤ pageSize := by decide
    have crowded : Crowded ((leaf page [e] regions).entries + {⟨key, buffer⟩}) := by
      have total : entriesSize [e] = e.size := Nat.add_zero _
      refine ⟨Nat.lt_succ_self 1, (Nat.not_le.mp fits).trans_eq ?_⟩
      rw [total]
      rfl
    rw [is]
    refine (splitLeafFrom_down (splitLeafFrom_below e page regions (storable.sublist (List.sublist_append_right _ _)) deeper bound apart crowded
      (enough.trans (Nat.le_add_right _ _))) hole₁.space hole₁.rep hole.owns same).mono (by unfold writeCost; omega) ?_
    exact fun _ t' ⟨sub', sorts, regrown⟩ => done sorts regrown
  · obtain rfl : regions = [] := by
      by_contra chained
      exact one (at_.single chained).1
    rw [if_neg one, at_.copied beyond]
    have fitted := at_.fits
    have cost := subtreeCost_insert depth ⟨key, buffer⟩ (show entriesSize entries + entriesSize [] ≤ capacity from fitted)
    have count : (leaf page entries []).regionCount = 1 := rfl
    refine (createSubtree_fits hole₁ storable (by simp) splits agree).mono (by unfold writeCost; omega) ?_
    exact fun _ t' ⟨sub', sorts, regrown⟩ => done sorts regrown

theorem entries_leafEntries (last : sub.isNode = false) : sub.entries = (sub.leafEntries : Multiset KVEntry) := by
  cases sub with
  | node page children => cases last
  | _ => rfl

/-- `write_at_node` of a key that is not there. -/
theorem writeAtNode_inserts {key buffer : List UInt8} (hole : Hole lists held parent (digit key depth) sub t)
    (storable : Storable (sub.leafEntries ++ [⟨key, buffer⟩])) (splits : Splits (sub.leafEntries ++ [⟨key, buffer⟩]))
    (agree : Agree (depth + 1) (sub.leafEntries ++ [⟨key, buffer⟩])) (small : MetaPage.kvEntryCount t.mem + 1 < 2 ^ 64) (beyond : Mem) :
    Fits (MetaPage.nextFreePage t.mem + writeCost (KVEntry.size ⟨key, buffer⟩))
      (writeAtNode beyond parent (digit key depth) depth key (some buffer) t)
        fun _ t' => Inserted held parent (digit key depth) depth sub ⟨key, buffer⟩ t t' := by
  have last : (⟨key, buffer⟩ : KVEntry) ∈ sub.leafEntries ++ [⟨key, buffer⟩] := List.mem_append_right _ List.mem_cons_self
  have noNul := storable.keys.nulFree _ last
  rw [writeAtNode, if_neg (noNul.valid (storable.short _ last)), getPage_bind, hole.entry]
  cases sub with
  | node page children => cases hole.leaf
  | empty =>
    have cost : subtreeCost (depth + 1) (empty.leafEntries ++ [⟨key, buffer⟩]) = _ := subtreeCost_singleton (depth + 1) ⟨key, buffer⟩
    have digits : splitsPerHash = 8 := rfl
    have large : 32 ≤ pageSize := by decide
    have none_ : empty.regionCount = 0 := rfl
    rw [Tree.entry, if_pos rfl]
    refine (createSubtree_fits hole storable (List.cons_ne_nil _ _) splits agree).bind (by unfold writeCost; omega) ?_
    rintro _ t₁ ⟨sub', sorts, regrown⟩ le
    obtain ⟨lists₁, space₁⟩ := regrown.space
    obtain ⟨t', increased, counted⟩ := increaseKvEntryCount_run space₁ (by rw [regrown.kvEntryCount]; exact small)
    have next := counted.next
    refine .intro increased ⟨sub', sorts, regrown.counted hole.owns hole.inside space₁ counted⟩ ?_
    unfold writeCost
    omega
  | leaf page entries regions =>
    obtain ⟨nonzero, low, at_⟩ := hole.rep
    have absent : key ∉ entries.map KVEntry.key := by
      have nodup := storable.keys.nodup
      rw [List.map_append, List.nodup_append] at nodup
      exact fun member => nodup.2.2 key member key (by simp) rfl
    have none_ : offsetOf key entries = none := offsetOf_eq_none.mpr absent
    rw [Tree.entry, if_neg nonzero, clearMsb_leaf low, getPage_bind, at_.findEntryInLeaf_eq noNul.2, none_]
    exact addEntry_fits hole storable splits agree small beyond

/-- Different keys have different hashes. -/
def DistinctHashes (entries : Multiset KVEntry) : Prop :=
  ∀ e ∈ entries, ∀ e' ∈ entries, fnvHash e.key = fnvHash e'.key → e.key = e'.key

theorem distinctHashes_single (e : KVEntry) : DistinctHashes (e ::ₘ 0) := by
  intro e₁ member₁ e₂ member₂ _
  rw [Multiset.mem_singleton.mp member₁, Multiset.mem_singleton.mp member₂]

theorem splits_of_distinct (nodup : (entries.map KVEntry.key).Nodup) (distinct : DistinctHashes entries) : Splits entries := by
  intro hash
  refine Or.inl ?_
  have inside : ∀ e ∈ entries.filter fun e => fnvHash e.key = hash, e ∈ entries ∧ fnvHash e.key = hash := by
    intro e member
    simpa using member
  have nodup' : ((entries.filter fun e => fnvHash e.key = hash).map KVEntry.key).Nodup := (List.filter_sublist.map KVEntry.key).nodup nodup
  generalize entries.filter (fun e => fnvHash e.key = hash) = same_ at inside nodup'
  match same_, inside, nodup' with
  | [], _, _ => exact Nat.zero_le _
  | [_], _, _ => exact le_rfl
  | e :: e' :: rest, inside, nodup' =>
    obtain ⟨first, same⟩ := inside e List.mem_cons_self
    obtain ⟨second, same'⟩ := inside e' (List.mem_cons_of_mem _ List.mem_cons_self)
    have keys := distinct e first e' second (same.trans same'.symm)
    simp [keys] at nodup'

theorem follows_agree {path : List Branch} (agree : ∀ e ∈ entries, Follows e.key path) : Agree path.length entries := by
  intro e member e' member' d bound
  exact (follows_iff (agree e' member')).mp (agree e member) d bound

theorem Storable.snoc {m : Mem} (rep : sub.Rep m) (noNul : NulFree new.key) (short : new.key.length ≤ maxKeyLength)
    (size : new.size ≤ chainCapacity 30) (absent : new.key ∉ sub.leafEntries.map KVEntry.key) : Storable (sub.leafEntries ++ [new]) := by
  have old : Storable sub.leafEntries := by
    cases sub with
    | empty => exact ⟨⟨fun e member => absurd member List.not_mem_nil, List.nodup_nil⟩, fun e member => absurd member List.not_mem_nil,
        fun e member => absurd member List.not_mem_nil⟩
    | node page children => exact ⟨⟨fun e member => absurd member List.not_mem_nil, List.nodup_nil⟩,
        fun e member => absurd member List.not_mem_nil, fun e member => absurd member List.not_mem_nil⟩
    | leaf page entries regions =>
      obtain ⟨_, _, at_⟩ := rep
      refine ⟨at_.keys, at_.short, fun e member => ?_⟩
      have le : e.size ≤ entriesSize entries := List.single_le_sum (fun _ _ => Nat.zero_le _) _ (List.mem_map_of_mem member)
      exact le.trans (at_.fits.trans (chainCapacity_mono at_.few))
  have each : ∀ {p : KVEntry → Prop}, (∀ e ∈ sub.leafEntries, p e) → p new → ∀ e ∈ sub.leafEntries ++ [new], p e := by
    intro p before last e member
    rcases List.mem_append.mp member with inside | added
    · exact before e inside
    · rw [List.mem_singleton.mp added]
      exact last
  refine ⟨⟨each old.keys.nulFree noNul, ?_⟩, each old.short short, each old.sizes size⟩
  rw [List.map_append, List.nodup_append]
  refine ⟨old.keys.nodup, List.nodup_singleton _, fun key member key' added same => absent ?_⟩
  rw [List.map_singleton, List.mem_singleton] at added
  rw [← added, ← same]
  exact member

theorem leafEntries_le (last : sub.isNode = false) {path : List Branch} {e : KVEntry} (member : e ∈ sub.leafEntries) :
    e ∈ (plug path sub).entries := by
  rw [entries_plug, entries_leafEntries last]
  exact Multiset.mem_add.mpr (Or.inr (Multiset.mem_coe.mpr member))

theorem absent_leaf {path : List Branch} {key : List UInt8} (follows : Follows key path) (last : sub.isNode = false)
    (absent : (plug path sub).lookup key 0 = none) : key ∉ sub.leafEntries.map KVEntry.key := by
  rw [lookup_plug follows] at absent
  cases sub with
  | empty => exact List.not_mem_nil
  | node page children => cases last
  | leaf page entries regions =>
    intro member
    obtain ⟨e, inside, rfl⟩ := List.mem_map.mp member
    have none_ := List.find?_eq_none.mp (Option.map_eq_none_iff.mp absent) e inside
    exact none_ (decide_eq_true rfl)

theorem Tree.Sorts.entries_plug {sub' : Tree} {path : List Branch} {depth : Nat} (sorts : sub'.Sorts depth (sub.entries + {new})) :
    (plug path sub').entries = new ::ₘ (plug path sub).entries := by
  rw [Tree.entries_plug, Tree.entries_plug, sorts.entries, ← add_assoc, ← Multiset.singleton_add, add_comm]

/-- `write` of a new key, on each of its paths. -/
theorem WellFormed.write_sorts {key v : List UInt8} {b : Branch} {rest : List Branch} (wf : WellFormed (plug (b :: rest) sub) lists t)
    (follows : Follows key (b :: rest)) (last : sub.isNode = false) (found : findParent key t = .done (b.page, b.index.val, rest.length) t)
    (absent : (plug (b :: rest) sub).lookup key 0 = none) (noNul : NulFree key) (short : key.length ≤ maxKeyLength)
    (size : KVEntry.size ⟨key, v⟩ ≤ chainCapacity 30) (splits : Splits (sub.leafEntries ++ [⟨key, v⟩])) (beyond : Mem) :
    Fits (MetaPage.nextFreePage t.mem + writeCost (KVEntry.size ⟨key, v⟩)) (write beyond key (some v) t) fun _ t' =>
      ∃ sub' lists', WellFormed (plug (b :: rest) sub') lists' t' ∧ sub'.Sorts (rest.length + 1) (sub.entries + {⟨key, v⟩}) ∧
        t'.strayWrites = t.strayWrites := by
  have hole := wf.hole last
  have inLeaf := entries_leafEntries last
  have storable := Storable.snoc hole.rep (show NulFree (KVEntry.key ⟨key, v⟩) from noNul) short size
    (absent_leaf follows last absent)
  have follow : ∀ e ∈ sub.leafEntries ++ [⟨key, v⟩], Follows e.key (b :: rest) := by
    intro e member
    rcases List.mem_append.mp member with inside | added
    · refine (placed_plug.mp wf.placed).2.2 e ?_
      rw [inLeaf]
      exact Multiset.mem_coe.mpr inside
    · rw [List.mem_singleton.mp added]
      exact follows
  have agree := follows_agree follow
  rw [List.length_cons] at agree
  rw [← follows.1] at hole
  rw [write, Program.done_bind found]
  dsimp only
  rw [← follows.1]
  refine (writeAtNode_inserts hole storable splits agree wf.kvEntryCount_lt beyond).mono le_rfl fun _ t' ⟨sub', sorts, regrown⟩ => ?_
  rw [follows.1] at regrown
  have leads : ∀ e ∈ sub'.entries, Follows e.key (b :: rest) := by
    intro e member
    rw [sorts.entries, inLeaf] at member
    exact follow e (Multiset.mem_coe.mp member)
  have count : MetaPage.kvEntryCount t.mem + 1 = (plug (b :: rest) sub').entries.card := by
    rw [sorts.entries_plug, Multiset.card_cons, wf.kvEntryCount]
  obtain ⟨lists', wf'⟩ := wf.regrow regrown sorts.placed leads count
  exact ⟨sub', lists', wf', sorts, regrown.strayWrites⟩

theorem WellFormed.write_path {key v : List UInt8} {b : Branch} {rest : List Branch} (wf : WellFormed (plug (b :: rest) sub) lists t)
    (follows : Follows key (b :: rest)) (last : sub.isNode = false) (found : findParent key t = .done (b.page, b.index.val, rest.length) t)
    (absent : (plug (b :: rest) sub).lookup key 0 = none) (noNul : NulFree key) (short : key.length ≤ maxKeyLength)
    (size : KVEntry.size ⟨key, v⟩ ≤ chainCapacity 30) (splits : Splits (sub.leafEntries ++ [⟨key, v⟩])) (beyond : Mem) :
    Fits (MetaPage.nextFreePage t.mem + writeCost (KVEntry.size ⟨key, v⟩)) (write beyond key (some v) t) fun _ t' =>
      ∃ tree' lists', WellFormed tree' lists' t' ∧ tree'.entries = ⟨key, v⟩ ::ₘ (plug (b :: rest) sub).entries ∧
        t'.strayWrites = t.strayWrites :=
  (wf.write_sorts follows last found absent noNul short size splits beyond).mono le_rfl
    fun _ _ ⟨_, lists', wf', sorts, stray⟩ => ⟨_, lists', wf', sorts.entries_plug, stray⟩

theorem WellFormed.write_new {tree : Tree} {key v : List UInt8} (wf : WellFormed tree lists t) (absent : tree.lookup key 0 = none)
    (noNul : NulFree key) (short : key.length ≤ maxKeyLength) (size : KVEntry.size ⟨key, v⟩ ≤ chainCapacity 30)
    (distinct : DistinctHashes (⟨key, v⟩ ::ₘ tree.entries))
    (room : MetaPage.nextFreePage t.mem + writeCost (KVEntry.size ⟨key, v⟩) ≤ maxPages) (beyond : Mem) :
    (write beyond key (some v) t).Ends fun _ t' => (∃ tree' lists', WellFormed tree' lists' t' ∧
      tree'.entries = ⟨key, v⟩ ::ₘ tree.entries ∧ t'.strayWrites = t.strayWrites) ∧
        MetaPage.nextFreePage t'.mem ≤ MetaPage.nextFreePage t.mem + writeCost (KVEntry.size ⟨key, v⟩) := by
  obtain ⟨b, rest, sub, rfl, follows, last, found⟩ := wf.rooted.findParent_run key
  have storable := Storable.snoc (wf.hole last).rep (show NulFree (KVEntry.key ⟨key, v⟩) from noNul) short size
    (absent_leaf follows last absent)
  have subset : ∀ e ∈ sub.leafEntries ++ [⟨key, v⟩], e ∈ (⟨key, v⟩ : KVEntry) ::ₘ (plug (b :: rest) sub).entries := by
    intro e member
    rcases List.mem_append.mp member with inside | added
    · exact Multiset.mem_cons_of_mem (leafEntries_le last inside)
    · rw [List.mem_singleton.mp added]
      exact Multiset.mem_cons_self _ _
  have splits := splits_of_distinct storable.keys.nodup fun e member e' member' same =>
    distinct e (subset e (Multiset.mem_coe.mp member)) e' (subset e' (Multiset.mem_coe.mp member')) same
  exact (wf.write_path follows last found absent noNul short size splits beyond).resolve_right fun ⟨_, more⟩ => Nat.not_lt.mpr room more

/-- The map in a new file. -/
theorem construct_wellFormed {m : Mem} (zero : ∀ page, 1 ≤ page → ZeroPage m page) :
    (construct { mem := m }).Ends fun _ t' => WellFormed (node rootPage noChildren) newLists t' ∧
      MetaPage.nextFreePage t'.mem = maxOrder + 3 := by
  refine (construct_space fun page low => zero page (by omega)).mono fun _ t' ⟨space, _, _, root, kvEntryCount, next⟩ => ⟨?_, next⟩
  exact
    { root := ⟨_, rfl⟩
      rep := blank_rep ((zero 1 le_rfl).congr root) (by decide)
      placed := fun i => ⟨trivial, fun e member => absurd member (Multiset.notMem_zero e)⟩
      space := by
        rw [blank_pages, Multiset.erase_singleton]
        exact space
      kvEntryCount := by
        rw [kvEntryCount, blank_entries]
        rfl }

theorem distinctHashes_of_nodup {entries : List KVEntry} (nodup : (entries.map fun e => fnvHash e.key).Nodup) : DistinctHashes entries := by
  intro e member e' member' same
  rw [List.inj_on_of_nodup_map nodup member member' same]

/-- One more key, with a hash of its own. -/
theorem WellFormed.write_apart {tree : Tree} {key v : List UInt8} {entries : List KVEntry} (wf : WellFormed tree lists t)
    (stored : tree.entries = (entries : Multiset KVEntry)) (noNul : NulFree key) (short : key.length ≤ maxKeyLength)
    (size : KVEntry.size ⟨key, v⟩ ≤ chainCapacity 30) (nodup : ((⟨key, v⟩ :: entries).map fun e => fnvHash e.key).Nodup)
    (room : MetaPage.nextFreePage t.mem + writeCost (KVEntry.size ⟨key, v⟩) ≤ maxPages) :
    (write (fun _ => 0) key (some v) t).Ends fun _ t' => ∃ tree' lists', WellFormed tree' lists' t' ∧
      tree'.entries = ((⟨key, v⟩ :: entries : List KVEntry) : Multiset KVEntry) ∧
        MetaPage.nextFreePage t'.mem ≤ MetaPage.nextFreePage t.mem + writeCost (KVEntry.size ⟨key, v⟩) := by
  have absent : tree.lookup key 0 = none := by
    by_contra some_
    obtain ⟨w, found⟩ := Option.ne_none_iff_exists'.mp some_
    have member := (lookup_iff wf.rep wf.placed).mp found
    rw [stored, Multiset.mem_coe] at member
    exact (List.nodup_cons.mp nodup).1 (List.mem_map.mpr ⟨_, member, rfl⟩)
  have distinct : DistinctHashes (⟨key, v⟩ ::ₘ tree.entries) := by
    rw [stored, Multiset.cons_coe]
    exact distinctHashes_of_nodup nodup
  refine (wf.write_new absent noNul short size distinct room fun _ => 0).mono ?_
  rintro _ t' ⟨⟨tree', lists', wf', entries', _⟩, bound⟩
  exact ⟨tree', lists', wf', by rw [entries', stored, Multiset.cons_coe], bound⟩

/-- A new map and then one `write` for each of the entries, of which the first comes last. -/
def writeAll : List KVEntry → TxProgram Unit
  | [] => construct
  | e :: rest => do
    writeAll rest
    write (fun _ => 0) e.key (some e.value)

theorem writeAll_wellFormed (entries : List KVEntry)
    (storable : ∀ e ∈ entries, NulFree e.key ∧ e.key.length ≤ maxKeyLength ∧ e.size ≤ chainCapacity 30)
    (nodup : (entries.map fun e => fnvHash e.key).Nodup)
    (room : maxOrder + 3 + (entries.map fun e => writeCost e.size).sum ≤ maxPages) :
    (writeAll entries { mem := fun _ => 0 }).Ends fun _ t => ∃ tree lists, WellFormed tree lists t ∧
      tree.entries = (entries : Multiset KVEntry) ∧
      MetaPage.nextFreePage t.mem ≤ maxOrder + 3 + (entries.map fun e => writeCost e.size).sum := by
  induction entries with
  | nil =>
    refine (construct_wellFormed fun _ _ _ _ => rfl).mono fun _ t ⟨wf, next⟩ => ?_
    exact ⟨_, _, wf, blank_entries _, next.le⟩
  | cons e rest ih =>
    rw [List.map_cons, List.sum_cons] at room ⊢
    refine (ih (fun e member => storable e (List.mem_cons_of_mem _ member)) (List.nodup_cons.mp nodup).2 (by omega)).bind ?_
    rintro _ t ⟨tree, lists, wf, is, next⟩
    obtain ⟨noNul, short, size⟩ := storable e List.mem_cons_self
    refine (wf.write_apart is noNul short size nodup (show _ + writeCost e.size ≤ _ by omega)).mono ?_
    rintro _ t' ⟨tree', lists', wf', is', next'⟩
    exact ⟨tree', lists', wf', is', next'.trans (show _ + writeCost e.size ≤ _ by omega)⟩

/-- A map with the given entries. -/
theorem exists_entries (entries : List KVEntry)
    (storable : ∀ e ∈ entries, NulFree e.key ∧ e.key.length ≤ maxKeyLength ∧ e.size ≤ chainCapacity 30)
    (nodup : (entries.map fun e => fnvHash e.key).Nodup)
    (room : maxOrder + 3 + (entries.map fun e => writeCost e.size).sum ≤ maxPages) :
    ∃ t tree lists, WellFormed tree lists t ∧ tree.entries = (entries : Multiset KVEntry) ∧
      (∀ e ∈ entries, tree.lookup e.key 0 = some e.value) ∧
      MetaPage.nextFreePage t.mem ≤ maxOrder + 3 + (entries.map fun e => writeCost e.size).sum := by
  obtain ⟨_, t, _, tree, lists, wf, is, next⟩ := writeAll_wellFormed entries storable nodup room
  exact ⟨t, tree, lists, wf, is, fun e member => (lookup_iff wf.rep wf.placed).mpr (is ▸ Multiset.mem_coe.mpr member), next⟩

/-- A map with one entry. -/
theorem exists_singleEntry (e : KVEntry) (noNul : NulFree e.key) (short : e.key.length ≤ maxKeyLength) (size : e.size ≤ chainCapacity 30) :
    ∃ t tree lists, WellFormed tree lists t ∧ tree.entries = {e} ∧ tree.lookup e.key 0 = some e.value ∧
      MetaPage.nextFreePage t.mem ≤ maxOrder + 3 + writeCost e.size := by
  have large : maxOrder + 3 + writeCost (chainCapacity 30) ≤ maxPages := by decide
  have cost : writeCost e.size ≤ writeCost (chainCapacity 30) := Nat.add_le_add_left (Nat.div_le_div_right size) _
  have sum : ([e].map fun e => writeCost e.size).sum = writeCost e.size := List.sum_singleton
  obtain ⟨t, tree, lists, wf, is, stored, next⟩ := exists_entries [e] (List.forall_mem_singleton.mpr ⟨noNul, short, size⟩)
    (List.nodup_singleton _) (by rw [sum]; omega)
  rw [sum] at next
  exact ⟨t, tree, lists, wf, is, stored e (List.mem_singleton_self e), next⟩

/-- The map after a new entry has been written. -/
structure MapsAlso (tree : Tree) (t : Tx) (key v : List UInt8) (tree' : Tree) (t' : Tx) : Prop where
  entries : tree'.entries = ⟨key, v⟩ ::ₘ tree.entries
  lookup : ∀ key', tree'.lookup key' 0 = if key' = key then some v else tree.lookup key' 0
  kvEntryCount : MetaPage.kvEntryCount t'.mem = MetaPage.kvEntryCount t.mem + 1
  strayWrites : t'.strayWrites = t.strayWrites
  reads : ∀ beyond key' v', (⟨key', v'⟩ : KVEntry) ∈ (⟨key, v⟩ : KVEntry) ::ₘ tree.entries →
    (read beyond key' t').Ends fun r t'' => t'' = t' ∧ r.found = true ∧ r.buffer = v'

/-- Whichever path it takes, `write` of a new key adds its entry and changes no other. -/
theorem write_inserts {tree : Tree} {key v : List UInt8} (wf : WellFormed tree lists t) (absent : tree.lookup key 0 = none) (noNul : NulFree key)
    (short : key.length ≤ maxKeyLength) (size : KVEntry.size ⟨key, v⟩ ≤ chainCapacity 30)
    (distinct : DistinctHashes (⟨key, v⟩ ::ₘ tree.entries))
    (room : MetaPage.nextFreePage t.mem + writeCost (KVEntry.size ⟨key, v⟩) ≤ maxPages) (beyond : Mem) :
    (write beyond key (some v) t).Ends fun _ t' => ∃ tree' lists', WellFormed tree' lists' t' ∧ MapsAlso tree t key v tree' t' := by
  refine (wf.write_new absent noNul short size distinct room beyond).mono ?_
  rintro _ t' ⟨⟨tree', lists', wf', entries, strayWrites⟩, _⟩
  refine ⟨tree', lists', wf', entries, lookup_insert wf.rep wf.placed wf'.rep wf'.placed absent entries, ?_, strayWrites,
    fun beyond' key' v' member => wf'.read_stored ?_ beyond'⟩
  · rw [wf'.kvEntryCount, wf.kvEntryCount, entries, Multiset.card_cons]
  · rw [← entries] at member
    exact (lookup_iff wf'.rep wf'.placed).mpr member

theorem write_inserts_new_file :
    ((construct >>= fun _ => write (fun _ => 0) [97] (some [7])) { mem := fun _ => 0 }).Ends fun _ t' =>
      ∃ tree lists, WellFormed tree lists t' ∧ tree.lookup [97] 0 = some [7] := by
  refine (construct_wellFormed fun _ _ _ _ => rfl).bind fun _ t₁ ⟨wf, next⟩ => ?_
  have none_ : (node rootPage noChildren).lookup [97] 0 = none := rfl
  have distinct : DistinctHashes (⟨[97], [7]⟩ ::ₘ (node rootPage noChildren).entries) := by
    rw [blank_entries]
    exact distinctHashes_single _
  have room : MetaPage.nextFreePage t₁.mem + writeCost (KVEntry.size ⟨[97], [7]⟩) ≤ maxPages := by
    rw [next]
    decide
  refine (write_inserts wf none_ (by decide) (by decide) (by decide) distinct room fun _ => 0).mono ?_
  rintro _ t' ⟨tree', lists', wf', also⟩
  refine ⟨tree', lists', wf', ?_⟩
  rw [also.lookup, if_pos rfl]

end DiskMap
