import DiskMap.Map.LeafIntegrity
import DiskMap.Map.MapRuns
import Mathlib.Data.Fintype.Lattice

namespace DiskMap
open ByteMemory LeafNodeStartPage DiskMap.Tree

/-- The bytes of a page. -/
def pageContent (m : Mem) (page : Nat) : Mem := fun i => m (page * pageSize + i)

theorem pageContent_leAt (m : Mem) (page offset width : Nat) : leAt (pageContent m page) offset width = leAt m (page * pageSize + offset) width :=
  congrArg leNat (List.map_congr_left fun i _ => by rw [pageContent, Nat.add_assoc])

/-- The call of `validate_leaf_integrity` for a leaf, which does not catch its exception. -/
def verifyLeaf (frames : Nat → PoolFrame) (steps page : Nat) : TxProgram Unit := do
  let outcome ← getPage fun m => validateLeafIntegrity (pageContent m page) (frames page) steps
  match outcome with
  | .accepts => return ()
  | .throws message => .throw message
  | .outside | .running => .stuck

/-- The first rounds of the loop over the entries of an internal node. -/
def verifyChildren (verify : Nat → TxProgram Unit) (page : Nat) : Nat → TxProgram Unit
  | 0 => pure ()
  | i + 1 => do
    verifyChildren verify page i
    let value ← getPage fun m => InternalNodePage.entries m page i
    if value ≠ 0 then verify value else return ()

def verifyIntegrityRecursive (frames : Nat → PoolFrame) (steps : Nat) : Nat → Nat → TxProgram Unit
  | 0, _ => .stuck
  | fuel + 1, page =>
    if getMsb page ≠ 0 then verifyChildren (verifyIntegrityRecursive frames steps fuel) (clearMsb page) branchingFactor
    else verifyLeaf frames steps page

def verifyIntegrity (frames : Nat → PoolFrame) (fuel : Nat) : TxProgram Unit :=
  verifyIntegrityRecursive frames fuel fuel (setMsb rootPage 1)

namespace Tree

/-- The internal nodes are on their pages, whatever is on those of the leaves. -/
def Shaped (m : Mem) : Tree → Prop
  | empty => True
  | leaf page _ _ => page ≠ 0 ∧ page < 2 ^ 63
  | node page children => page < 2 ^ 63 ∧
      ∀ i : Fin branchingFactor, InternalNodePage.entries m page i = (children i).entry ∧ (children i).Shaped m

def AllLeaves (p : Nat → Prop) : Tree → Prop
  | empty => True
  | leaf page _ _ => p page
  | node _ children => ∀ i, (children i).AllLeaves p

theorem Rep.shaped {m : Mem} {tree : Tree} (rep : tree.Rep m) : tree.Shaped m := by
  induction tree with
  | empty => trivial
  | leaf page entries regions => exact ⟨rep.1, rep.2.1⟩
  | node page children ih => exact ⟨rep.1, fun i => ⟨(rep.2 i).1, ih i (rep.2 i).2⟩⟩

theorem Shaped.eq_empty {m : Mem} {tree : Tree} (shaped : tree.Shaped m) (zero : tree.entry = 0) : tree = empty := by
  cases tree with
  | empty => rfl
  | leaf page entries regions => exact absurd zero shaped.1
  | node page children =>
    change page + 2 ^ 63 = 0 at zero
    omega

end Tree

/-- A check that passes what is sound, and throws otherwise. -/
def Decides (check : TxProgram Unit) (t : Tx) (sound : Prop) : Prop :=
  check t = .done () t ∧ sound ∨ (∃ message, check t = .threw message t) ∧ ¬ sound

section
variable {check first second : TxProgram Unit} {t : Tx} {sound p q : Prop}

theorem Decides.congr (decides : Decides check t p) (same : p ↔ q) : Decides check t q := by
  rwa [← propext same]

/-- The second check is only made where the first one passes. -/
theorem Decides.and (decides : Decides first t p) (later : Decides second t q) : Decides (first >>= fun _ => second) t (p ∧ q) := by
  rcases decides with ⟨passes, one⟩ | ⟨⟨message, throws⟩, not_one⟩
  · unfold Decides
    rw [Program.done_bind passes]
    rcases later with ⟨passes', two⟩ | ⟨throws', not_two⟩
    · exact Or.inl ⟨passes', one, two⟩
    · exact Or.inr ⟨throws', fun both => not_two both.2⟩
  · exact Or.inr ⟨⟨message, Program.threw_bind throws _⟩, fun both => not_one both.1⟩

theorem Decides.done_iff (decides : Decides check t sound) : check t = .done () t ↔ sound := by
  rcases decides with ⟨passes, one⟩ | ⟨⟨message, throws⟩, not_one⟩
  · exact iff_of_true passes one
  · refine iff_of_false (fun passes => ?_) not_one
    rw [passes] at throws
    cases throws

end

variable {t : Tx} {frames : Nat → PoolFrame} {tree : Tree} {page : Nat}

/-- What `validate_leaf_integrity` is meant to accept. -/
def SoundLeaf (m : Mem) (page : Nat) : Prop := ∃ entries, ValidLeaf (pageContent m page) entries

theorem verifyLeaf_decides (checks : ChecksLeaf (pageContent t.mem page) (frames page)) :
    ∃ enough, ∀ steps, enough ≤ steps → Decides (verifyLeaf frames steps page) t (SoundLeaf t.mem page) := by
  obtain ⟨enough, holds⟩ := checks
  refine ⟨enough, fun steps reached => ?_⟩
  obtain ⟨ended, inside, accepted⟩ := holds steps reached
  unfold Decides verifyLeaf
  rw [getPage_bind]
  cases outcome : validateLeafIntegrity (pageContent t.mem page) (frames page) steps with
  | accepts => exact Or.inl ⟨rfl, accepted.mp outcome⟩
  | throws message =>
    refine Or.inr ⟨⟨message, rfl⟩, fun sound => ?_⟩
    rw [accepted.mpr sound] at outcome
    cases outcome
  | outside => exact absurd outcome inside
  | running => exact absurd outcome ended

/-- The loop stops at the first child that is not sound. -/
theorem verifyChildren_decides {verify : Nat → TxProgram Unit} {children : Fin branchingFactor → Tree} (sound : Tree → Prop)
    (entries : ∀ i : Fin branchingFactor, InternalNodePage.entries t.mem page i = (children i).entry)
    (nothing : ∀ i, (children i).entry = 0 → sound (children i))
    (each : ∀ i, (children i).entry ≠ 0 → Decides (verify (children i).entry) t (sound (children i))) {n : Nat}
    (within : n ≤ branchingFactor) :
    Decides (verifyChildren verify page n) t (∀ i : Fin branchingFactor, i.val < n → sound (children i)) := by
  induction n with
  | zero => exact Or.inl ⟨rfl, fun i impossible => absurd impossible (Nat.not_lt_zero _)⟩
  | succ n ih =>
    have here := entries ⟨n, within⟩
    have next : Decides (getPage (fun m => InternalNodePage.entries m page n) >>= fun value => if value ≠ 0 then verify value else return ()) t
        (sound (children ⟨n, within⟩)) := by
      unfold Decides
      rw [getPage_bind, here]
      by_cases zero : (children ⟨n, within⟩).entry = 0
      · rw [if_neg (not_not.mpr zero)]
        exact Or.inl ⟨rfl, nothing _ zero⟩
      · rw [if_pos zero]
        exact each _ zero
    refine ((ih (Nat.le_of_succ_le within)).and next).congr ⟨?_, fun all => ⟨fun i before => all i (by omega), all _ (Nat.lt_succ_self n)⟩⟩
    rintro ⟨before, last⟩ i upTo
    rcases Nat.lt_succ_iff_lt_or_eq.mp upTo with lower | same
    · exact before i lower
    · rwa [show i = ⟨n, within⟩ from Fin.ext same]

/-- The recursion passes the whole tree. -/
theorem verifyIntegrityRecursive_decides (shaped : tree.Shaped t.mem) (some_ : tree.entry ≠ 0)
    (checks : tree.AllLeaves fun page => ChecksLeaf (pageContent t.mem page) (frames page)) :
    ∃ enough, ∀ steps fuel, enough ≤ steps → enough ≤ fuel →
      Decides (verifyIntegrityRecursive frames steps fuel tree.entry) t (tree.AllLeaves (SoundLeaf t.mem)) := by
  induction tree with
  | empty => exact absurd rfl some_
  | leaf page entries regions =>
    obtain ⟨enough, holds⟩ := verifyLeaf_decides checks
    refine ⟨enough + 1, fun steps fuel reached reached' => ?_⟩
    obtain ⟨fuel, rfl⟩ := Nat.exists_eq_add_of_le' (show 1 ≤ fuel by omega)
    rw [verifyIntegrityRecursive, show (leaf page entries regions).entry = page from rfl, getMsb_leaf shaped.2, if_neg (not_not.mpr rfl)]
    exact holds steps (by omega)
  | node page children ih =>
    obtain ⟨low, below⟩ := shaped
    have each : ∀ i, ∃ enough, (children i).entry ≠ 0 → ∀ steps fuel, enough ≤ steps → enough ≤ fuel →
        Decides (verifyIntegrityRecursive frames steps fuel (children i).entry) t ((children i).AllLeaves (SoundLeaf t.mem)) := by
      intro i
      by_cases zero : (children i).entry = 0
      · exact ⟨0, fun other => absurd zero other⟩
      · obtain ⟨enough, holds⟩ := ih i (below i).2 zero (checks i)
        exact ⟨enough, fun _ => holds⟩
    choose enough holds using each
    refine ⟨Finset.univ.sup enough + 1, fun steps fuel reached reached' => ?_⟩
    obtain ⟨fuel, rfl⟩ := Nat.exists_eq_add_of_le' (show 1 ≤ fuel by omega)
    have top : ∀ i, enough i ≤ Finset.univ.sup enough := fun i => Finset.le_sup (Finset.mem_univ i)
    rw [verifyIntegrityRecursive, show (node page children).entry = page + 2 ^ 63 from rfl, getMsb_node low, if_pos Nat.one_ne_zero, clearMsb_node low]
    refine (verifyChildren_decides (AllLeaves (SoundLeaf t.mem)) (fun i => (below i).1) (fun i zero => ?_) (fun i other => ?_) le_rfl).congr
      ⟨fun all i => all i i.isLt, fun all i _ => all i⟩
    · rw [(below i).2.eq_empty zero]
      trivial
    · have bound := top i
      exact holds i other steps fuel (by omega) (by omega)

theorem Tree.AllLeaves.mono {p q : Nat → Prop} (all : tree.AllLeaves p) (implies : ∀ page, p page → q page) : tree.AllLeaves q := by
  induction tree with
  | empty => trivial
  | leaf page entries regions => exact implies page all
  | node page children ih => exact fun i => ih i (all i)

/-- `verify_integrity` ends on every map whose internal nodes are a tree, and throws exactly if some leaf is not sound. -/
theorem verifyIntegrity_decides {children : Fin branchingFactor → Tree} (shaped : (node rootPage children).Shaped t.mem)
    (guarded : (node rootPage children).AllLeaves fun page => OverrunGuarded (pageContent t.mem page) (frames page)) :
    ∃ enough, ∀ fuel, enough ≤ fuel → Decides (verifyIntegrity frames fuel) t ((node rootPage children).AllLeaves (SoundLeaf t.mem)) := by
  have low : rootPage < 2 ^ 63 := by decide
  have entry : setMsb rootPage 1 = (node rootPage children).entry := setMsb_node low
  have some_ : (node rootPage children).entry ≠ 0 := by
    rw [← entry]
    decide
  obtain ⟨enough, holds⟩ := verifyIntegrityRecursive_decides shaped some_ (guarded.mono fun page => OverrunGuarded.checksLeaf)
  refine ⟨enough, fun fuel reached => ?_⟩
  unfold verifyIntegrity
  rw [entry]
  exact holds fuel fuel reached reached

/-- A root with a leaf that has no entries, and counts one. -/
def brokenLeaf : Mem :=
  overwrite (overwrite (fun _ => 0) (rootPage * pageSize + InternalNodePage.entriesOffset 0) 8 (leBytes 8 2)) (2 * pageSize + entryCountOffset) 2
    (leBytes 2 1)

def oneLeaf (i : Fin branchingFactor) : Tree := if i.val = 0 then leaf 2 [] [] else empty

theorem brokenLeaf_shaped : (node rootPage oneLeaf).Shaped brokenLeaf := by
  refine ⟨by decide, fun i => ?_⟩
  obtain ⟨first, others⟩ := InternalNodePage.setEntry (fun _ => 0) rootPage 0 (show 2 < 2 ^ 64 by decide)
  have apart : ∀ index, index < branchingFactor → InternalNodePage.entries brokenLeaf rootPage index = InternalNodePage.entries
      (overwrite (fun _ => 0) (rootPage * pageSize + InternalNodePage.entriesOffset 0) 8 (leBytes 8 2)) rootPage index := by
    intro index within
    have inside := InternalNodePage.entriesOffset_inside within
    refine leAt_overwrite_outside (Or.inl ?_)
    unfold rootPage pageSize
    unfold pageSize at inside
    omega
  rw [apart i i.isLt, oneLeaf]
  by_cases zero : i.val = 0
  · rw [if_pos zero, zero, first]
    exact ⟨rfl, by decide, by decide⟩
  · rw [if_neg zero, others i zero]
    exact ⟨leAt_zero fun _ _ => rfl, trivial⟩

theorem brokenLeaf_encodes : Encodes (pageContent brokenLeaf 2) 0 [] where
  keys _ member := absurd member List.not_mem_nil
  inside := trivial
  holds i within := by
    refine (overwrite_outside ?_).trans (overwrite_outside ?_)
    · unfold entryCountOffset dataOffset
      omega
    · unfold rootPage InternalNodePage.entriesOffset pageSize
      omega

/-- The check throws there. -/
theorem verifyIntegrity_decides_broken : ¬ (node rootPage oneLeaf).AllLeaves (SoundLeaf brokenLeaf) ∧ ∃ enough, ∀ fuel, enough ≤ fuel →
    Decides (verifyIntegrity (fun _ => ⟨4096, by decide⟩) fuel) { mem := brokenLeaf } ((node rootPage oneLeaf).AllLeaves (SoundLeaf brokenLeaf)) := by
  refine ⟨fun all => ?_, verifyIntegrity_decides (t := { mem := brokenLeaf }) brokenLeaf_shaped fun i => ?_⟩
  · obtain ⟨entries, valid⟩ := all ⟨0, by unfold branchingFactor; decide⟩
    have count := valid.entryCount
    rw [← (brokenLeaf_encodes.unique valid.encodes).1, pageContent_leAt, brokenLeaf, leAt_overwrite_self] at count
    cases count
  · unfold oneLeaf
    split
    · intro entries encodes far
      rw [← (brokenLeaf_encodes.unique encodes).2] at far
      exact absurd far (Nat.not_lt_zero _)
    · trivial

section
variable {m : Mem} {entries : List KVEntry} {regions : List Nat} {lists : Nat → FreeList} {frame : PoolFrame}

theorem LeafAt.encodes (leaf : LeafAt m page entries regions) : Encodes (pageContent m page) 0 entries where
  keys := leaf.keys.nulFree
  inside := leaf.headersInside
  holds i within := by
    change m (page * pageSize + (dataOffset + (0 + i))) = _
    rw [Nat.zero_add, ← Nat.add_assoc]
    exact data_holds_iff.mp (leaf.data_holds fun _ => 0) i within

/-- A leaf that is longer than its page has a next page. -/
theorem LeafAt.next_ne_zero (leaf : LeafAt m page entries regions) (pages : ∀ p ∈ leafPages page regions, p ≠ 0)
    (far : capacity < entriesSize entries) : leAt (pageContent m page) nextOffset 8 ≠ 0 := by
  rw [pageContent_leAt]
  have link := leaf.links 0 page rfl
  cases regions with
  | nil => exact absurd leaf.fits (Nat.not_le.mpr far)
  | cons region rest =>
    have here : region ∈ leafPages page (region :: rest) := regionPage_mem (i := 1) rfl (k := 0) (by decide)
    exact fun zero => pages region here (link.symm.trans zero)

theorem LeafAt.sound (leaf : LeafAt m page entries regions) (pages : ∀ p ∈ leafPages page regions, p ≠ 0) : SoundLeaf m page := by
  refine ⟨entries, leaf.encodes, ?_, leaf.next_ne_zero pages⟩
  rw [pageContent_leAt]
  exact leaf.entryCount

/-- The lengths of values are far from the end of the address space. -/
theorem LeafAt.guarded (leaf : LeafAt m page entries regions) (pages : ∀ p ∈ leafPages page regions, p ≠ 0) (low : frame.base < 2 ^ 63) :
    OverrunGuarded (pageContent m page) frame := by
  intro other encodes far
  have same := (encodes.unique leaf.encodes).2
  have fits := leaf.fits.trans (chainCapacity_mono leaf.few)
  have small : dataOffset + chainCapacity 30 < 2 ^ 63 := by decide
  exact ⟨by omega, Or.inl (leaf.next_ne_zero pages (same ▸ far))⟩

theorem Tree.Rep.allLeaves {p : Nat → Prop} (rep : tree.Rep m) (pages : ∀ page ∈ tree.pages, page ≠ 0)
    (each : ∀ page entries regions, LeafAt m page entries regions → (∀ q ∈ leafPages page regions, q ≠ 0) → p page) : tree.AllLeaves p := by
  induction tree with
  | empty => trivial
  | leaf page entries regions => exact each page entries regions rep.2.2 pages
  | node page children ih => exact fun i => ih i (rep.2 i).2 fun q member => pages q (mem_pages_node.mpr (Or.inr ⟨i, member⟩))

/-- Every map passes its own check, where the buffer pool is in the lower half of the address space. -/
theorem WellFormed.verifyIntegrity_passes (wf : WellFormed tree lists t) (frames : Nat → PoolFrame) (low : ∀ page, (frames page).base < 2 ^ 63) :
    ∃ enough, ∀ fuel, enough ≤ fuel → verifyIntegrity frames fuel t = .done () t := by
  obtain ⟨children, rfl⟩ := wf.root
  have pages : ∀ page ∈ (node rootPage children).pages, page ≠ 0 := fun page member => (wf.rooted.bounds member).1
  obtain ⟨enough, decides⟩ := verifyIntegrity_decides wf.rep.shaped
    (wf.rep.allLeaves pages fun page _ _ leaf others => leaf.guarded others (low page))
  exact ⟨enough, fun fuel reached => (decides fuel reached).done_iff.mpr (wf.rep.allLeaves pages fun _ _ _ leaf => leaf.sound)⟩

/-- The maps of every run pass it. -/
theorem calls_pass_verifyIntegrity {beyond : Mem} {calls : List Call} (wf : WellFormed tree lists t)
    (admissible : AdmissibleRun beyond tree t calls) (room : MetaPage.nextFreePage t.mem + tree.contents.cost calls ≤ maxPages)
    (frames : Nat → PoolFrame) (low : ∀ page, (frames page).base < 2 ^ 63) :
    (runAll beyond calls t).Ends fun _ t' => ∃ enough, ∀ fuel, enough ≤ fuel → verifyIntegrity frames fuel t' = .done () t' := by
  refine ((wf.calls_fits admissible).resolve_right fun stuck => Nat.not_lt.mpr room stuck.2).mono ?_
  rintro rs t' ⟨⟨_, tree', lists', wf', _⟩, _⟩
  exact wf'.verifyIntegrity_passes frames low

end

theorem calls_pass_verifyIntegrity_shortLived : ∃ t tree lists, WellFormed tree lists t ∧ tree.contents = Contents.none ∧
    (runAll (fun _ => 0) shortLived t).Ends fun _ t' =>
      ∃ enough, ∀ fuel, enough ≤ fuel → verifyIntegrity (fun _ => ⟨4096, by decide⟩) fuel t' = .done () t' := by
  obtain ⟨_, t, _, wf, next⟩ := construct_wellFormed (m := fun _ => 0) fun _ _ _ _ => rfl
  have safe : SafeRun (node rootPage noChildren).contents shortLived := shortLived_safe
  refine ⟨t, _, _, wf, rfl, calls_pass_verifyIntegrity wf (safe.admissibleRun wf _) ?_ _ fun _ => by decide⟩
  rw [next]
  exact shortLived_room

end DiskMap
