import DiskMap.Map.MapRuns
import DiskMap.Map.NulKeys

namespace DiskMap
open ByteMemory LeafNodeStartPage BigValue DiskMap.Tree

/-- The key has an allowed length, and the vector with the new value has data: it is not the empty one of an empty value
that shares its leaf. -/
structure Accepted (tree : Tree) (key buffer : List UInt8) : Prop where
  nonempty : key ≠ []
  short : key.length ≤ maxKeyLength
  data : tree.lookup key 0 = some [] → buffer = [] → (tree.leafOf key 0).length = 1

/-- Each append of a run finds a map with a property. -/
def EachAppend (found : Tree → Tx → List UInt8 × List UInt8 → Prop) (beyond : Mem) : Tree → Tx → List (List UInt8 × List UInt8) → Prop
  | _, _, [] => True
  | tree, t, a :: more => found tree t a ∧ ∀ t' tree' lists', append beyond a.1 (some a.2) t = .done () t' → WellFormed tree' lists' t' →
      tree'.contents = tree.contents.apply (.append a.1 a.2) → EachAppend found beyond tree' t' more

/-- What a key has with what is appended to it. -/
def appendedEntry (tree : Tree) (a : List UInt8 × List UInt8) : KVEntry := ⟨a.1, (tree.contents a.1).getD [] ++ a.2⟩

variable {t t' t₁ : Tx} {tree : Tree} {lists : Nat → FreeList} {key v buffer : List UInt8} {beyond : Mem}
  {appends : List (List UInt8 × List UInt8)} {c : Contents}

theorem ReadsSame.trans (first : ReadsSame beyond key t t₁) (second : ReadsSame beyond key t₁ t') : ReadsSame beyond key t t' := by
  obtain ⟨r, r₁, ended, ended₁, found, bytes⟩ := first
  obtain ⟨r₁', r', ended₁', ended', found', bytes'⟩ := second
  obtain ⟨rfl, _⟩ := Outcome.done.inj (ended₁.symm.trans ended₁')
  exact ⟨r, r', ended, ended', found'.trans found, bytes'.trans bytes⟩

/-- An append that is accepted puts the buffer behind the value of its key. -/
theorem WellFormed.append_fits (wf : WellFormed tree lists t) (appending : Appending tree.contents ((key, buffer) :: appends))
    (accepted : Accepted tree key buffer) (beyond : Mem) :
    Fits (MetaPage.nextFreePage t.mem + writeCost (appendedEntry tree (key, buffer)).size) (append beyond key (some buffer) t)
      fun _ t' => Resorts tree t key ((tree.contents key).getD [] ++ buffer) t' := by
  have value := appending.value_lt
  have noNul : NulFree key := ⟨accepted.nonempty, appending.noNul _ List.mem_cons_self⟩
  have separable : Separable ⟨key, partValue (tree.lookup key 0) appendOffset buffer⟩ (tree.others key) := by
    refine Or.inl fun e member same => ?_
    obtain ⟨inside, other⟩ := Multiset.mem_filter.mp member
    exact other (appending.apart _ List.mem_cons_self e.key (Or.inl (contents_ne_none wf inside)) same)
  have writable : Writable tree key appendOffset buffer := by
    refine ⟨fun _ other => absurd rfl other, fun v stored _ => ?_, fun v stored several empty => several ?_⟩
    · rw [show tree.contents key = some v from stored, Option.getD_some, List.length_append] at value
      rw [if_pos rfl]
      exact (Nat.le_add_right _ _).trans_lt value
    · rw [partValue_append, List.append_eq_nil_iff] at empty
      exact accepted.data (empty.1 ▸ stored) empty.2
  have fits := wf.writePart_fits noNul accepted.short (by rw [partValue_end]; exact size_le_of_before accepted.short value)
    (fun _ => separable) writable beyond
  rw [partValue_end] at fits
  exact fits

/-- A key of another length is refused, and so is the empty vector. -/
theorem WellFormed.append_accepted {post : Unit → Tx → Prop} (wf : WellFormed tree lists t) (noNul : 0 ∉ key)
    (ends : (append beyond key (some buffer) t).Ends post) : Accepted tree key buffer := by
  rw [append] at ends
  cases stored : tree.lookup key 0 with
  | none =>
    rw [wf.writePart_absent noNul stored fun other => absurd rfl other] at ends
    obtain ⟨some_, short⟩ := wf.write_allowed ends
    exact ⟨some_, short, fun found => absurd (stored.symm.trans found) (Option.some_ne_none []).symm⟩
  | some v =>
    obtain ⟨b, rest, page, front, back, regions, s⟩ := wf.storedIn stored
    refine ⟨s.noNul.1, s.short, fun found empty => ?_⟩
    obtain rfl := Option.some.inj (stored.symm.trans found)
    subst empty
    by_contra several
    rw [s.leafOf] at several
    exact s.writePart_nonempty several ends (partValue_append [] [])

/-- Every append of a run that ends has been accepted. -/
theorem WellFormed.appends_accepted {post : List (Option Bool) → Tx → Prop} (wf : WellFormed tree lists t)
    (appending : Appending tree.contents appends) (ends : (runAll beyond (appendCalls appends) t).Ends post) :
    EachAppend (fun tree _ a => Accepted tree a.1 a.2) beyond tree t appends := by
  induction appends generalizing tree lists t post with
  | nil => trivial
  | cons a more ih =>
    obtain ⟨_, t₁, called, ends₁⟩ := ends.of_bind
    obtain ⟨_, ended⟩ := Outcome.done_of_return called
    obtain ⟨_, _, later, _⟩ := ends₁.of_bind
    refine ⟨wf.append_accepted (appending.noNul a List.mem_cons_self) (.of_done ended), fun t' tree' lists' ended' wf' contents' => ?_⟩
    obtain ⟨_, rfl⟩ := Outcome.done.inj (ended.symm.trans ended')
    exact ih wf' (contents' ▸ appending.tail) (.of_done later)

/-- A run of accepted appends: its values are read, and unaffected keys as before. -/
theorem WellFormed.appends_fit (wf : WellFormed tree lists t) (appending : Appending tree.contents appends)
    (room : MetaPage.nextFreePage t.mem + tree.contents.cost (appendCalls appends) ≤ maxPages)
    (accepted : EachAppend (fun tree _ a => Accepted tree a.1 a.2) beyond tree t appends) :
    (runAll beyond (appendCalls appends) t).Ends fun _ t' =>
      (∀ key v, tree.contents.after (appendCalls appends) key = some v →
        (read beyond key t').Ends fun r t'' => t'' = t' ∧ r.found = true ∧ r.buffer = v) ∧
      ∀ other, other ∉ appends.map Prod.fst → (read beyond other t).Ends (fun _ t' => t' = t) →
        EachAppend (fun tree t a => Unaffected beyond tree t (appendedEntry tree a) other) beyond tree t appends → ReadsSame beyond other t t' := by
  induction appends generalizing tree lists t with
  | nil =>
    refine .intro rfl ⟨fun key v stored => wf.read_stored stored beyond, fun other _ ends _ => ?_⟩
    obtain ⟨r, _, ended, rfl⟩ := ends
    exact ⟨r, r, ended, ended, rfl, rfl⟩
  | cons a more ih =>
    obtain ⟨key, buffer⟩ := a
    obtain ⟨first, rest⟩ := accepted
    have cost : tree.contents.cost (appendCalls ((key, buffer) :: more)) =
        writeCost (appendedEntry tree (key, buffer)).size + (tree.contents.apply (.append key buffer)).cost (appendCalls more) := rfl
    rw [cost] at room
    obtain ⟨_, t₁, ended, resorts, le⟩ := (wf.append_fits appending first beyond).resolve_right fun stuck => by
      have more_ := stuck.2
      omega
    replace le : MetaPage.nextFreePage t₁.mem ≤ _ := le
    obtain ⟨tree₁, lists₁, wf₁, contents₁, _⟩ := resorts.steps (.append key buffer) wf rfl
    have later := ih wf₁ (contents₁ ▸ appending.tail) (by rw [contents₁]; omega) (rest t₁ tree₁ lists₁ ended wf₁ contents₁)
    have called : (Call.append key buffer).run beyond t = .done none t₁ := by
      rw [Call.run, Program.done_bind ended]
      rfl
    rw [show appendCalls ((key, buffer) :: more) = Call.append key buffer :: appendCalls more from rfl, runAll, Program.done_bind called]
    refine later.bind ?_
    rintro rs t' ⟨reads, others⟩
    refine .intro rfl ⟨fun key' v stored => reads key' v (contents₁ ▸ stored), fun other absent ends unaffected => ?_⟩
    obtain ⟨different, absent'⟩ := not_or.mp (fun either => absent (List.mem_cons.mpr either))
    have first := resorts.readsSame wf different unaffected.1 le
    refine first.trans (others other absent' ?_ (unaffected.2 t₁ tree₁ lists₁ ended wf₁ contents₁))
    obtain ⟨_, _, _, ended₁, _⟩ := first
    exact .intro ended₁ rfl

/-- A run of appends leaves each key with its first value and its own parts behind it, and other keys that are unaffected as they were,
if and only if each append is accepted. -/
theorem appends_follow_iff (wf : WellFormed tree lists t) (appending : Appending tree.contents appends)
    (room : MetaPage.nextFreePage t.mem + tree.contents.cost (appendCalls appends) ≤ maxPages) (beyond : Mem) :
    (runAll beyond (appendCalls appends) t).Ends (fun _ t' =>
      (∀ key, key ∈ appends.map Prod.fst ∨ tree.contents key ≠ none → (read beyond key t').Ends fun r t'' =>
        t'' = t' ∧ r.found = true ∧ r.buffer = (tree.contents key).getD [] ++ appended key appends) ∧
      ∀ other, other ∉ appends.map Prod.fst → (read beyond other t).Ends (fun _ t' => t' = t) →
        EachAppend (fun tree t a => Unaffected beyond tree t (appendedEntry tree a) other) beyond tree t appends → ReadsSame beyond other t t') ↔
    EachAppend (fun tree _ a => Accepted tree a.1 a.2) beyond tree t appends := by
  refine ⟨wf.appends_accepted appending, fun accepted => (wf.appends_fit appending room accepted).mono ?_⟩
  rintro _ t' ⟨reads, others⟩
  refine ⟨fun key either => reads key _ ?_, others⟩
  rw [after_appends]
  by_cases inside : key ∈ appends.map Prod.fst
  · rw [if_pos inside]
  · obtain ⟨v, stored⟩ := Option.ne_none_iff_exists'.mp (either.resolve_left inside)
    rw [if_neg inside, stored, Option.getD_some, appended_absent inside, List.append_nil]

/-- Empty parts of new keys, and others behind them. -/
def emptyFirst : List (List UInt8 × List UInt8) := [([97], []), ([97, 100], []), ([97], [1]), ([97, 100], [2, 3]), ([97], [4])]

theorem appends_follow_iff_emptyFirst : ∃ t tree lists, WellFormed tree lists t ∧ tree.contents = Contents.none ∧
    (runAll (fun _ => 0) (appendCalls emptyFirst) t).Ends fun _ t' =>
      ((read (fun _ => 0) [97] t').Ends fun r t'' => t'' = t' ∧ r.found = true ∧ r.buffer = [1, 4]) ∧
        (read (fun _ => 0) [97, 100] t').Ends fun r t'' => t'' = t' ∧ r.found = true ∧ r.buffer = [2, 3] := by
  obtain ⟨_, t, _, wf, next⟩ := construct_wellFormed (m := fun _ => 0) fun _ _ _ _ => rfl
  have apart : ∀ a ∈ emptyFirst, ∀ other ∈ emptyFirst.map Prod.fst, fnvHash other = fnvHash a.1 → other = a.1 := by decide +kernel
  have small : ∀ a ∈ emptyFirst, (appended a.1 emptyFirst).length < before (a.1.length + 9) 20 := by decide
  have appending : Appending (node rootPage noChildren).contents emptyFirst :=
    ⟨by decide, fun a member other either => apart a member other (either.resolve_left fun stored => stored rfl), small⟩
  have room : maxOrder + 3 + Contents.none.cost (appendCalls emptyFirst) ≤ maxPages := by decide
  have accepted : EachAppend (fun tree _ a => Accepted tree a.1 a.2) (fun _ => 0) (node rootPage noChildren) t emptyFirst := by
    refine ⟨⟨by decide, by decide, fun stored => absurd stored (Option.some_ne_none []).symm⟩, fun t₁ tree₁ lists₁ _ _ contents₁ => ?_⟩
    refine ⟨⟨by decide, by decide, fun stored => ?_⟩, fun t₂ tree₂ lists₂ _ _ _ => ?_⟩
    · rw [show tree₁.lookup [97, 100] 0 = none from (congrFun contents₁ _).trans (Contents.apply_other (by decide))] at stored
      cases stored
    refine ⟨⟨by decide, by decide, fun _ empty => absurd empty (by decide)⟩, fun t₃ tree₃ lists₃ _ _ _ => ?_⟩
    refine ⟨⟨by decide, by decide, fun _ empty => absurd empty (by decide)⟩, fun t₄ tree₄ lists₄ _ _ _ => ?_⟩
    exact ⟨⟨by decide, by decide, fun _ empty => absurd empty (by decide)⟩, fun _ _ _ _ _ _ => trivial⟩
  refine ⟨t, _, _, wf, rfl, ((appends_follow_iff wf appending (by rw [next]; exact room) fun _ => 0).mpr accepted).mono ?_⟩
  rintro _ t' ⟨reads, _⟩
  exact ⟨reads [97] (Or.inl (by decide)), reads [97, 100] (Or.inl (by decide))⟩

/-- The empty value of a key that shares its leaf gets an empty part. -/
theorem append_refuses_empty : ∃ t, WellFormed (node rootPage noChildren) newLists t ∧
    ∃ t', runAll (fun _ => 0) (appendCalls [([97], []), ([97, 100], []), ([97], [])]) t = .threw "write: invalid input parameters" t' := by
  obtain ⟨_, t, constructed, wf, _⟩ := construct_wellFormed (m := fun _ => 0) fun _ _ _ _ => rfl
  have refused : ((construct >>= fun _ => runAll (fun _ => 0) (appendCalls [([97], []), ([97, 100], []), ([97], [])]))
      { mem := fun _ => 0 }).message = some "write: invalid input parameters" := by decide +kernel
  rw [Program.done_bind constructed] at refused
  exact ⟨t, wf, Outcome.threw_of_message refused⟩

end DiskMap
