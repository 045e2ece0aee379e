import Mathlib.Data.List.Basic

/-- Pages that are linked both ways, each with numbered entries. -/
structure PageLinks (P α : Type) where
  null : P
  previous : P → P
  next : P → P
  entry : P → Nat → α

/-- A stack that is spread over linked pages: below the top page there are full ones, the nearest
first, and above it pages that the stack has left. -/
structure PagedStack (P α : Type) where
  full : List (P × List α)
  page : P
  entries : List α
  spare : List P

namespace PagedStack

variable {P α : Type} {l l' : PageLinks P α} {capacity : Nat}

def pages (s : PagedStack P α) : List P := s.page :: (s.full.map Prod.fst ++ s.spare)

def elements (s : PagedStack P α) : List α := s.full.flatMap Prod.snd ++ s.entries

def Holds (l : PageLinks P α) (page : P) (entries : List α) : Prop :=
  ∀ i a, entries[i]? = some a → l.entry page i = a

/-- The pages below the given one. -/
def Below (l : PageLinks P α) (capacity : Nat) : P → List (P × List α) → Prop
  | page, [] => l.previous page = l.null
  | page, (q, entries) :: rest => l.previous page = q ∧ l.next q = page ∧ entries.length = capacity ∧
      Holds l q entries ∧ Below l capacity q rest

theorem below_nil {page : P} : Below l capacity page [] ↔ l.previous page = l.null := Iff.rfl

theorem below_cons {page q : P} {entries : List α} {rest : List (P × List α)} :
    Below l capacity page ((q, entries) :: rest) ↔ l.previous page = q ∧ l.next q = page ∧ entries.length = capacity ∧
      Holds l q entries ∧ Below l capacity q rest := Iff.rfl

/-- The pages above the given one. -/
def Above (l : PageLinks P α) : P → List P → Prop
  | page, [] => l.next page = l.null
  | page, q :: rest => l.next page = q ∧ l.previous q = page ∧ Above l q rest

/-- The links represent the stack. Only at the bottom may the top page be empty. -/
structure Stored (l : PageLinks P α) (capacity : Nat) (s : PagedStack P α) : Prop where
  below : Below l capacity s.page s.full
  above : Above l s.page s.spare
  holds : Holds l s.page s.entries
  room : s.entries.length ≤ capacity
  bottom : s.entries = [] → s.full = []

theorem Holds.congr {page : P} {entries : List α} (holds : Holds l page entries)
    (same : ∀ i, i < entries.length → l'.entry page i = l.entry page i) : Holds l' page entries := by
  intro i a found
  have within : i < entries.length := (List.getElem?_eq_some_iff.mp found).1
  rw [same i within]
  exact holds i a found

theorem Holds.nil (page : P) : Holds l page [] := fun i a found => by cases found

theorem Holds.snoc {page : P} {entries : List α} {a : α} (holds : Holds l page entries)
    (last : l.entry page entries.length = a) : Holds l page (entries ++ [a]) := by
  intro i b found
  rcases Nat.lt_trichotomy i entries.length with before | rfl | after
  · rw [List.getElem?_append_left before] at found
    exact holds i b found
  · rw [List.getElem?_concat_length] at found
    rw [last]
    exact Option.some.inj found
  · rw [List.getElem?_eq_none (by simp only [List.length_append, List.length_singleton]; omega)] at found
    cases found

theorem Holds.dropLast {page : P} {entries : List α} {a : α} (holds : Holds l page (entries ++ [a])) :
    Holds l page entries ∧ l.entry page entries.length = a := by
  constructor
  · intro i b found
    have within : i < entries.length := (List.getElem?_eq_some_iff.mp found).1
    exact holds i b (by rw [List.getElem?_append_left within]; exact found)
  · exact holds _ a List.getElem?_concat_length

theorem Below.congr {page : P} {full : List (P × List α)} (below : Below l capacity page full)
    (null : l'.null = l.null) (previous : ∀ p ∈ page :: full.map Prod.fst, l'.previous p = l.previous p)
    (next : ∀ p ∈ full.map Prod.fst, l'.next p = l.next p)
    (entry : ∀ p ∈ full.map Prod.fst, ∀ i, i < capacity → l'.entry p i = l.entry p i) :
    Below l' capacity page full := by
  induction full generalizing page with
  | nil => exact (previous page List.mem_cons_self).trans (below.trans null.symm)
  | cons top rest ih =>
    obtain ⟨q, entries⟩ := top
    obtain ⟨link, back, length, holds, deeper⟩ := below
    have here : q ∈ ((q, entries) :: rest).map Prod.fst := List.mem_cons_self
    refine ⟨(previous page List.mem_cons_self).trans link, (next q here).trans back, length,
      holds.congr fun i within => entry q here i (length ▸ within), ?_⟩
    exact ih deeper (fun p member => previous p (List.mem_cons_of_mem _ member))
      (fun p member => next p (List.mem_cons_of_mem _ member))
      (fun p member => entry p (List.mem_cons_of_mem _ member))

theorem Above.congr {page : P} {spare : List P} (above : Above l page spare) (null : l'.null = l.null)
    (previous : ∀ p ∈ spare, l'.previous p = l.previous p)
    (next : ∀ p ∈ page :: spare, l'.next p = l.next p) : Above l' page spare := by
  induction spare generalizing page with
  | nil => exact (next page List.mem_cons_self).trans (above.trans null.symm)
  | cons q rest ih =>
    obtain ⟨link, back, higher⟩ := above
    refine ⟨(next page List.mem_cons_self).trans link, (previous q List.mem_cons_self).trans back, ?_⟩
    exact ih higher (fun p member => previous p (List.mem_cons_of_mem _ member))
      (fun p member => next p (List.mem_cons_of_mem _ member))

/-- The links of all pages of the stack are as before, and so are their entries. -/
structure SameOn (l l' : PageLinks P α) (capacity : Nat) (pages : List P) : Prop where
  null : l'.null = l.null
  previous : ∀ p ∈ pages, l'.previous p = l.previous p
  next : ∀ p ∈ pages, l'.next p = l.next p
  entry : ∀ p ∈ pages, ∀ i, i < capacity → l'.entry p i = l.entry p i

theorem mem_pages {s : PagedStack P α} {p : P} : p ∈ s.pages ↔ p = s.page ∨ p ∈ s.full.map Prod.fst ∨ p ∈ s.spare := by
  rw [pages, List.mem_cons, List.mem_append]

theorem Stored.congr {s : PagedStack P α} (stored : Stored l capacity s) (same : SameOn l l' capacity s.pages) :
    Stored l' capacity s where
  below := stored.below.congr same.null
    (fun p member => same.previous p (mem_pages.mpr ((List.mem_cons.mp member).imp_right Or.inl)))
    (fun p member => same.next p (mem_pages.mpr (Or.inr (Or.inl member))))
    (fun p member => same.entry p (mem_pages.mpr (Or.inr (Or.inl member))))
  above := stored.above.congr same.null
    (fun p member => same.previous p (mem_pages.mpr (Or.inr (Or.inr member))))
    (fun p member => same.next p (mem_pages.mpr ((List.mem_cons.mp member).imp_right Or.inr)))
  holds := stored.holds.congr fun i within =>
    same.entry s.page (mem_pages.mpr (Or.inl rfl)) i (Nat.lt_of_lt_of_le within stored.room)
  room := stored.room
  bottom := stored.bottom

/-- The entry goes on the top page. -/
def push (s : PagedStack P α) (a : α) : PagedStack P α :=
  { s with entries := s.entries ++ [a] }

/-- The top page is full, and the page above it is the new one. -/
def advance (s : PagedStack P α) (q : P) (rest : List P) (a : α) : PagedStack P α :=
  { full := (s.page, s.entries) :: s.full, page := q, entries := [a], spare := rest }

/-- The last entry is taken; a page that gets empty is left. -/
def pop (s : PagedStack P α) : PagedStack P α :=
  match s.entries.dropLast, s.full with
  | [], (q, entries) :: rest => { full := rest, page := q, entries, spare := s.page :: s.spare }
  | entries, full => { s with entries, full }

theorem Stored.push {s : PagedStack P α} {a : α} (stored : Stored l capacity s) (distinct : s.pages.Nodup)
    (room : s.entries.length < capacity) (links : SameOn l l' 0 s.pages)
    (entry : ∀ p ∈ s.pages, ∀ i, i < capacity → (p, i) ≠ (s.page, s.entries.length) → l'.entry p i = l.entry p i)
    (new : l'.entry s.page s.entries.length = a) : Stored l' capacity (s.push a) := by
  have other : ∀ p ∈ s.full.map Prod.fst, p ≠ s.page := by
    rintro p member rfl
    exact (List.nodup_cons.mp distinct).1 (List.mem_append_left _ member)
  refine
    { below := stored.below.congr links.null
        (fun p member => links.previous p (mem_pages.mpr ((List.mem_cons.mp member).imp_right Or.inl)))
        (fun p member => links.next p (mem_pages.mpr (Or.inr (Or.inl member)))) ?_
      above := stored.above.congr links.null
        (fun p member => links.previous p (mem_pages.mpr (Or.inr (Or.inr member))))
        (fun p member => links.next p (mem_pages.mpr ((List.mem_cons.mp member).imp_right Or.inr)))
      holds := Holds.snoc (stored.holds.congr fun i within => ?_) new
      room := ?_
      bottom := ?_ }
  · intro p member i within
    refine entry p (mem_pages.mpr (Or.inr (Or.inl member))) i within fun same => ?_
    exact other p member (congrArg Prod.fst same)
  · refine entry s.page (mem_pages.mpr (Or.inl rfl)) i (Nat.lt_trans within room) fun same => ?_
    exact absurd (congrArg Prod.snd same) (Nat.ne_of_lt within)
  · show (s.entries ++ [a]).length ≤ capacity
    simp only [List.length_append, List.length_singleton]
    omega
  · intro none_
    exact absurd none_ (by simp [PagedStack.push])

theorem Stored.advance {s : PagedStack P α} {q : P} {rest : List P} {a : α} (stored : Stored l capacity s)
    (full : s.entries.length = capacity) (above : Above l s.page (q :: rest)) (positive : 0 < capacity)
    (links : SameOn l l' 0 (q :: rest ++ s.pages))
    (entry : ∀ p ∈ s.page :: s.full.map Prod.fst, ∀ i, i < capacity → l'.entry p i = l.entry p i)
    (new : l'.entry q 0 = a) : Stored l' capacity (s.advance q rest a) := by
  obtain ⟨link, back, higher⟩ := above
  have top : s.page ∈ q :: rest ++ s.pages := List.mem_append_right _ (mem_pages.mpr (Or.inl rfl))
  have low : ∀ p ∈ s.full.map Prod.fst, p ∈ q :: rest ++ s.pages := fun p member =>
    List.mem_append_right _ (mem_pages.mpr (Or.inr (Or.inl member)))
  have high : ∀ p ∈ q :: rest, p ∈ q :: rest ++ s.pages := fun p member => List.mem_append_left _ member
  refine
    { below := ⟨(links.previous q (high q List.mem_cons_self)).trans back, (links.next s.page top).trans link, full,
        stored.holds.congr fun i within => entry s.page List.mem_cons_self i (full ▸ within), ?_⟩
      above := higher.congr links.null (fun p member => links.previous p (high p (List.mem_cons_of_mem _ member)))
        (fun p member => links.next p (high p member))
      holds := ?_
      room := positive
      bottom := fun none_ => by cases none_ }
  · refine stored.below.congr links.null (fun p member => ?_) (fun p member => links.next p (low p member))
      (fun p member => entry p (List.mem_cons_of_mem _ member))
    rcases List.mem_cons.mp member with rfl | deeper
    · exact links.previous s.page top
    · exact links.previous p (low p deeper)
  · exact (Holds.nil q).snoc new

/-- A page is linked above the top page, where there was none. -/
theorem Stored.link {s : PagedStack P α} {q : P} (stored : Stored l capacity s)
    (distinct : s.pages.Nodup) (null : l'.null = l.null) (previous : ∀ p ∈ s.pages, l'.previous p = l.previous p)
    (next : ∀ p ∈ s.pages, p ≠ s.page → l'.next p = l.next p)
    (entry : ∀ p ∈ s.pages, ∀ i, i < capacity → l'.entry p i = l.entry p i) (up : l'.next s.page = q)
    (down : l'.previous q = s.page) (last : l'.next q = l'.null) : Stored l' capacity { s with spare := [q] } := by
  have low : ∀ p ∈ s.full.map Prod.fst, p ∈ s.pages := fun p member => mem_pages.mpr (Or.inr (Or.inl member))
  refine
    { below := stored.below.congr null (fun p member => ?_) (fun p member => next p (low p member) ?_)
        (fun p member => entry p (low p member))
      above := ⟨up, down, last⟩
      holds := stored.holds.congr fun i within => entry s.page (mem_pages.mpr (Or.inl rfl)) i (Nat.lt_of_lt_of_le within stored.room)
      room := stored.room
      bottom := stored.bottom }
  · rcases List.mem_cons.mp member with rfl | deeper
    · exact previous s.page (mem_pages.mpr (Or.inl rfl))
    · exact previous p (low p deeper)
  · rintro rfl
    exact (List.nodup_cons.mp distinct).1 (List.mem_append_left _ member)

/-- Popping changes no page. -/
theorem Stored.pop {s : PagedStack P α} {entries : List α} {a : α} (stored : Stored l capacity s)
    (last : s.entries = entries ++ [a]) (positive : 0 < capacity) : Stored l capacity s.pop := by
  have holds := stored.holds
  have room := stored.room
  rw [last] at holds room
  rw [List.length_append, List.length_singleton] at room
  have rest : s.entries.dropLast = entries := by rw [last, List.dropLast_concat]
  have down := stored.below
  unfold PagedStack.pop
  rw [rest]
  cases entries with
  | nil =>
    cases below : s.full with
    | nil =>
      rw [below] at down
      exact ⟨down, stored.above, holds.dropLast.1, Nat.zero_le _, fun _ => rfl⟩
    | cons top deeper =>
      obtain ⟨q, entries⟩ := top
      rw [below] at down
      obtain ⟨link, back, length, content, lower⟩ := down
      refine ⟨lower, ⟨back, link, stored.above⟩, content, Nat.le_of_eq length, fun none_ => ?_⟩
      change entries = [] at none_
      rw [none_, List.length_nil] at length
      omega
  | cons first more =>
    exact ⟨down, stored.above, holds.dropLast.1, by show (first :: more).length ≤ capacity; omega,
      fun none_ => by cases none_⟩

theorem pop_of_snoc {s : PagedStack P α} {entries : List α} {a : α} (last : s.entries = entries ++ [a]) :
    s.pages.Perm s.pop.pages ∧ s.elements.Perm (a :: s.pop.elements) := by
  have rest : s.entries.dropLast = entries := by rw [last, List.dropLast_concat]
  have taken : s.elements.Perm (a :: (s.full.flatMap Prod.snd ++ entries)) := by
    rw [elements, last, ← List.append_assoc]
    exact List.perm_append_singleton a _
  unfold PagedStack.pop
  rw [rest]
  cases entries with
  | nil =>
    cases below : s.full with
    | nil =>
      rw [below] at taken
      exact ⟨by rw [pages, below, pages], taken⟩
    | cons top deeper =>
      obtain ⟨q, entries⟩ := top
      rw [below, List.append_nil] at taken
      refine ⟨?_, taken.trans ?_⟩
      · rw [pages, below, pages]
        show (s.page :: q :: (deeper.map Prod.fst ++ s.spare)).Perm (q :: (deeper.map Prod.fst ++ s.page :: s.spare))
        exact (List.Perm.swap q s.page _).trans (List.Perm.cons q List.perm_middle.symm)
      · refine List.Perm.cons a ?_
        show (entries ++ deeper.flatMap Prod.snd).Perm (deeper.flatMap Prod.snd ++ entries)
        exact List.perm_append_comm
  | cons first more => exact ⟨List.Perm.refl _, taken⟩

theorem push_elements (s : PagedStack P α) (a : α) : (s.push a).elements = s.elements ++ [a] :=
  (List.append_assoc _ _ _).symm

theorem advance_elements {s : PagedStack P α} (q : P) (rest : List P) (a : α) :
    (s.advance q rest a).elements.Perm (a :: s.elements) := by
  show ((s.entries ++ s.full.flatMap Prod.snd) ++ [a]).Perm (a :: (s.full.flatMap Prod.snd ++ s.entries))
  exact (List.perm_append_singleton a _).trans (List.Perm.cons a List.perm_append_comm)

theorem advance_pages {s : PagedStack P α} (q : P) (rest : List P) (a : α) :
    (s.advance q rest a).pages.Perm (s.page :: (s.full.map Prod.fst ++ q :: rest)) := by
  show (q :: s.page :: (s.full.map Prod.fst ++ rest)).Perm (s.page :: (s.full.map Prod.fst ++ q :: rest))
  exact (List.Perm.swap s.page q _).trans (List.Perm.cons s.page List.perm_middle.symm)

end PagedStack
