import DiskMap.Library.CallRun
import DiskMap.Library.NodeLinks
import DiskMap.Pool.BufferPool

namespace DiskMap
open NodeLinks CallRun

/-- `next` and `prev` are `none` where the pointer is null. -/
structure Node where
  val : Int
  next : Option Nat := none
  prev : Option Nat := none
  deriving DecidableEq, Repr

/-- An `LRUReplacer` as its nodes are in memory. An address outside `nodes` is that of a node that
was deleted or never created. -/
structure LinkedReplacer where
  nodes : Nat → Option Node := fun _ => none
  head : Option Nat := none
  tail : Option Nat := none
  size : Nat := 0
  map : Int → Option Nat := fun _ => none

/-- What a call gives back. -/
inductive Reply
  | inserted
  | removed (found : Bool)
  | evicted (val : Int)
  deriving DecidableEq, Repr

namespace LinkedReplacer

/-- The write through a pointer fails where the pointer is null or its node was deleted. -/
def setNext (l : LinkedReplacer) (target value : Option Nat) : Option LinkedReplacer := do
  let address ← target
  let node ← l.nodes address
  return { l with nodes := Function.update l.nodes address (some { node with next := value }) }

def setPrev (l : LinkedReplacer) (target value : Option Nat) : Option LinkedReplacer := do
  let address ← target
  let node ← l.nodes address
  return { l with nodes := Function.update l.nodes address (some { node with prev := value }) }

/-- The branches of `insert` and `remove` for a node that is not the head. -/
def unlink (l : LinkedReplacer) (address : Nat) : Option LinkedReplacer := do
  let node ← l.nodes address
  if l.tail = some address then
    setNext { l with tail := node.prev } node.prev none
  else
    let l ← l.setNext node.prev node.next
    let node ← l.nodes address
    l.setPrev node.next node.prev

/-- The last three assignments of both branches of `insert`. -/
def moveToHead (l : LinkedReplacer) (address : Nat) : Option LinkedReplacer := do
  let l ← l.setNext (some address) l.head
  let l ← l.setPrev l.head (some address)
  return { l with head := some address }

/-- `address` is where `new` puts the node, if there is one. -/
def insert (l : LinkedReplacer) (val : Int) (address : Nat) : Option LinkedReplacer :=
  match l.map val with
  | none =>
    let l := { l with
      nodes := Function.update l.nodes address (some { val })
      map := Function.update l.map val (some address) }
    match l.head with
    | none => some { l with head := some address, tail := some address, size := l.size + 1 }
    | some _ => do
      let l ← l.moveToHead address
      return { l with size := l.size + 1 }
  | some node =>
    if l.head = some node then some l
    else do
      let l ← l.unlink node
      l.moveToHead node

/-- The branches of `remove`. -/
def unlinkAny (l : LinkedReplacer) (address : Nat) : Option LinkedReplacer :=
  if l.head = some address ∧ l.tail = some address then some { l with head := none, tail := none }
  else if l.head = some address then do
    let node ← l.nodes address
    setPrev { l with head := node.next } node.next none
  else l.unlink address

def remove (l : LinkedReplacer) (val : Int) : Option (Bool × LinkedReplacer) :=
  match l.map val with
  | none => some (false, l)
  | some address => do
    let l ← l.unlinkAny address
    return (true, { l with
      nodes := Function.update l.nodes address none
      map := Function.update l.map val none
      size := l.size - 1 })

def evict (l : LinkedReplacer) : Option (Int × LinkedReplacer) :=
  match l.head with
  | none => some (-1, l)
  | some _ => do
    let address ← l.tail
    let node ← l.nodes address
    let (_, l) ← l.remove node.val
    return (node.val, l)

def contains (l : LinkedReplacer) (val : Int) : Bool := (l.map val).isSome

def links (l : LinkedReplacer) : NodeLinks Nat where
  next address := (l.nodes address).bind Node.next
  previous address := (l.nodes address).bind Node.prev

def valAt (l : LinkedReplacer) (address : Nat) : Option Int := (l.nodes address).map Node.val

/-- The nodes from head to tail, each with its address and its value. -/
structure Chained (l : LinkedReplacer) (cells : List (Nat × Nat)) : Prop where
  linked : l.links.Linked (cells.map Prod.fst)
  head : l.head = cells.head?.map Prod.fst
  tail : l.tail = cells.getLast?.map Prod.fst
  values : ∀ c ∈ cells, l.valAt c.1 = some (c.2 : Int)

/-- The map leads to the nodes of the list and to no others. -/
structure Holds (l : LinkedReplacer) (cells : List (Nat × Nat)) : Prop extends Chained l cells where
  mapped : ∀ k a, l.map k = some a ↔ ∃ v : Nat, k = v ∧ (a, v) ∈ cells
  size : l.size = cells.length

variable {l : LinkedReplacer} {cells xs ys : List (Nat × Nat)} {a p v u : Nat}

theorem valAt_some {val : Int} (here : l.valAt a = some val) : ∃ node, l.nodes a = some node ∧ node.val = val :=
  Option.map_eq_some_iff.mp here

theorem setNext_run {node : Node} (live : l.nodes a = some node) (value : Option Nat) :
    ∃ l', l.setNext (some a) value = some l' ∧ l'.links = l.links.setNext a value ∧ l'.valAt = l.valAt ∧
      l'.head = l.head ∧ l'.tail = l.tail ∧ l'.map = l.map ∧ l'.size = l.size := by
  refine ⟨{ l with nodes := Function.update l.nodes a (some { node with next := value }) }, ?_, ?_, ?_, rfl, rfl, rfl, rfl⟩
  · simp only [LinkedReplacer.setNext, live, Option.bind_eq_bind, Option.bind_some, Option.pure_def]
  · simp only [links, NodeLinks.setNext, NodeLinks.mk.injEq]
    constructor
    · funext b
      by_cases same : b = a
      · subst same; simp only [Function.update_self, Option.bind_some]
      · simp only [Function.update_of_ne same]
    · funext b
      by_cases same : b = a
      · subst same; simp only [Function.update_self, Option.bind_some, live]
      · simp only [Function.update_of_ne same]
  · funext b
    by_cases same : b = a
    · subst same; simp only [valAt, Function.update_self, Option.map_some, live]
    · simp only [valAt, Function.update_of_ne same]

theorem setPrev_run {node : Node} (live : l.nodes a = some node) (value : Option Nat) :
    ∃ l', l.setPrev (some a) value = some l' ∧ l'.links = l.links.setPrevious a value ∧ l'.valAt = l.valAt ∧
      l'.head = l.head ∧ l'.tail = l.tail ∧ l'.map = l.map ∧ l'.size = l.size := by
  refine ⟨{ l with nodes := Function.update l.nodes a (some { node with prev := value }) }, ?_, ?_, ?_, rfl, rfl, rfl, rfl⟩
  · simp only [LinkedReplacer.setPrev, live, Option.bind_eq_bind, Option.bind_some, Option.pure_def]
  · simp only [links, NodeLinks.setPrevious, NodeLinks.mk.injEq]
    constructor
    · funext b
      by_cases same : b = a
      · subst same; simp only [Function.update_self, Option.bind_some, live]
      · simp only [Function.update_of_ne same]
    · funext b
      by_cases same : b = a
      · subst same; simp only [Function.update_self, Option.bind_some]
      · simp only [Function.update_of_ne same]
  · funext b
    by_cases same : b = a
    · subst same; simp only [valAt, Function.update_self, Option.map_some, live]
    · simp only [valAt, Function.update_of_ne same]

/-- A node in the middle or at the end leaves the list but stays in memory. -/
theorem unlink_run (chained : Chained l (xs ++ (p, u) :: (a, v) :: ys)) :
    ∃ l', l.unlink a = some l' ∧ Chained l' (xs ++ (p, u) :: ys) ∧ l'.valAt = l.valAt ∧ l'.map = l.map ∧
      l'.size = l.size := by
  obtain ⟨linked, head, tail, values⟩ := chained
  simp only [List.map_append, List.map_cons] at linked
  obtain ⟨node, live, -⟩ := valAt_some (values (a, v) (by simp))
  obtain ⟨before, liveBefore, -⟩ := valAt_some (values (p, u) (by simp))
  have prev : node.prev = some p := by
    have found := linked.neighbours.2
    simpa only [links, live, Option.bind_some] using found
  cases ys with
  | nil =>
    have last : l.tail = some a := by simpa using tail
    obtain ⟨l', run, links', valAt', head', tail', map', size'⟩ :=
      setNext_run (l := { l with tail := some p }) liveBefore none
    refine ⟨l', ?_, ⟨?_, ?_, ?_, ?_⟩, valAt', map', size'⟩
    · simp only [unlink, live, Option.bind_eq_bind, Option.bind_some, if_pos last, prev, run]
    · rw [links', List.map_append, List.map_cons, List.map_nil]
      exact linked.dropLast
    · rw [head', head]
      cases xs <;> rfl
    · rw [tail']
      simp
    · intro c member
      rw [valAt']
      exact values c (by simp only [List.mem_append, List.mem_cons, List.not_mem_nil, or_false] at member ⊢; tauto)
  | cons next ys =>
    obtain ⟨q, w⟩ := next
    simp only [List.map_cons] at linked
    have distinct := linked.distinct
    simp only [List.nodup_append, List.nodup_cons, List.mem_cons, not_or] at distinct
    have ahead : p ≠ a := distinct.2.1.1.1
    have apart : a ≠ q := distinct.2.1.2.1.1
    have after : node.next = some q := by
      have split : xs.map Prod.fst ++ p :: a :: q :: ys.map Prod.fst =
          (xs.map Prod.fst ++ [p]) ++ a :: q :: ys.map Prod.fst := by simp
      have found := (split ▸ linked).neighbours.1
      simpa only [links, live, Option.bind_some] using found
    have notLast : l.tail ≠ some a := by
      intro last
      rw [tail, List.getLast?_append_of_ne_nil _ (List.cons_ne_nil _ _), List.getLast?_cons_cons, List.getLast?_cons_cons,
        ← List.getLast?_map, List.map_cons] at last
      rcases List.mem_cons.mp (List.mem_of_getLast? last) with same | inside
      · exact apart same
      · exact distinct.2.1.2.1.2 inside
    obtain ⟨l₁, run₁, links₁, valAt₁, head₁, tail₁, map₁, size₁⟩ := setNext_run (l := l) liveBefore (some q)
    obtain ⟨middle, liveMiddle, -⟩ := valAt_some (l := l₁) (a := a) (by rw [valAt₁]; exact values (a, v) (by simp))
    obtain ⟨following, liveFollowing, -⟩ :=
      valAt_some (l := l₁) (a := q) (by rw [valAt₁]; exact values (q, w) (by simp))
    have next₁ : middle.next = some q := by
      have found : l₁.links.next a = l.links.next a := by rw [links₁]; exact setNext_next_ne ahead.symm
      simpa only [links, live, liveMiddle, Option.bind_some, after] using found
    have prev₁ : middle.prev = some p := by
      have found : l₁.links.previous a = l.links.previous a := by rw [links₁, setNext_previous]
      simpa only [links, live, liveMiddle, Option.bind_some, prev] using found
    obtain ⟨l₂, run₂, links₂, valAt₂, head₂, tail₂, map₂, size₂⟩ := setPrev_run (l := l₁) liveFollowing (some p)
    refine ⟨l₂, ?_, ⟨?_, ?_, ?_, ?_⟩, valAt₂.trans valAt₁, map₂.trans map₁, size₂.trans size₁⟩
    · simp only [unlink, live, Option.bind_eq_bind, Option.bind_some, if_neg notLast, prev, after, run₁, liveMiddle,
        next₁, prev₁, run₂]
    · rw [links₂, links₁]
      simpa only [List.map_append, List.map_cons] using linked.bypass
    · rw [head₂, head₁, head]
      cases xs <;> rfl
    · rw [tail₂, tail₁, tail]
      simp [List.getLast?_append]
    · intro c member
      rw [valAt₂, valAt₁]
      exact values c (by simp only [List.mem_append, List.mem_cons] at member ⊢; tauto)

/-- A node that is in memory but not in the list becomes its head. -/
theorem moveToHead_run (chained : Chained l ((p, u) :: ys)) (live : l.valAt a = some (v : Int))
    (outside : a ∉ ((p, u) :: ys).map Prod.fst) :
    ∃ l', l.moveToHead a = some l' ∧ Chained l' ((a, v) :: (p, u) :: ys) ∧ l'.map = l.map ∧ l'.size = l.size := by
  obtain ⟨linked, head, tail, values⟩ := chained
  obtain ⟨node, liveNode, -⟩ := valAt_some live
  have first : l.head = some p := head
  obtain ⟨l₁, run₁, links₁, valAt₁, head₁, tail₁, map₁, size₁⟩ := setNext_run liveNode (some p)
  obtain ⟨following, liveFollowing, -⟩ := valAt_some (l := l₁) (a := p) (by rw [valAt₁]; exact values (p, u) List.mem_cons_self)
  obtain ⟨l₂, run₂, links₂, valAt₂, head₂, tail₂, map₂, size₂⟩ := setPrev_run liveFollowing (some a)
  refine ⟨{ l₂ with head := some a }, ?_, ⟨?_, rfl, ?_, ?_⟩, map₂.trans map₁, size₂.trans size₁⟩
  · simp only [moveToHead, first, Option.bind_eq_bind, run₁, Option.bind_some, head₁, run₂, Option.pure_def]
  · show l₂.links.Linked _
    rw [links₂, links₁]
    exact linked.pushFront outside
  · rw [List.getLast?_cons_cons, ← tail, ← tail₁, ← tail₂]
  · intro c member
    show l₂.valAt c.1 = _
    rw [valAt₂, valAt₁]
    rcases List.mem_cons.mp member with rfl | inside
    · exact live
    · exact values c inside

/-- Only the nodes of the list count. -/
theorem Chained.congr {l' : LinkedReplacer} (chained : Chained l cells) (nodes : ∀ c ∈ cells, l'.nodes c.1 = l.nodes c.1)
    (head : l'.head = l.head) (tail : l'.tail = l.tail) : Chained l' cells := by
  have inside : ∀ b ∈ cells.map Prod.fst, l'.nodes b = l.nodes b := by
    intro b member
    obtain ⟨c, mem, rfl⟩ := List.mem_map.mp member
    exact nodes c mem
  refine ⟨chained.linked.congr (fun b member => ?_) fun b member => ?_, head.trans chained.head, tail.trans chained.tail,
    fun c member => ?_⟩
  · simp only [links, inside b member]
  · simp only [links, inside b (List.mem_of_mem_tail member)]
  · simp only [valAt, nodes c member]
    exact chained.values c member

theorem unlink_behind {first : Nat × Nat} (chained : Chained l (first :: xs ++ (a, v) :: ys)) :
    l.head ≠ some a ∧ ∃ l', l.unlink a = some l' ∧ Chained l' (first :: (xs ++ ys)) ∧ l'.valAt = l.valAt ∧
      l'.map = l.map ∧ l'.size = l.size := by
  constructor
  · intro same
    have distinct := chained.linked.distinct
    rw [chained.head] at same
    simp only [List.cons_append, List.map_cons, List.map_append, List.nodup_cons, List.mem_append, List.mem_cons, not_or] at distinct
    exact distinct.1.2.1 (Option.some.inj same)
  · rcases List.eq_nil_or_concat (first :: xs) with none | ⟨before, ⟨p, u⟩, split⟩
    · cases none
    · rw [List.concat_eq_append] at split
      have joined : first :: (xs ++ ys) = before ++ (p, u) :: ys := by
        rw [← List.cons_append, split, List.append_assoc, List.singleton_append]
      have whole : first :: xs ++ (a, v) :: ys = before ++ (p, u) :: (a, v) :: ys := by
        rw [split, List.append_assoc, List.singleton_append]
      rw [whole] at chained
      rw [joined]
      exact unlink_run chained

/-- Any node of the list can leave it. -/
theorem unlinkAny_run (chained : Chained l (xs ++ (a, v) :: ys)) :
    ∃ l', l.unlinkAny a = some l' ∧ Chained l' (xs ++ ys) ∧ l'.map = l.map ∧ l'.size = l.size := by
  cases xs with
  | nil =>
    have first : l.head = some a := chained.head
    cases ys with
    | nil =>
      have last : l.tail = some a := chained.tail
      refine ⟨{ l with head := none, tail := none }, if_pos ⟨first, last⟩, ⟨.nil, rfl, rfl, ?_⟩, rfl, rfl⟩
      intro c member
      cases member
    | cons following ys =>
      obtain ⟨q, w⟩ := following
      obtain ⟨linked, head, tail, values⟩ := chained
      simp only [List.nil_append, List.map_cons] at linked
      have notLast : l.tail ≠ some a := by
        intro last
        rw [tail, List.nil_append, List.getLast?_cons_cons, ← List.getLast?_map] at last
        exact (List.nodup_cons.mp linked.distinct).1 (List.mem_of_getLast? last)
      obtain ⟨node, live, -⟩ := valAt_some (values (a, v) List.mem_cons_self)
      have next : node.next = some q := by
        have found := (show Linked _ ([] ++ _ :: _ :: _) from linked).neighbours.1
        simpa only [links, live, Option.bind_some] using found
      obtain ⟨second, liveSecond, -⟩ := valAt_some (values (q, w) (by simp))
      obtain ⟨l', run, links', valAt', head', tail', map', size'⟩ :=
        setPrev_run (l := { l with head := some q }) liveSecond none
      refine ⟨l', ?_, ⟨?_, head', ?_, ?_⟩, map', size'⟩
      · simp only [unlinkAny, first, notLast, and_false, if_false, if_true, live, Option.bind_eq_bind, Option.bind_some,
          next, run]
      · rw [links']
        exact linked.dropFirst.setPrevious_first none
      · rw [tail', tail]
        rfl
      · intro c member
        rw [valAt']
        exact values c (List.mem_cons_of_mem _ member)
  | cons first xs =>
    obtain ⟨notFirst, l', run, chained', -, map', size'⟩ := unlink_behind chained
    refine ⟨l', ?_, chained', map', size'⟩
    simp only [unlinkAny, notFirst, false_and, if_false, run]

def vals (cells : List (Nat × Nat)) : DiskMap.LRUReplacer := cells.map Prod.snd

theorem Holds.empty : Holds {} [] :=
  ⟨⟨.nil, rfl, rfl, fun c member => by cases member⟩, fun k a => by simp, rfl⟩

/-- No value is in the list twice, as the map has one node for it. -/
theorem Holds.distinct (holds : Holds l cells) : (vals cells).Nodup := by
  have addresses : cells.Pairwise fun c d => c.1 ≠ d.1 := List.pairwise_map.mp holds.linked.distinct
  refine List.pairwise_map.mpr (addresses.imp_of_mem ?_)
  intro c d first second apart same
  have found : l.map c.2 = some c.1 := (holds.mapped _ _).mpr ⟨c.2, rfl, first⟩
  have found' : l.map c.2 = some d.1 := (holds.mapped _ _).mpr ⟨d.2, by rw [same], second⟩
  exact apart (Option.some.inj (found.symm.trans found'))

theorem Holds.map_some (holds : Holds l cells) (found : l.map v = some a) :
    ∃ xs ys, cells = xs ++ (a, v) :: ys ∧ v ∉ vals xs := by
  obtain ⟨w, same, member⟩ := (holds.mapped _ _).mp found
  cases Int.ofNat.inj same
  obtain ⟨xs, ys, split⟩ := List.append_of_mem member
  refine ⟨xs, ys, split, fun before => ?_⟩
  have distinct := holds.distinct
  rw [split, vals, List.map_append] at distinct
  exact (List.nodup_append.mp distinct).2.2 v before v List.mem_cons_self rfl

theorem Holds.map_none (holds : Holds l cells) (absent : l.map v = none) : v ∉ vals cells := by
  intro member
  obtain ⟨c, inside, rfl⟩ := List.mem_map.mp member
  have found := (holds.mapped c.2 c.1).mpr ⟨c.2, rfl, inside⟩
  rw [absent] at found
  cases found

theorem Holds.map_isSome (holds : Holds l cells) : l.contains v = decide (v ∈ vals cells) := by
  cases found : l.map v with
  | none => simp only [contains, found, Option.isSome_none, holds.map_none found, decide_false]
  | some a =>
    obtain ⟨xs, ys, rfl, -⟩ := holds.map_some found
    simp [contains, found, vals]

theorem vals_erase (apart : v ∉ vals xs) : (vals (xs ++ (a, v) :: ys)).erase v = vals (xs ++ ys) := by
  simp only [vals, List.map_append, List.map_cons] at apart ⊢
  rw [List.erase_append_right _ apart, List.erase_cons_head]

theorem Holds.mapped_new (holds : Holds l cells) (absent : v ∉ vals cells) (a : Nat) :
    ∀ k b, Function.update l.map v (some a) k = some b ↔ ∃ w : Nat, k = w ∧ (b, w) ∈ (a, v) :: cells := by
  intro k b
  by_cases same : k = v
  · subst same
    simp only [Function.update_self, Option.some.injEq, List.mem_cons, Prod.mk.injEq]
    constructor
    · rintro rfl
      exact ⟨v, rfl, Or.inl ⟨rfl, rfl⟩⟩
    · rintro ⟨w, equal, ⟨rfl, -⟩ | inside⟩
      · rfl
      · cases Int.ofNat.inj equal
        exact absurd (List.mem_map_of_mem inside) absent
  · simp only [Function.update_of_ne same, holds.mapped, List.mem_cons, Prod.mk.injEq]
    constructor
    · rintro ⟨w, equal, inside⟩
      exact ⟨w, equal, Or.inr inside⟩
    · rintro ⟨w, equal, ⟨-, both⟩ | inside⟩
      · exact absurd (by rw [equal, both]) same
      · exact ⟨w, equal, inside⟩

/-- `insert` of a value that is there moves its node, of any other one makes the new node the head. -/
theorem insert_run (holds : Holds l cells) (fresh : l.nodes a = none) :
    ∃ l' cells', l.insert v a = some l' ∧ Holds l' cells' ∧ vals cells' = (vals cells).insert v := by
  unfold DiskMap.LRUReplacer.insert
  cases found : l.map v with
  | none =>
    have absent := holds.map_none found
    have outside : ∀ c ∈ cells, c.1 ≠ a := by
      intro c member same
      obtain ⟨node, live, -⟩ := valAt_some (holds.values c member)
      rw [same, fresh] at live
      cases live
    let l₀ : LinkedReplacer := { l with
      nodes := Function.update l.nodes a (some { val := v })
      map := Function.update l.map v (some a) }
    have chained₀ : Chained l₀ cells :=
      holds.toChained.congr (fun c member => Function.update_of_ne (outside c member) ..) rfl rfl
    have live : l₀.valAt a = some (v : Int) := by simp only [valAt, l₀, Function.update_self, Option.map_some]
    have mapped := holds.mapped_new absent a
    cases cells with
    | nil =>
      have empty : l.head = none := holds.head
      have alone : l₀.links.Linked [a] :=
        Linked.singleton (by simp only [links, l₀, Function.update_self, Option.bind_some])
      refine ⟨{ l₀ with head := some a, tail := some a, size := l.size + 1 }, [(a, v)], ?_, ⟨⟨alone, rfl, rfl, ?_⟩, mapped, ?_⟩, rfl⟩
      · simp only [LinkedReplacer.insert, found, empty, l₀]
      · intro c member
        rw [List.mem_singleton.mp member]
        exact live
      · simp only [holds.size, List.length_nil, List.length_singleton]
    | cons first rest =>
      obtain ⟨p, u⟩ := first
      have head : l.head = some p := holds.head
      have apart : a ∉ ((p, u) :: rest).map Prod.fst := by
        intro member
        obtain ⟨c, inside, same⟩ := List.mem_map.mp member
        exact outside c inside same
      obtain ⟨l', run, chained', map', size'⟩ := moveToHead_run chained₀ live apart
      refine ⟨{ l' with size := l'.size + 1 }, (a, v) :: (p, u) :: rest, ?_, ⟨⟨chained'.linked, chained'.head, chained'.tail, chained'.values⟩, ?_, ?_⟩, ?_⟩
      · have run' : ({ l with nodes := Function.update l.nodes a (some { val := v }), map := Function.update l.map v (some a) } : LinkedReplacer).moveToHead a = some l' := run
        simp only [LinkedReplacer.insert, found, head]
        rw [← head, run']
        rfl
      · intro k b
        rw [map']
        exact mapped k b
      · show l'.size + 1 = _
        rw [size', List.length_cons, ← holds.size]
      · rw [if_neg absent]
        rfl
  | some node =>
    obtain ⟨xs, ys, rfl, apart⟩ := holds.map_some found
    have present : v ∈ vals (xs ++ (node, v) :: ys) := by simp [vals]
    rw [if_pos present, vals_erase apart]
    cases xs with
    | nil =>
      have head : l.head = some node := holds.head
      refine ⟨l, (node, v) :: ys, ?_, holds, rfl⟩
      simp only [LinkedReplacer.insert, found, head, if_true]
    | cons first xs =>
      obtain ⟨notFirst, l₁, run₁, chained₁, valAt₁, map₁, size₁⟩ := unlink_behind holds.toChained
      have distinct := holds.linked.distinct
      simp only [List.map_append, List.map_cons] at distinct
      rw [List.nodup_middle, List.nodup_cons] at distinct
      obtain ⟨l₂, run₂, chained₂, map₂, size₂⟩ := moveToHead_run (a := node) (v := v) chained₁
        (by rw [valAt₁]; exact holds.values (node, v) (by simp)) (by simpa only [List.cons_append, List.map_cons, List.map_append] using distinct.1)
      refine ⟨l₂, (node, v) :: first :: (xs ++ ys), ?_, ⟨chained₂, ?_, ?_⟩, rfl⟩
      · simp only [LinkedReplacer.insert, found, if_neg notFirst, run₁, Option.bind_eq_bind, Option.bind_some, run₂]
      · intro k b
        rw [map₂, map₁, holds.mapped]
        simp only [List.mem_cons, List.mem_append, List.cons_append]
        exact exists_congr fun w => and_congr_right fun _ => by tauto
      · rw [size₂, size₁, holds.size]
        simp only [List.length_cons, List.length_append]
        omega

theorem remove_run (holds : Holds l cells) (v : Nat) :
    ∃ l' cells', l.remove v = some (decide (v ∈ vals cells), l') ∧ Holds l' cells' ∧ vals cells' = (vals cells).erase v := by
  cases found : l.map v with
  | none =>
    have absent := holds.map_none found
    refine ⟨l, cells, ?_, holds, (List.erase_of_not_mem absent).symm⟩
    simp only [LinkedReplacer.remove, found, decide_eq_false absent]
  | some a =>
    obtain ⟨xs, ys, rfl, apart⟩ := holds.map_some found
    have present : v ∈ vals (xs ++ (a, v) :: ys) := by simp [vals]
    have distinct := holds.linked.distinct
    simp only [List.map_append, List.map_cons] at distinct
    rw [List.nodup_middle, List.nodup_cons, ← List.map_append] at distinct
    have behind := holds.distinct
    simp only [vals, List.map_append, List.map_cons] at behind
    rw [List.nodup_middle, List.nodup_cons, ← List.map_append] at behind
    obtain ⟨l', run, chained', map', size'⟩ := unlinkAny_run holds.toChained
    refine ⟨{ l' with
      nodes := Function.update l'.nodes a none
      map := Function.update l'.map v none
      size := l'.size - 1 }, xs ++ ys, ?_, ⟨chained'.congr (fun c member => ?_) rfl rfl, fun k b => ?_, ?_⟩, (vals_erase apart).symm⟩
    · simp only [LinkedReplacer.remove, found, run, Option.bind_eq_bind, Option.bind_some, Option.pure_def,
        decide_eq_true present]
    · exact Function.update_of_ne (fun same : c.1 = a => distinct.1 (same ▸ List.mem_map_of_mem member)) ..
    · by_cases same : k = v
      · subst same
        simp only [Function.update_self, reduceCtorEq, false_iff, not_exists, not_and]
        intro w equal inside
        cases Int.ofNat.inj equal
        exact behind.1 (List.mem_map_of_mem inside)
      · simp only [Function.update_of_ne same, map', holds.mapped]
        refine exists_congr fun w => and_congr_right fun equal => ?_
        have other : w ≠ v := fun both => same (by rw [equal, both])
        simp only [List.mem_append, List.mem_cons, Prod.mk.injEq, other, and_false, false_or]
    · show l'.size - 1 = _
      rw [size', holds.size]
      simp only [List.length_append, List.length_cons]
      omega

/-- The result -1 of an empty replacer. -/
def evictedVal (result : Option Nat) : Int :=
  match result with
  | some val => val
  | none => -1

theorem evict_run (holds : Holds l cells) :
    ∃ l' cells', l.evict = some (evictedVal (vals cells).evict.1, l') ∧ Holds l' cells' ∧
      vals cells' = (vals cells).evict.2 := by
  rcases List.eq_nil_or_concat cells with rfl | ⟨xs, ⟨a, v⟩, rfl⟩
  · have empty : l.head = none := holds.head
    refine ⟨l, [], ?_, holds, rfl⟩
    simp only [LinkedReplacer.evict, empty]
    rfl
  · have last : (vals (xs.concat (a, v))).getLast? = some v := by simp [vals]
    have tail : l.tail = some a := by
      rw [holds.tail]
      simp
    have nonempty : l.head ≠ none := by
      rw [holds.head]
      cases xs <;> simp
    obtain ⟨p, head⟩ := Option.ne_none_iff_exists'.mp nonempty
    obtain ⟨node, live, val⟩ := valAt_some (holds.values (a, v) (by simp))
    obtain ⟨l', cells', run, holds', vals'⟩ := remove_run holds v
    refine ⟨l', cells', ?_, holds', ?_⟩
    · simp only [LinkedReplacer.evict, head, tail, live, val, run, Option.bind_eq_bind, Option.bind_some, Option.pure_def,
        DiskMap.LRUReplacer.evict, last, evictedVal]
    · simp only [DiskMap.LRUReplacer.evict, last, DiskMap.LRUReplacer.remove, vals']

end LinkedReplacer

inductive LRUCall
  | insert (val address : Nat)
  | remove (val : Nat)
  | evict

inductive DualCall
  | insert (val : Nat) (adviseEviction : Bool) (address : Nat)
  | remove (val : Nat)
  | evict

def LinkedReplacer.call (l : LinkedReplacer) : LRUCall → Option (LinkedReplacer × Reply)
  | .insert val address => (l.insert val address).map (·, .inserted)
  | .remove val => (l.remove val).map fun (found, l) => (l, .removed found)
  | .evict => l.evict.map fun (val, l) => (l, .evicted val)

def LRUReplacer.call (l : LRUReplacer) : LRUCall → LRUReplacer × Reply
  | .insert val _ => (l.insert val, .inserted)
  | .remove val => ((l.remove val).2, .removed (l.remove val).1)
  | .evict => (l.evict.2, .evicted (LinkedReplacer.evictedVal l.evict.1))

/-- `new` gives an address at which no node is. -/
def LinkedReplacer.NewAddress (l : LinkedReplacer) : LRUCall → Prop
  | .insert _ address => l.nodes address = none
  | _ => True

structure LinkedDualReplacer where
  important : LinkedReplacer := {}
  unimportant : LinkedReplacer := {}

namespace LinkedDualReplacer

def insert (d : LinkedDualReplacer) (val : Int) (adviseEviction : Bool) (address : Nat) : Option LinkedDualReplacer :=
  if adviseEviction then
    if d.important.contains val then some d
    else do
      let unimportant ← d.unimportant.insert val address
      return { d with unimportant }
  else do
    let important ← d.important.insert val address
    let (_, unimportant) ← d.unimportant.remove val
    return { important, unimportant }

def remove (d : LinkedDualReplacer) (val : Int) : Option (Bool × LinkedDualReplacer) := do
  let (found, unimportant) ← d.unimportant.remove val
  if found then return (true, { d with unimportant })
  else
    let (found, important) ← d.important.remove val
    return (found, { important, unimportant })

def evict (d : LinkedDualReplacer) : Option (Int × LinkedDualReplacer) := do
  let (result, unimportant) ← d.unimportant.evict
  if result ≠ -1 then return (result, { d with unimportant })
  else
    let (result, important) ← d.important.evict
    return (result, { important, unimportant })

def call (d : LinkedDualReplacer) : DualCall → Option (LinkedDualReplacer × Reply)
  | .insert val adviseEviction address => (d.insert val adviseEviction address).map (·, .inserted)
  | .remove val => (d.remove val).map fun (found, d) => (d, .removed found)
  | .evict => d.evict.map fun (val, d) => (d, .evicted val)

def NewAddress (d : LinkedDualReplacer) : DualCall → Prop
  | .insert _ _ address => d.important.nodes address = none ∧ d.unimportant.nodes address = none
  | _ => True

end LinkedDualReplacer

def DualPriorityReplacer.call (d : DualPriorityReplacer) : DualCall → DualPriorityReplacer × Reply
  | .insert val adviseEviction _ => (d.insert val adviseEviction, .inserted)
  | .remove val => ((d.remove val).2, .removed (d.remove val).1)
  | .evict => (d.evict.2, .evicted (LinkedReplacer.evictedVal d.evict.1))

/-- The nodes hold the values of a recency list, each of them once. -/
def LinkedReplacer.Represents (l : LinkedReplacer) (vals : LRUReplacer) : Prop :=
  ∃ cells, Holds l cells ∧ LinkedReplacer.vals cells = vals

namespace LinkedReplacer

variable {l : LinkedReplacer} {list : LRUReplacer}

theorem Represents.nodup (represents : l.Represents list) : list.Nodup := by
  obtain ⟨cells, holds, rfl⟩ := represents
  exact holds.distinct

theorem Represents.insert (represents : l.Represents list) (v : Nat) {a : Nat} (fresh : l.nodes a = none) :
    ∃ l', l.insert v a = some l' ∧ l'.Represents (list.insert v) := by
  obtain ⟨cells, holds, rfl⟩ := represents
  obtain ⟨l', cells', run, holds', vals'⟩ := insert_run holds fresh
  exact ⟨l', run, cells', holds', vals'⟩

theorem Represents.remove (represents : l.Represents list) (v : Nat) :
    ∃ l', l.remove v = some ((list.remove v).1, l') ∧ l'.Represents (list.remove v).2 := by
  obtain ⟨cells, holds, rfl⟩ := represents
  obtain ⟨l', cells', run, holds', vals'⟩ := remove_run holds v
  exact ⟨l', run, cells', holds', vals'⟩

theorem Represents.evict (represents : l.Represents list) :
    ∃ l', l.evict = some (evictedVal list.evict.1, l') ∧ l'.Represents list.evict.2 := by
  obtain ⟨cells, holds, rfl⟩ := represents
  obtain ⟨l', cells', run, holds', vals'⟩ := evict_run holds
  exact ⟨l', run, cells', holds', vals'⟩

theorem Represents.contains (represents : l.Represents list) (v : Nat) : l.contains v = decide (v ∈ list) := by
  obtain ⟨cells, holds, rfl⟩ := represents
  exact holds.map_isSome

theorem call_represents (represents : l.Represents list) {c : LRUCall} (fresh : l.NewAddress c) :
    ∃ l', l.call c = some (l', (list.call c).2) ∧ l'.Represents (list.call c).1 := by
  cases c with
  | insert val address =>
    obtain ⟨l', run, represents'⟩ := represents.insert val fresh
    exact ⟨l', by simp only [call, run, Option.map_some, LRUReplacer.call], represents'⟩
  | remove val =>
    obtain ⟨l', run, represents'⟩ := represents.remove val
    exact ⟨l', by simp only [call, run, Option.map_some, LRUReplacer.call], represents'⟩
  | evict =>
    obtain ⟨l', run, represents'⟩ := represents.evict
    exact ⟨l', by simp only [call, run, Option.map_some, LRUReplacer.call], represents'⟩

end LinkedReplacer

/-- Both lists are represented, and no value is in both. -/
structure LinkedDualReplacer.Represents (d : LinkedDualReplacer) (lists : DualPriorityReplacer) : Prop where
  important : d.important.Represents lists.important
  unimportant : d.unimportant.Represents lists.unimportant
  apart : lists.important.Disjoint lists.unimportant

namespace LinkedDualReplacer

variable {d : LinkedDualReplacer} {lists : DualPriorityReplacer}

theorem Represents.insert (represents : d.Represents lists) (v : Nat) (adviseEviction : Bool) {a : Nat}
    (important : d.important.nodes a = none) (unimportant : d.unimportant.nodes a = none) :
    ∃ d', d.insert v adviseEviction a = some d' ∧ d'.Represents (lists.insert v adviseEviction) := by
  unfold DualPriorityReplacer.insert LinkedDualReplacer.insert
  rw [represents.important.contains]
  cases adviseEviction with
  | true =>
    by_cases present : v ∈ lists.important
    · refine ⟨d, ?_, ?_⟩
      · simp only [if_true, decide_eq_true present]
      · simpa only [if_true, if_pos present] using represents
    · obtain ⟨list, run, inserted⟩ := represents.unimportant.insert v unimportant
      refine ⟨{ d with unimportant := list }, ?_, ?_⟩
      · simp [present, run]
      · simp only [if_true, if_neg present]
        refine ⟨represents.important, inserted, fun w first second => ?_⟩
        rcases LRUReplacer.mem_insert.mp second with rfl | old
        · exact present first
        · exact represents.apart first old
  | false =>
    obtain ⟨first, run, inserted⟩ := represents.important.insert v important
    obtain ⟨second, run', removed⟩ := represents.unimportant.remove v
    refine ⟨{ important := first, unimportant := second }, ?_, ⟨inserted, removed, fun w here there => ?_⟩⟩
    · simp [run, run']
    · have old : w ∈ lists.unimportant := LRUReplacer.mem_of_mem_remove there
      rcases LRUReplacer.mem_insert.mp here with rfl | inside
      · exact represents.unimportant.nodup.not_mem_erase there
      · exact represents.apart inside old

theorem Represents.remove (represents : d.Represents lists) (v : Nat) :
    ∃ d', d.remove v = some ((lists.remove v).1, d') ∧ d'.Represents (lists.remove v).2 := by
  obtain ⟨second, run, removed⟩ := represents.unimportant.remove v
  unfold DualPriorityReplacer.remove LinkedDualReplacer.remove
  simp only [LRUReplacer.remove] at run removed ⊢
  by_cases found : v ∈ lists.unimportant
  · simp only [decide_eq_true found] at run ⊢
    refine ⟨{ d with unimportant := second }, by simp [run], represents.important, removed, fun w here there => ?_⟩
    exact represents.apart here (List.mem_of_mem_erase there)
  · simp only [decide_eq_false found] at run ⊢
    obtain ⟨first, run', removed'⟩ := represents.important.remove v
    simp only [LRUReplacer.remove] at run' removed'
    refine ⟨{ important := first, unimportant := second }, by simp [run, run'], removed', removed, fun w here there => ?_⟩
    exact represents.apart (List.mem_of_mem_erase here) (List.mem_of_mem_erase there)

theorem Represents.evict (represents : d.Represents lists) :
    ∃ d', d.evict = some (LinkedReplacer.evictedVal lists.evict.1, d') ∧ d'.Represents lists.evict.2 := by
  obtain ⟨second, run, evicted⟩ := represents.unimportant.evict
  unfold DualPriorityReplacer.evict LinkedDualReplacer.evict
  cases result : lists.unimportant.evict with
  | mk val rest =>
    rw [result] at run evicted
    cases val with
    | some val =>
      have other : (val : Int) ≠ -1 := by omega
      refine ⟨{ d with unimportant := second }, by simp [run, LinkedReplacer.evictedVal, other], represents.important,
        evicted, fun w here there => ?_⟩
      exact represents.apart here ((LRUReplacer.evict_mem result).2 w there)
    | none =>
      obtain ⟨first, run', evicted'⟩ := represents.important.evict
      refine ⟨{ important := first, unimportant := second }, by simp [run, run', LinkedReplacer.evictedVal], evicted', evicted,
        fun w here there => ?_⟩
      have old : w ∈ lists.unimportant := by rw [← LRUReplacer.evict_none result]; exact there
      refine represents.apart ?_ old
      cases lower : lists.important.evict with
      | mk val' rest' =>
        rw [lower] at here
        cases val' with
        | some val' => exact (LRUReplacer.evict_mem lower).2 w here
        | none => rw [← LRUReplacer.evict_none lower]; exact here

theorem call_represents (represents : d.Represents lists) {c : DualCall} (fresh : d.NewAddress c) :
    ∃ d', d.call c = some (d', (lists.call c).2) ∧ d'.Represents (lists.call c).1 := by
  cases c with
  | insert val adviseEviction address =>
    obtain ⟨d', run, represents'⟩ := represents.insert val adviseEviction fresh.1 fresh.2
    exact ⟨d', by simp only [call, run, Option.map_some, DualPriorityReplacer.call], represents'⟩
  | remove val =>
    obtain ⟨d', run, represents'⟩ := represents.remove val
    exact ⟨d', by simp only [call, run, Option.map_some, DualPriorityReplacer.call], represents'⟩
  | evict =>
    obtain ⟨d', run, represents'⟩ := represents.evict
    exact ⟨d', by simp only [call, run, Option.map_some, DualPriorityReplacer.call], represents'⟩

end LinkedDualReplacer

/-- Whatever addresses `new` gives, every call on the nodes gives what it gives on the recency lists, and no
pointer is followed that is null or whose node was deleted. -/
theorem replacers_keep_recency :
    (∀ calls, Permitted LinkedReplacer.call LinkedReplacer.NewAddress {} calls →
      ∃ l, runCalls LinkedReplacer.call {} calls = some (l, (specCalls LRUReplacer.call [] calls).2) ∧
        l.Represents (specCalls LRUReplacer.call [] calls).1 ∧ (specCalls LRUReplacer.call [] calls).1.Nodup) ∧
    ∀ calls, Permitted LinkedDualReplacer.call LinkedDualReplacer.NewAddress {} calls →
      ∃ d, runCalls LinkedDualReplacer.call {} calls = some (d, (specCalls DualPriorityReplacer.call {} calls).2) ∧
        d.Represents (specCalls DualPriorityReplacer.call {} calls).1 := by
  have empty : LinkedReplacer.Represents {} [] := ⟨[], .empty, rfl⟩
  constructor
  · intro calls permitted
    obtain ⟨l, run, represents⟩ :=
      runCalls_simulates (R := LinkedReplacer.Represents)
        (fun l list c represents (fresh : l.NewAddress c) => LinkedReplacer.call_represents (c := c) represents fresh) empty permitted
    exact ⟨l, run, represents, represents.nodup⟩
  · intro calls permitted
    refine runCalls_simulates (R := LinkedDualReplacer.Represents)
      (fun d lists c represents (fresh : d.NewAddress c) => LinkedDualReplacer.call_represents (c := c) represents fresh) ?_ permitted
    exact ⟨empty, empty, List.disjoint_nil_left _⟩

/-- The address of a deleted node is given out again. -/
theorem replacers_keep_recency_reused : ∃ l, runCalls LinkedReplacer.call {}
    [.insert 1 8, .insert 2 9, .insert 3 4, .insert 1 7, .remove 2, .insert 5 9, .evict, .evict, .evict, .evict] =
      some (l, [.inserted, .inserted, .inserted, .inserted, .removed true, .inserted, .evicted 3, .evicted 1, .evicted 5,
        .evicted (-1)]) := by
  have permitted : Permitted LinkedReplacer.call LinkedReplacer.NewAddress {}
      [.insert 1 8, .insert 2 9, .insert 3 4, .insert 1 7, .remove 2, .insert 5 9, .evict, .evict, .evict, .evict] := by
    refine ⟨rfl, ?_⟩; rintro _ _ ⟨⟩
    refine ⟨rfl, ?_⟩; rintro _ _ ⟨⟩
    refine ⟨rfl, ?_⟩; rintro _ _ ⟨⟩
    refine ⟨rfl, ?_⟩; rintro _ _ ⟨⟩
    refine ⟨trivial, ?_⟩; rintro _ _ ⟨⟩
    refine ⟨rfl, ?_⟩; rintro _ _ ⟨⟩
    exact ⟨trivial, fun _ _ _ => ⟨trivial, fun _ _ _ => ⟨trivial, fun _ _ _ => ⟨trivial, fun _ _ _ => trivial⟩⟩⟩⟩
  obtain ⟨l, run, -⟩ := replacers_keep_recency.1 _ permitted
  exact ⟨l, run⟩

end DiskMap
