/-- How a program ends: with a result, with an exception, or not at all. -/
inductive Outcome (S α : Type) where
  | done (result : α) (state : S)
  | threw (message : String) (state : S)
  | stuck

/-- A sequential program on states of type `S`. An exception keeps the state it was thrown in. -/
def Program (S α : Type) : Type := S → Outcome S α

namespace Program

variable {S α β : Type}

def bind (p : Program S α) (next : α → Program S β) : Program S β := fun s =>
  match p s with
  | .done a s' => next a s'
  | .threw message s' => .threw message s'
  | .stuck => .stuck

instance : Monad (Program S) where
  pure a := fun s => .done a s
  bind := bind

def read (view : S → α) : Program S α := fun s => .done (view s) s

def modify (change : S → S) : Program S Unit := fun s => .done () (change s)

def throw (message : String) : Program S α := fun s => .threw message s

/-- Undefined behaviour, or a loop that does not end. -/
def stuck : Program S α := fun _ => .stuck

theorem pure_run (a : α) (s : S) : (pure a : Program S α) s = .done a s := rfl

theorem read_bind (view : S → α) (next : α → Program S β) (s : S) : (read view >>= next) s = next (view s) s := rfl

theorem modify_bind (change : S → S) (next : Unit → Program S β) (s : S) :
    (modify change >>= next) s = next () (change s) := rfl

theorem pure_bind (a : α) (next : α → Program S β) (s : S) : ((pure a : Program S α) >>= next) s = next a s := rfl

theorem done_bind {p : Program S α} {s s' : S} {a : α} (ended : p s = .done a s') (next : α → Program S β) :
    (p >>= next) s = next a s' := by
  change Program.bind p next s = _
  rw [Program.bind, ended]

theorem threw_bind {p : Program S α} {s s' : S} {message : String} (thrown : p s = .threw message s')
    (next : α → Program S β) : (p >>= next) s = .threw message s' := by
  change Program.bind p next s = _
  rw [Program.bind, thrown]

theorem stuck_bind {p : Program S α} {s : S} (never : p s = .stuck) (next : α → Program S β) : (p >>= next) s = .stuck := by
  change Program.bind p next s = _
  rw [Program.bind, never]

theorem bind_assoc {γ : Type} (p : Program S α) (f : α → Program S β) (g : β → Program S γ) :
    (p >>= f >>= g) = p >>= fun a => f a >>= g := by
  funext s
  change Program.bind (Program.bind p f) g s = Program.bind p (fun a => Program.bind (f a) g) s
  unfold Program.bind
  cases p s <;> rfl

/-- The program without its result. -/
def forget (p : Program S α) : Program S Unit := p >>= fun _ => pure ()

theorem forget_bind (p : Program S α) (next : α → Program S β) : (p >>= next).forget = p >>= fun a => (next a).forget :=
  bind_assoc p next _

theorem forget_then (p : Program S α) (next : Unit → Program S β) : p.forget >>= next = p >>= fun _ => next () :=
  bind_assoc p _ next

end Program

/-- Total correctness: a result, and a state with the property. -/
def Outcome.Ends {S α : Type} (o : Outcome S α) (post : α → S → Prop) : Prop :=
  ∃ a s, o = .done a s ∧ post a s

namespace Outcome

variable {S α β : Type} {post : α → S → Prop}

theorem Ends.intro {o : Outcome S α} {a : α} {s : S} (ended : o = .done a s) (holds : post a s) : o.Ends post :=
  ⟨a, s, ended, holds⟩

theorem Ends.of_done {o : Outcome S α} {a : α} {s : S} (ended : o = .done a s) : o.Ends fun _ _ => True :=
  .intro ended trivial

theorem Ends.mono {o : Outcome S α} {weaker : α → S → Prop} (ends : o.Ends post)
    (implies : ∀ a s, post a s → weaker a s) : o.Ends weaker := by
  obtain ⟨a, s, ended, holds⟩ := ends
  exact ⟨a, s, ended, implies a s holds⟩

/-- The rule of sequential composition. -/
theorem Ends.bind {p : Program S α} {next : α → Program S β} {s : S} {post' : β → S → Prop}
    (first : (p s).Ends post) (second : ∀ a s', post a s' → (next a s').Ends post') :
    ((p >>= next) s).Ends post' := by
  obtain ⟨a, s', ended, holds⟩ := first
  rw [Program.done_bind ended]
  exact second a s' holds

def result : Outcome S α → Option α
  | .done a _ => some a
  | _ => none

/-- Runs on given inputs can be computed. -/
theorem Ends.of_result {o : Outcome S α} (view : α → β) {b : β} (is : o.result.map view = some b) : o.Ends fun a _ => view a = b := by
  cases o with
  | done a s => exact .intro rfl (Option.some.inj is)
  | threw message s => cases is
  | stuck => cases is

def message : Outcome S α → Option String
  | .threw message _ => some message
  | _ => none

theorem threw_of_message {o : Outcome S α} {text : String} (is : o.message = some text) : ∃ s, o = .threw text s := by
  cases o with
  | threw message s => exact ⟨s, congrArg (Outcome.threw · s) (Option.some.inj is)⟩
  | done a s => cases is
  | stuck => cases is

/-- What ends has ended its first part. -/
theorem Ends.of_bind {p : Program S α} {next : α → Program S β} {s : S} {post : β → S → Prop}
    (ends : ((p >>= next) s).Ends post) : ∃ a s', p s = .done a s' ∧ (next a s').Ends post := by
  cases first : p s with
  | done a s' =>
    rw [Program.done_bind first] at ends
    exact ⟨a, s', rfl, ends⟩
  | threw message s' =>
    rw [Program.threw_bind first] at ends
    obtain ⟨_, _, impossible, _⟩ := ends
    cases impossible
  | stuck =>
    rw [Program.stuck_bind first] at ends
    obtain ⟨_, _, impossible, _⟩ := ends
    cases impossible

theorem done_of_return {p : Program S α} {f : α → β} {s s' : S} {b : β} (ended : (p >>= fun a => pure (f a)) s = .done b s') :
    ∃ a, p s = .done a s' := by
  obtain ⟨a, _, first, _⟩ := (Ends.of_done ended).of_bind
  rw [Program.done_bind first] at ended
  obtain ⟨_, rfl⟩ := done.inj ended
  exact ⟨a, first⟩

end Outcome

/-- Total correctness within a bound: the program ends with the property and has used no more, or it is stuck
because so much is not there. -/
def Outcome.Within {S α : Type} (used : S → Nat) (limit bound : Nat) (o : Outcome S α) (post : α → S → Prop) : Prop :=
  o.Ends (fun a s => post a s ∧ used s ≤ bound) ∨ o = .stuck ∧ limit < bound

namespace Outcome.Within

variable {S α β : Type} {used : S → Nat} {limit bound bound' : Nat} {post : α → S → Prop} {o : Outcome S α}

theorem intro {a : α} {s : S} (ended : o = .done a s) (holds : post a s) (le : used s ≤ bound) :
    o.Within used limit bound post :=
  Or.inl (.intro ended ⟨holds, le⟩)

theorem mono {weaker : α → S → Prop} (within : o.Within used limit bound post) (le : bound ≤ bound')
    (implies : ∀ a s, post a s → weaker a s) : o.Within used limit bound' weaker := by
  rcases within with ends | ⟨never, more⟩
  · exact Or.inl (ends.mono fun a s ⟨holds, used⟩ => ⟨implies a s holds, Nat.le_trans used le⟩)
  · exact Or.inr ⟨never, Nat.lt_of_lt_of_le more le⟩

theorem of_done {a : α} {s : S} (within : o.Within used limit bound post) (ended : o = .done a s) : post a s := by
  subst ended
  rcases within with ⟨_, _, is, holds, _⟩ | ⟨never, _⟩
  · obtain ⟨rfl, rfl⟩ := Outcome.done.inj is
    exact holds
  · cases never

/-- The rule of sequential composition. The second program begins with what the first one has left. -/
theorem bind {p : Program S α} {next : α → Program S β} {s : S} {post' : β → S → Prop}
    (first : (p s).Within used limit bound post) (le : bound ≤ bound')
    (second : ∀ a s', post a s' → used s' ≤ bound → (next a s').Within used limit bound' post') :
    ((p >>= next) s).Within used limit bound' post' := by
  rcases first with ⟨a, s', ended, holds, used⟩ | ⟨never, more⟩
  · rw [Program.done_bind ended]
    exact second a s' holds used
  · exact Or.inr ⟨Program.stuck_bind never _, Nat.lt_of_lt_of_le more le⟩

theorem forget {p : Program S α} {s : S} {weaker : S → Prop} (within : (p s).Within used limit bound post)
    (implies : ∀ a s', post a s' → weaker s') : (p.forget s).Within used limit bound fun _ => weaker :=
  within.bind (Nat.le_refl _) fun a s' holds le => .intro rfl (implies a s' holds) le

end Outcome.Within
