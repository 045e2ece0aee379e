namespace CallRun

variable {S A C O : Type}

/-- Calls one after another, each of which may fail, with what they give back. -/
def runCalls (call : S → C → Option (S × O)) : S → List C → Option (S × List O)
  | s, [] => some (s, [])
  | s, c :: cs => do
    let (s, o) ← call s c
    let (s, os) ← runCalls call s cs
    return (s, o :: os)

/-- The same calls on a model that never fails. -/
def specCalls (spec : A → C → A × O) : A → List C → A × List O
  | a, [] => (a, [])
  | a, c :: cs =>
    let (a, o) := spec a c
    let (a, os) := specCalls spec a cs
    (a, o :: os)

/-- Each call is permitted in the state in which it is made. -/
def Permitted (call : S → C → Option (S × O)) (ok : S → C → Prop) : S → List C → Prop
  | _, [] => True
  | s, c :: cs => ok s c ∧ ∀ s' o, call s c = some (s', o) → Permitted call ok s' cs

/-- A relation that every permitted call keeps, with equal results, holds over the whole run. -/
theorem runCalls_simulates {call : S → C → Option (S × O)} {spec : A → C → A × O} {ok : S → C → Prop}
    {R : S → A → Prop}
    (simulates : ∀ s a c, R s a → ok s c → ∃ s', call s c = some (s', (spec a c).2) ∧ R s' (spec a c).1)
    {calls : List C} {s : S} {a : A} (related : R s a) (permitted : Permitted call ok s calls) :
    ∃ s', runCalls call s calls = some (s', (specCalls spec a calls).2) ∧ R s' (specCalls spec a calls).1 := by
  induction calls generalizing s a with
  | nil => exact ⟨s, rfl, related⟩
  | cons c cs ih =>
    obtain ⟨allowed, rest⟩ := permitted
    obtain ⟨s', first, related'⟩ := simulates s a c related allowed
    obtain ⟨s'', others, related''⟩ := ih related' (rest s' _ first)
    refine ⟨s'', ?_, related''⟩
    simp only [runCalls, specCalls, first, others, Option.bind_eq_bind, Option.bind_some, Option.pure_def]

end CallRun
