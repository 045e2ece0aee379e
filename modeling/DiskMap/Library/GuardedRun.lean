namespace GuardedRun

variable {S L : Type} {step : S → L → Option S} {guard : S → L → Prop}

/-- The states reached from `init` by steps that the guard admits where they are taken. -/
inductive Reaches (step : S → L → Option S) (guard : S → L → Prop) (init : S) : S → Prop
  | init : Reaches step guard init init
  | next {s l s'} : Reaches step guard init s → guard s l → step s l = some s' → Reaches step guard init s'

theorem Reaches.invariant {init s : S} (reach : Reaches step guard init s) {P : S → Prop} (base : P init)
    (keep : ∀ s l s', P s → guard s l → step s l = some s' → P s') : P s := by
  induction reach with
  | init => exact base
  | next _ admitted run ih => exact keep _ _ _ ih admitted run

/-- An invariant that only has to hold while a budget lasts, which no step gives back. -/
theorem Reaches.invariant_within {init s : S} (reach : Reaches step guard init s) {P W : S → Prop}
    (within : W s) (base : W init → P init)
    (spend : ∀ s l s', guard s l → step s l = some s' → W s' → W s)
    (keep : ∀ s l s', P s → W s' → guard s l → step s l = some s' → P s') : P s := by
  have strong : W s → P s := by
    clear within
    induction reach with
    | init => exact base
    | next _ admitted run ih =>
      intro within
      exact keep _ _ _ (ih (spend _ _ _ admitted run within)) within admitted run
  exact strong within

theorem Reaches.mono {init s : S} {weaker : S → L → Prop} (reach : Reaches step guard init s)
    (implies : ∀ s l, guard s l → weaker s l) : Reaches step weaker init s := by
  induction reach with
  | init => exact .init
  | next _ admitted run ih => exact .next ih (implies _ _ admitted) run

theorem Reaches.trans {init middle s : S} (first : Reaches step guard init middle)
    (second : Reaches step guard middle s) : Reaches step guard init s := by
  induction second with
  | init => exact first
  | next _ admitted run ih => exact .next ih admitted run

theorem Reaches.call {init s : S} (reach : Reaches step guard init s) (l : L) {s' : S} (run : step s l = some s')
    (admitted : guard s l) : Reaches step guard init s' :=
  reach.next admitted run

/-- Run a list of steps, each one if the guard admits it. -/
def run (step : S → L → Option S) (guard : S → L → Prop) [∀ s l, Decidable (guard s l)] : S → List L → Option S
  | s, [] => some s
  | s, l :: rest => if guard s l then (step s l).bind fun s' => run step guard s' rest else none

theorem Reaches.of_run [∀ s l, Decidable (guard s l)] {l : List L} {s s' : S} (done : run step guard s l = some s') :
    Reaches step guard s s' := by
  induction l generalizing s with
  | nil =>
    cases Option.some.inj done
    exact .init
  | cons first rest ih =>
    unfold run at done
    split at done
    · rename_i admitted
      obtain ⟨middle, begun, later⟩ := Option.bind_eq_some_iff.mp done
      exact (Reaches.init.next admitted begun).trans (ih later)
    · cases done

/-- The state that such a run ends in. -/
theorem Reaches.of_isSome [∀ s l, Decidable (guard s l)] {l : List L} {s : S} (done : (run step guard s l).isSome) :
    Reaches step guard s ((run step guard s l).getD s) := by
  obtain ⟨s', result⟩ := Option.isSome_iff_exists.mp done
  rw [result]
  exact .of_run result

end GuardedRun
