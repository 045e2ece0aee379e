import Mathlib.Data.List.Basic

namespace SharedMutex

/-- A mutex that one holder locks exclusively or any number of holders share. -/
structure Lock (α : Type) where
  writer : Option α
  readers : List α

variable {α : Type}

def free : Lock α := ⟨none, []⟩

def lock (m : Lock α) (a : α) : Option (Lock α) :=
  match m.writer, m.readers with
  | none, [] => some ⟨some a, []⟩
  | _, _ => none

def unlock (m : Lock α) : Lock α :=
  ⟨none, m.readers⟩

def lockShared (m : Lock α) (a : α) : Option (Lock α) :=
  match m.writer with
  | none => some ⟨none, a :: m.readers⟩
  | some _ => none

def unlockShared [DecidableEq α] (m : Lock α) (a : α) : Lock α :=
  ⟨m.writer, m.readers.erase a⟩

/-- The lock is not held exclusively and shared at once, and no holder shares it twice. -/
structure WellFormed (m : Lock α) : Prop where
  exclusive : m.writer = none ∨ m.readers = []
  nodup : m.readers.Nodup

theorem free_wellFormed : WellFormed (free : Lock α) := ⟨Or.inl rfl, List.nodup_nil⟩

theorem lock_eq_some {m m' : Lock α} {a : α} : lock m a = some m' ↔
    m.writer = none ∧ m.readers = [] ∧ m' = ⟨some a, []⟩ := by
  rcases m with ⟨writer, readers⟩
  cases writer <;> cases readers <;> simp [lock, eq_comm]

theorem lockShared_eq_some {m m' : Lock α} {a : α} : lockShared m a = some m' ↔
    m.writer = none ∧ m' = ⟨none, a :: m.readers⟩ := by
  rcases m with ⟨writer, readers⟩
  cases writer <;> simp [lockShared, eq_comm]

theorem WellFormed.lock {m m' : Lock α} {a : α} (taken : lock m a = some m') : WellFormed m' := by
  obtain ⟨_, _, rfl⟩ := lock_eq_some.mp taken
  exact ⟨Or.inr rfl, List.nodup_nil⟩

theorem WellFormed.unlock {m : Lock α} (wf : WellFormed m) : WellFormed (unlock m) :=
  ⟨Or.inl rfl, wf.nodup⟩

theorem WellFormed.lockShared {m m' : Lock α} {a : α} (wf : WellFormed m) (new : a ∉ m.readers)
    (taken : lockShared m a = some m') : WellFormed m' := by
  obtain ⟨_, rfl⟩ := lockShared_eq_some.mp taken
  exact ⟨Or.inl rfl, List.nodup_cons.mpr ⟨new, wf.nodup⟩⟩

theorem WellFormed.unlockShared [DecidableEq α] {m : Lock α} (wf : WellFormed m) (a : α) :
    WellFormed (unlockShared m a) := by
  refine ⟨wf.exclusive.imp_right fun none => ?_, wf.nodup.erase _⟩
  simp [SharedMutex.unlockShared, none]

end SharedMutex
