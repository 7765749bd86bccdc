import Mathlib

/-!
# Computations that throw and keep their state

A computation takes a state and returns a result or an exception together with the state it leaves
behind: throwing does not undo what was done before. Two judgements describe a run from a given state,
one for returning and one for throwing, and each way of composing computations has a rule that takes
a run of the whole apart into runs of its parts.
-/

/-- A computation on a state that may throw. -/
def Effect (S E A : Type) : Type := S → Except E A × S

namespace Effect

variable {S T E A B : Type} {m : Effect S E A} {f : A → Effect S E B} {s s' : S} {x : A} {y : B} {e : E}

/-- Run the second computation from the state the first one leaves, unless the first one throws. -/
def andThen (m : Effect S E A) (f : A → Effect S E B) : Effect S E B := fun s =>
  match m s with
  | (.ok x, s') => f x s'
  | (.error e, s') => (.error e, s')

instance : Monad (Effect S E) where
  pure x := fun s => (.ok x, s)
  bind := andThen

/-- Throw an exception. -/
def throw (e : E) : Effect S E A := fun s => (.error e, s)

/-- Handle the exceptions of a computation in the state it leaves. -/
def catching (m : Effect S E A) (handler : E → Effect S E A) : Effect S E A := fun s =>
  match m s with
  | (.ok x, s') => (.ok x, s')
  | (.error e, s') => handler e s'

/-- A computation given by the state it leaves and its result. -/
def of (step : S → S × Except E A) : Effect S E A := fun s => ((step s).2, (step s).1)

/-- A computation on the second component of a state. -/
def onSnd (m : Effect S E A) : Effect (T × S) E A := fun s => ((m s.2).1, (s.1, (m s.2).2))

/-- Change the first component of a state. -/
def modifyFst (g : T → T) : Effect (T × S) E Unit := fun s => (.ok (), (g s.1, s.2))

/-- From `s` the computation returns `x` and leaves `s'`. -/
def Returns (m : Effect S E A) (s : S) (x : A) (s' : S) : Prop := m s = (.ok x, s')

/-- From `s` the computation throws `e` and leaves `s'`. -/
def Throws (m : Effect S E A) (s : S) (e : E) (s' : S) : Prop := m s = (.error e, s')

/-- A run that returns is determined. -/
theorem Returns.unique (h : m.Returns s x s') {x' : A} {s'' : S} (h' : m.Returns s x' s'') :
    x = x' ∧ s' = s'' := by
  have heq := h.symm.trans h'
  simpa using heq

/-- A run does not both return and throw. -/
theorem Returns.not_throws (h : m.Returns s x s') {s'' : S} : ¬ m.Throws s e s'' := by
  intro h'
  have heq := h.symm.trans h'
  simp at heq

/-- A computation given by its state and result returns. -/
theorem returns_of {step : S → S × Except E A} : (of step).Returns s x s' ↔ step s = (s', .ok x) := by
  change ((step s).2, (step s).1) = (.ok x, s') ↔ _
  rw [Prod.ext_iff, Prod.ext_iff, and_comm]

/-- A computation given by its state and result throws. -/
theorem throws_of {step : S → S × Except E A} : (of step).Throws s e s' ↔ step s = (s', .error e) := by
  change ((step s).2, (step s).1) = (.error e, s') ↔ _
  rw [Prod.ext_iff, Prod.ext_iff, and_comm]

/-- A result that is already there. -/
@[simp] theorem returns_pure {x' : A} : (pure x : Effect S E A).Returns s x' s' ↔ x = x' ∧ s = s' := by
  change ((.ok x : Except E A), s) = (.ok x', s') ↔ _
  simp

/-- Two computations return in turn. -/
theorem returns_bind :
    (m >>= f).Returns s y s' ↔ ∃ x t, m.Returns s x t ∧ (f x).Returns t y s' := by
  change m.andThen f s = (.ok y, s') ↔ _
  unfold Returns andThen
  rcases h : m s with ⟨result, t⟩
  cases result with
  | ok x => simp
  | error e => simp

/-- Two computations in turn throw when the first or the second one does. -/
theorem throws_bind : (m >>= f).Throws s e s' ↔
    m.Throws s e s' ∨ ∃ x t, m.Returns s x t ∧ (f x).Throws t e s' := by
  change m.andThen f s = (.error e, s') ↔ _
  unfold Returns Throws andThen
  rcases h : m s with ⟨result, t⟩
  cases result with
  | ok x => simp
  | error e' => simp

/-- Changing the result of a computation. -/
theorem returns_map {g : A → B} : (g <$> m).Returns s y s' ↔ ∃ x, m.Returns s x s' ∧ g x = y := by
  change (m >>= fun x => pure (g x)).Returns s y s' ↔ _
  simp [returns_bind]

/-- A computation with a handler returns by itself or after an exception. -/
theorem returns_catching {handler : E → Effect S E A} :
    (m.catching handler).Returns s x s' ↔
      m.Returns s x s' ∨ ∃ e t, m.Throws s e t ∧ (handler e).Returns t x s' := by
  unfold Returns Throws catching
  rcases h : m s with ⟨result, t⟩
  cases result with
  | ok x => simp
  | error e => simp

/-- A computation on the second component leaves the first one alone. -/
theorem returns_onSnd {s s' : T × S} :
    m.onSnd.Returns s x s' ↔ m.Returns s.2 x s'.2 ∧ s.1 = s'.1 := by
  unfold Returns onSnd
  rcases h : m s.2 with ⟨result, t⟩
  obtain ⟨left, right⟩ := s'
  simp only [Prod.mk.injEq]
  tauto

end Effect
