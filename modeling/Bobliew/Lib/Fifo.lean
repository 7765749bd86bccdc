import Mathlib

/-!
# Runs of a first-in first-out queue

A queue is described by what it is told: values are pushed at the back and popped from the front.
A list of actions is a run of the queue when every pop takes the value that is in front at that
moment; the run ends with the values still waiting.

Everything pushed is popped once, in the same order, or still waits. A component whose actions form
such a run therefore neither loses nor duplicates a value.
-/

namespace Fifo

variable {A : Type*}

/-- What a queue is told. -/
inductive Action (A : Type*) where
  | push (a : A)
  | pop (a : A)

/-- The value an action pushes. -/
def Action.pushed? : Action A → Option A
  | .push a => some a
  | .pop _ => none

/-- The value an action pops. -/
def Action.popped? : Action A → Option A
  | .push _ => none
  | .pop a => some a

/-- Runs of a queue that is empty at first, with the values waiting at the end. -/
inductive Run : List (Action A) → List A → Prop
  | nil : Run [] []
  | push {l : List (Action A)} {q : List A} (a : A) : Run l q → Run (l ++ [.push a]) (q ++ [a])
  | pop {l : List (Action A)} {q : List A} {a : A} : Run l (a :: q) → Run (l ++ [.pop a]) q

/-- What was pushed is what was popped followed by what still waits. -/
theorem Run.pushed_eq {l : List (Action A)} {q : List A} (h : Run l q) :
    l.filterMap Action.pushed? = l.filterMap Action.popped? ++ q := by
  induction h with
  | nil => rfl
  | push a _ ih =>
    simp only [List.filterMap_append, ih]
    simp [List.filterMap_cons, Action.pushed?, Action.popped?]
  | pop _ ih =>
    simp only [List.filterMap_append, ih]
    simp [List.filterMap_cons, Action.pushed?, Action.popped?]

end Fifo
