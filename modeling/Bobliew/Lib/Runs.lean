import Mathlib

/-!
# Runs of a guarded step function

A component is a state type, a labelled step function that either succeeds or ends the run
with a fault, and a side condition saying which labels may be taken in a state. A state is
reached when some sequence of permitted, successful steps leads to it.

An invariant needs one proof per step. Faults end a run, so nothing is claimed after one: a step that is
put together from fallible parts is taken apart into the results of these. Where several parties take
part, a count over them follows from the party that moved.
-/

/-- A mapped result comes from a result. -/
theorem Except.exists_of_map_eq_ok {E A B : Type*} {r : Except E A} {f : A → B} {y : B}
    (h : r.map f = .ok y) : ∃ x, r = .ok x ∧ f x = y := by
  cases r with
  | error e => cases h
  | ok x =>
    cases h
    exact ⟨x, rfl, rfl⟩

/-- A chain that succeeds succeeds in both of its parts. -/
theorem Except.exists_of_bind_eq_ok {E A B : Type*} {r : Except E A} {f : A → Except E B} {y : B}
    (h : r.bind f = .ok y) : ∃ x, r = .ok x ∧ f x = .ok y := by
  cases r with
  | error e => cases h
  | ok x => exact ⟨x, rfl, h⟩

namespace Runs

variable {σ ι ε : Type*}

/-- The states reached from `init` by permitted steps that do not fault. -/
inductive Reaches (step : σ → ι → Except ε σ) (permitted : σ → ι → Prop) (init : σ) : σ → Prop
  | start : Reaches step permitted init init
  | next {s s' : σ} : Reaches step permitted init s → (i : ι) → permitted s i → step s i = .ok s' →
      Reaches step permitted init s'

/-- A step function that never faults. -/
def faultless (step : σ → ι → σ) : σ → ι → Except Empty σ := fun s i => .ok (step s i)

variable {step : σ → ι → Except ε σ} {permitted : σ → ι → Prop} {init : σ}

/-- A property of the initial state that every permitted step keeps holds in every reached state. -/
theorem Reaches.invariant (Inv : σ → Prop) (hinit : Inv init)
    (hstep : ∀ s i s', Inv s → permitted s i → step s i = .ok s' → Inv s') {s : σ}
    (h : Reaches step permitted init s) : Inv s := by
  induction h with
  | start => exact hinit
  | next _ i hallowed hok ih => exact hstep _ _ _ ih hallowed hok

/-- What a call keeps exactly if it meets a condition holds after every part of a sequence of calls exactly if
every one of them meets the condition where it is made. -/
theorem forall_earlier_iff {C : Type*} {P : List C → Prop} {M : List C → C → Prop} (hnil : P [])
    (hcall : ∀ earlier c, P earlier → (P (earlier ++ [c]) ↔ M earlier c)) (calls : List C) :
    (∀ earlier later, calls = earlier ++ later → P earlier) ↔
      ∀ earlier c later, calls = earlier ++ c :: later → M earlier c := by
  constructor
  · intro hall earlier c later heq
    refine (hcall earlier c (hall earlier (c :: later) heq)).mp (hall (earlier ++ [c]) later ?_)
    rw [heq, List.append_assoc, List.singleton_append]
  · intro hmeets earlier
    induction earlier using List.reverseRecOn with
    | nil => exact fun _ _ => hnil
    | append_singleton earlier c ih =>
      intro later heq
      rw [List.append_assoc, List.singleton_append] at heq
      exact (hcall earlier c (ih (c :: later) heq)).mpr (hmeets earlier c later heq)

/-- A weight summed over all parties, before and after one of them has moved. -/
theorem sum_update {W P : Type*} [Fintype W] [DecidableEq W] (place : W → P) (weight : P → ℕ) (w : W) (p : P) :
    (∑ u, weight (Function.update place w p u)) + weight (place w) = (∑ u, weight (place u)) + weight p := by
  have hupdate : (fun u => weight (Function.update place w p u)) =
      Function.update (fun u => weight (place u)) w (weight p) := by
    funext u
    exact Function.apply_update (fun _ => weight) place w p u
  have hrest := Finset.add_sum_erase Finset.univ (fun u => weight (place u)) (Finset.mem_univ w)
  rw [hupdate, Finset.sum_update_of_mem (Finset.mem_univ w), Finset.sdiff_singleton_eq_erase]
  omega

end Runs
