import Mathlib

/-!
# Transfers of a fixed size

A number of units is transferred by calls that move as many as they can: a call that is to move `n` of them
fails, or moves at least one and at most `n`. The loop calls again for what is left, and stops at the first
failure. It ends because every call that does not fail moves something.

What has been moved is described by the calls, one after the other. When no call ends in a fault the loop is
some such calls, which are either all that was asked for or followed by one that fails.
-/

namespace FixedTransfer

variable {σ ε E A : Type*}

/-- What a call that is to move `n` units returns. -/
inductive Answer (E : Type*) {A : Type*} (size : A → ℕ) (n : ℕ) where
  | failed (code : E)
  | moved (data : A) (pos : 0 < size data) (le : size data ≤ n)

/-- How many units have been moved. -/
def Answer.count {size : A → ℕ} {n : ℕ} : Answer E size n → ℕ
  | .failed _ => 0
  | .moved data _ _ => size data

/-- A call, which can end in a fault of the program. -/
abbrev Call (σ ε E : Type*) {A : Type*} (size : A → ℕ) :=
  σ → (left : ℕ) → Except ε (Answer E size left × σ)

variable {size : A → ℕ} {call : Call σ ε E size} {s s' t : σ} {left : ℕ} {moved : List A}

/-- The loop: the failure that ends it, if any. -/
def loop (call : Call σ ε E size) (s : σ) (left : ℕ) : Except ε (Option E × σ) :=
  if left > 0 then
    match call s left with
    | .error fault => .error fault
    | .ok (.failed code, s) => .ok (some code, s)
    | .ok (.moved data _ _, s) => loop call s (left - size data)
  else .ok (none, s)
termination_by left
decreasing_by omega

/-- What has been moved. -/
def total (size : A → ℕ) (moved : List A) : ℕ := (moved.map size).sum

/-- Some calls one after the other, each for what is left. -/
inductive Transfers (call : Call σ ε E size) : σ → ℕ → List A → σ → Prop
  | nil (s : σ) (left : ℕ) : Transfers call s left [] s
  | cons {s s' t : σ} {left : ℕ} {data : A} {pos : 0 < size data} {le : size data ≤ left} {moved : List A} :
      call s left = .ok (.moved data pos le, s') → Transfers call s' (left - size data) moved t →
      Transfers call s left (data :: moved) t

/-- All is done. -/
theorem loop_zero (call : Call σ ε E size) (s : σ) : loop call s 0 = .ok (none, s) := by
  rw [loop, if_neg (lt_irrefl 0)]

/-- A call that fails ends the loop. -/
theorem loop_failed {code : E} (hpos : 0 < left) (hcall : call s left = .ok (.failed code, s')) :
    loop call s left = .ok (some code, s') := by
  rw [loop, if_pos hpos, hcall]

/-- A call that moves something is followed by the rest of the loop. -/
theorem loop_moved {data : A} {pos : 0 < size data} {le : size data ≤ left}
    (hcall : call s left = .ok (.moved data pos le, s')) :
    loop call s left = loop call s' (left - size data) := by
  rw [loop, if_pos (by omega), hcall]

end FixedTransfer
