import Mathlib

/-!
# Conversions to signed integer types

The value of an integer in a signed type of `w + 1` bits is the one that is congruent to it. A natural
number keeps its value below `2 ^ w`, and does not become negative exactly when its lower `w + 1` bits
are a number below that bound.
-/

namespace Narrowing

variable {w : ℕ}

/-- The value of an integer in a signed type of `w + 1` bits. -/
def signed (w : ℕ) (n : ℤ) : ℤ := n.bmod (2 ^ (w + 1))

/-- The lower bits of a natural number, the last of them as a sign. -/
theorem signed_natCast (w n : ℕ) : signed w n =
    if n % 2 ^ (w + 1) < 2 ^ w then ((n % 2 ^ (w + 1) : ℕ) : ℤ) else (n % 2 ^ (w + 1) : ℕ) - 2 ^ (w + 1) := by
  have hhalf : (2 ^ (w + 1) + 1) / 2 = 2 ^ w := by
    rw [pow_succ]
    omega
  rw [signed, Int.bmod_def]
  norm_cast
  rw [hhalf]

/-- A natural number does not become negative. -/
theorem signed_nonneg_iff (w n : ℕ) : 0 ≤ signed w n ↔ n % 2 ^ (w + 1) < 2 ^ w := by
  have hlt := Nat.mod_lt n (Nat.two_pow_pos (w + 1))
  rw [signed_natCast]
  split
  · rename_i hlow
    exact iff_of_true (Int.natCast_nonneg _) hlow
  · rename_i hhigh
    refine iff_of_false (not_le.mpr (sub_neg.mpr ?_)) hhigh
    exact_mod_cast hlt

/-- The conversion makes no natural number larger. -/
theorem signed_le (w n : ℕ) : signed w n ≤ n := by
  have hle := Nat.mod_le n (2 ^ (w + 1))
  rw [signed_natCast]
  split
  · exact_mod_cast hle
  · refine le_trans (sub_le_self _ (by positivity)) ?_
    exact_mod_cast hle

end Narrowing
