import Bobliew.Lib.WireFormat

/-!
# The bits of numbers made of bytes

A bit of a number is a bit of one of its bytes, so swapping the bytes of a number permutes its bits, and
commutes with operations that act on each bit. A mask of leading ones is the complement of one of trailing
ones.
-/

namespace WireFormat

/-- A byte has no bits from the eighth on. -/
theorem testBit_byte {b : UInt8} {i : ℕ} (hi : 8 ≤ i) : b.toNat.testBit i = false :=
  Nat.testBit_eq_false_of_lt (lt_of_lt_of_le b.toNat_lt (Nat.pow_le_pow_right (by decide) hi))

/-- A bit of the complement of a byte. -/
theorem testBit_not_byte (b : UInt8) {i : ℕ} (hi : i < 8) : (~~~ b).toNat.testBit i = !b.toNat.testBit i := by
  have hlt : b.toNat < 2 ^ 8 := b.toNat_lt
  have hnot : (~~~ b).toNat = 2 ^ 8 - (b.toNat + 1) := by
    rw [UInt8.toNat_not, Nat.sub_sub, Nat.add_comm]
    rfl
  rw [hnot, Nat.testBit_two_pow_sub_succ hlt, decide_eq_true hi, Bool.true_and]

/-- Bytes with the same bits are the same. -/
theorem eq_of_testBit_byte {b c : UInt8} (h : ∀ i < 8, b.toNat.testBit i = c.toNat.testBit i) : b = c := by
  refine UInt8.toNat_inj.mp (Nat.eq_of_testBit_eq fun i => ?_)
  by_cases hi : i < 8
  · exact h i hi
  · rw [testBit_byte (not_lt.mp hi), testBit_byte (not_lt.mp hi)]

/-- A mask and its complement take the same from zero only. -/
theorem and_not_byte_iff (byte mask : UInt8) : byte &&& ~~~ mask = byte &&& mask ↔ byte = 0 := by
  refine ⟨fun heq => eq_of_testBit_byte fun i hi => ?_, fun heq => ?_⟩
  · have hbit := congrArg (·.toNat.testBit i) heq
    simp only [UInt8.toNat_and, Nat.testBit_and, testBit_not_byte _ hi] at hbit
    have hnone : (0 : UInt8).toNat.testBit i = false := Nat.zero_testBit i
    rw [hnone]
    cases hbyte : byte.toNat.testBit i with
    | false => rfl
    | true =>
      rw [hbyte] at hbit
      cases hmask : mask.toNat.testBit i
      all_goals simp [hmask] at hbit
  · rw [heq, UInt8.zero_and, UInt8.zero_and]

/-- A bit of the number that bytes give. -/
theorem testBit_ofLittleEndian (bytes : List UInt8) (i : ℕ) :
    (ofLittleEndian bytes).testBit i = (bytes[i / 8]?.getD 0).toNat.testBit (i % 8) := by
  induction bytes generalizing i with
  | nil => simp [ofLittleEndian]
  | cons byte rest ih =>
    have hbyte : byte.toNat < 2 ^ 8 := byte.toNat_lt
    rw [ofLittleEndian, Nat.add_comm, show 256 = 2 ^ 8 from rfl, Nat.testBit_two_pow_mul_add _ hbyte]
    split
    · rename_i hlow
      rw [Nat.div_eq_of_lt hlow, Nat.mod_eq_of_lt hlow]
      rfl
    · rename_i hhigh
      have hdiv : i / 8 = (i - 8) / 8 + 1 := by omega
      have hmod : (i - 8) % 8 = i % 8 := by omega
      rw [ih, hdiv, List.getElem?_cons_succ, hmod]

/-- A bit of a byte of a number. -/
theorem testBit_littleEndian (n v j i : ℕ) (hi : i < 8) :
    ((littleEndian n v)[j]?.getD 0).toNat.testBit i = (decide (j < n) && v.testBit (8 * j + i)) := by
  induction n generalizing v j with
  | zero => simp [littleEndian]
  | succ n ih =>
    cases j with
    | zero =>
      have hbyte : (UInt8.ofNat v).toNat = v % 2 ^ 8 := UInt8.toNat_ofNat'
      change (UInt8.ofNat v).toNat.testBit i = _
      rw [hbyte, Nat.testBit_mod_two_pow, decide_eq_true hi, Nat.mul_zero, Nat.zero_add,
        decide_eq_true (Nat.succ_pos n)]
    | succ j =>
      have hshift : v / 256 = v >>> 8 := (Nat.shiftRight_eq_div_pow v 8).symm
      have hindex : 8 + (8 * j + i) = 8 * (j + 1) + i := by omega
      rw [littleEndian, List.getElem?_cons_succ, ih, hshift, Nat.testBit_shiftRight, hindex]
      simp

/-- A bit of a number whose bytes are swapped. -/
theorem testBit_swapped (n v i : ℕ) : (ofLittleEndian (littleEndian n v).reverse).testBit i =
    (decide (i < 8 * n) && v.testBit (8 * (n - 1 - i / 8) + i % 8)) := by
  have hmod := Nat.mod_lt i (by decide : 0 < 8)
  rw [testBit_ofLittleEndian]
  by_cases hi : i / 8 < n
  · rw [List.getElem?_reverse (by simpa using hi), length_littleEndian, testBit_littleEndian _ _ _ _ hmod]
    have hlt : n - 1 - i / 8 < n := by omega
    have hlt' : i < 8 * n := by omega
    rw [decide_eq_true hlt, decide_eq_true hlt']
  · have hge : ¬ i < 8 * n := by omega
    rw [List.getElem?_eq_none (by simpa using hi), decide_eq_false hge]
    simp

/-- A mask of `p` leading ones in `w` bits. -/
def leadingOnes (w p : ℕ) : ℕ := 2 ^ w - 2 ^ (w - p)

/-- The bits of such a mask. -/
theorem testBit_leadingOnes {w p : ℕ} (i : ℕ) :
    (leadingOnes w p).testBit i = (decide (i < w) && decide (w - p ≤ i)) := by
  have hpos := Nat.two_pow_pos (w - p)
  have hlt : 2 ^ (w - p) - 1 < 2 ^ w := by
    have hle := Nat.pow_le_pow_right (by decide : 0 < 2) (Nat.sub_le w p)
    omega
  have hmask : leadingOnes w p = 2 ^ w - (2 ^ (w - p) - 1 + 1) := by
    rw [leadingOnes, Nat.sub_add_cancel hpos]
  rw [hmask, Nat.testBit_two_pow_sub_succ hlt, Nat.testBit_two_pow_sub_one]
  by_cases hi : i < w - p
  · rw [decide_eq_true hi, decide_eq_false (not_le.mpr hi)]
    simp
  · rw [decide_eq_false hi, decide_eq_true (not_lt.mp hi)]
    simp

/-- The complement of such a mask. -/
theorem not_leadingOnes {w p : ℕ} : 2 ^ w - 1 - leadingOnes w p = 2 ^ (w - p) - 1 := by
  have hle := Nat.pow_le_pow_right (by decide : 0 < 2) (Nat.sub_le w p)
  unfold leadingOnes
  omega

end WireFormat
