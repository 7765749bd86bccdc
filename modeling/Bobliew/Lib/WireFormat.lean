import Mathlib

/-!
# Numbers as bytes

Two ways of writing a natural number as bytes, and a way of writing a signed word as an unsigned one.
The fixed format has a given number of bytes, the least significant one first; read backwards it is
the format with the most significant byte first. The variable format has seven bits in each byte, the
least significant ones first, and marks every byte but the last; adding the bits of one byte after
the other restores the number as long as it fits the width of the result. A signed word of small
magnitude becomes a small unsigned one when its sign is moved into the lowest bit.
-/

namespace WireFormat

/-- The lowest `n` bytes of a number, the least significant one first. -/
def littleEndian : ℕ → ℕ → List UInt8
  | 0, _ => []
  | n + 1, v => UInt8.ofNat v :: littleEndian n (v / 256)

/-- The number whose bytes are given, the least significant one first. -/
def ofLittleEndian : List UInt8 → ℕ
  | [] => 0
  | byte :: rest => byte.toNat + 256 * ofLittleEndian rest

/-- The number of bytes. -/
@[simp] theorem length_littleEndian (n v : ℕ) : (littleEndian n v).length = n := by
  induction n generalizing v with
  | zero => rfl
  | succ n ih => simp [littleEndian, ih]

/-- Reading the bytes of a number keeps its lowest bytes. -/
theorem ofLittleEndian_littleEndian (n v : ℕ) : ofLittleEndian (littleEndian n v) = v % 256 ^ n := by
  induction n generalizing v with
  | zero => simp [littleEndian, ofLittleEndian, Nat.mod_one]
  | succ n ih =>
    have hbyte : (UInt8.ofNat v).toNat = v % 256 := UInt8.toNat_ofNat'
    rw [littleEndian, ofLittleEndian, ih, hbyte, pow_succ', Nat.mod_mul (a := 256)]

/-- Bytes give a number that fits into them. -/
theorem ofLittleEndian_lt (bytes : List UInt8) : ofLittleEndian bytes < 256 ^ bytes.length := by
  induction bytes with
  | nil => simp [ofLittleEndian]
  | cons byte rest ih =>
    have hbyte : byte.toNat < 256 := byte.toNat_lt
    rw [ofLittleEndian, List.length_cons, pow_succ]
    omega

/-- Writing the number that bytes give restores them. -/
theorem littleEndian_ofLittleEndian (bytes : List UInt8) :
    littleEndian bytes.length (ofLittleEndian bytes) = bytes := by
  induction bytes with
  | nil => rfl
  | cons byte rest ih =>
    have hbyte : byte.toNat < 256 := byte.toNat_lt
    have hlow : UInt8.ofNat (byte.toNat + 256 * ofLittleEndian rest) = byte := by
      apply UInt8.toNat_inj.mp
      rw [UInt8.toNat_ofNat']
      omega
    rw [ofLittleEndian, List.length_cons, littleEndian, hlow,
      show (byte.toNat + 256 * ofLittleEndian rest) / 256 = ofLittleEndian rest by omega, ih]

/-- The variable format of a number in at most `room` bytes. -/
def varint : ℕ → ℕ → List UInt8
  | 0, _ => []
  | room + 1, value =>
    if value ≥ 0x80 then UInt8.ofNat ((value &&& 0x7F) ||| 0x80) :: varint room (value >>> 7)
    else [UInt8.ofNat value]

/-- The bits a byte adds at an offset to a result of width `w`. -/
def withBits (w i result bits : ℕ) : ℕ := result ||| (bits <<< i) % 2 ^ w

/-- The lowest seven bits. -/
theorem and_low (value : ℕ) : value &&& 0x7F = value % 128 := Nat.and_two_pow_sub_one_eq_mod value 7

/-- A marked byte. -/
theorem toNat_marked (value : ℕ) : (UInt8.ofNat ((value &&& 0x7F) ||| 0x80)).toNat = value % 128 + 128 := by
  have hlow : value % 128 < 2 ^ 7 := Nat.mod_lt _ (by decide)
  have hor : value % 128 ||| 128 = value % 128 + 128 := by
    rw [Nat.or_comm, Nat.add_comm]
    exact (Nat.two_pow_add_eq_or_of_lt hlow 1).symm
  rw [and_low, hor, UInt8.toNat_ofNat']
  omega

/-- With room for all bits of a number its variable format is not empty. -/
theorem varint_ne_nil {room : ℕ} (hroom : 0 < room) (value : ℕ) : varint room value ≠ [] := by
  obtain ⟨room, rfl⟩ := Nat.exists_eq_succ_of_ne_zero hroom.ne'
  rw [varint]
  split <;> simp

/-- Adding the next bits of a number to the bits below them. -/
theorem withBits_mod {w i value : ℕ} (hvalue : value < 2 ^ w) (bits : ℕ)
    (hbits : bits = value / 2 ^ i % 128) : withBits w i (value % 2 ^ i) bits = value % 2 ^ (i + 7) := by
  have hlow : value % 2 ^ i < 2 ^ i := Nat.mod_lt _ (Nat.two_pow_pos i)
  have hdigits : value % 2 ^ (i + 7) = value % 2 ^ i + 2 ^ i * bits := by
    rw [pow_add, Nat.mod_mul, hbits]
    rfl
  have hfits : 2 ^ i * bits < 2 ^ w := by
    have hle : value % 2 ^ (i + 7) ≤ value := Nat.mod_le _ _
    omega
  rw [withBits, Nat.shiftLeft_eq, Nat.mul_comm bits, Nat.mod_eq_of_lt hfits, Nat.or_comm, hdigits,
    Nat.add_comm]
  exact (Nat.two_pow_add_eq_or_of_lt hlow bits).symm

/-- The sign of a word moved into its lowest bit. -/
def zigzag {w : ℕ} (x : BitVec w) : BitVec w := if x.toInt < 0 then -x * 2#w - 1#w else x * 2#w

/-- The word whose sign was moved into the lowest bit. -/
def unzigzag {w : ℕ} (e : BitVec w) : BitVec w := (e >>> 1) ^^^ (-(e &&& 1#w))

section Zigzag

variable {w : ℕ} {e : BitVec w}

/-- The lowest bit of a word. -/
theorem toNat_and_one (hw : 1 < w) : (e &&& 1#w).toNat = e.toNat % 2 := by
  rw [BitVec.toNat_and, BitVec.toNat_ofNat, Nat.mod_eq_of_lt (Nat.one_lt_two_pow (by omega)),
    Nat.and_one_is_mod]

/-- Without the sign the word is halved. -/
theorem unzigzag_even (hw : 1 < w) (h : e.toNat % 2 = 0) : (unzigzag e).toNat = e.toNat / 2 := by
  have hbit : e &&& 1#w = 0#w := by
    apply BitVec.eq_of_toNat_eq
    rw [toNat_and_one hw, h]
    simp
  rw [unzigzag, hbit, BitVec.neg_zero, BitVec.xor_zero, BitVec.toNat_ushiftRight,
    Nat.shiftRight_eq_div_pow, pow_one]

/-- With the sign the word is halved and all its bits are inverted. -/
theorem unzigzag_odd (hw : 1 < w) (h : e.toNat % 2 = 1) :
    (unzigzag e).toNat = 2 ^ w - 1 - e.toNat / 2 := by
  have hbit : e &&& 1#w = 1#w := by
    apply BitVec.eq_of_toNat_eq
    rw [toNat_and_one hw, h, BitVec.toNat_ofNat, Nat.mod_eq_of_lt (Nat.one_lt_two_pow (by omega))]
  rw [unzigzag, hbit, BitVec.neg_one_eq_allOnes, BitVec.xor_allOnes, BitVec.toNat_not,
    BitVec.toNat_ushiftRight, Nat.shiftRight_eq_div_pow, pow_one]

/-- Moving the sign into the lowest bit loses nothing, not even for the least word. -/
theorem unzigzag_zigzag (hw : 1 < w) (x : BitVec w) : unzigzag (zigzag x) = x := by
  obtain ⟨v, rfl⟩ : ∃ v, w = v + 1 := ⟨w - 1, by omega⟩
  have hpow : 2 ^ (v + 1) = 2 * 2 ^ v := Nat.pow_succ'
  have hbig : 2 ≤ 2 ^ v := Nat.le_self_pow (by omega) 2
  have hlt : x.toNat < 2 ^ (v + 1) := x.isLt
  have htwo : 2 % 2 ^ (v + 1) = 2 := Nat.mod_eq_of_lt (by omega)
  have hone : 1 % 2 ^ (v + 1) = 1 := Nat.mod_eq_of_lt (by omega)
  have hsign : x.toInt < 0 ↔ 2 ^ v ≤ x.toNat := by
    rw [BitVec.toInt_neg_iff]
    omega
  apply BitVec.eq_of_toNat_eq
  unfold zigzag
  split
  · rename_i hneg
    have hx : 2 ^ v ≤ x.toNat := hsign.mp hneg
    have hmul : (-x * 2#(v + 1)).toNat = (2 ^ (v + 1) - x.toNat) * 2 % 2 ^ (v + 1) := by
      rw [BitVec.toNat_mul, BitVec.toNat_neg, BitVec.toNat_ofNat, htwo,
        Nat.mod_eq_of_lt (by omega : 2 ^ (v + 1) - x.toNat < 2 ^ (v + 1))]
    have hval : (-x * 2#(v + 1) - 1#(v + 1)).toNat = 2 * (2 ^ (v + 1) - x.toNat) - 1 := by
      rw [BitVec.toNat_sub, hmul, BitVec.toNat_ofNat, hone]
      rcases Nat.eq_or_lt_of_le hx with hmin | hmore
      · rw [show (2 ^ (v + 1) - x.toNat) * 2 = 2 ^ (v + 1) by omega, Nat.mod_self,
          Nat.mod_eq_of_lt (by omega)]
        omega
      · rw [Nat.mod_eq_of_lt (by omega : (2 ^ (v + 1) - x.toNat) * 2 < 2 ^ (v + 1)),
          Nat.mod_eq_sub_mod (by omega), Nat.mod_eq_of_lt (by omega)]
        omega
    rw [unzigzag_odd hw (by omega), hval]
    omega
  · rename_i hneg
    have hx : x.toNat < 2 ^ v := by
      have := mt hsign.mpr hneg
      omega
    have hval : (x * 2#(v + 1)).toNat = x.toNat * 2 := by
      rw [BitVec.toNat_mul, BitVec.toNat_ofNat, htwo, Nat.mod_eq_of_lt (by omega)]
    rw [unzigzag_even hw (by omega), hval]
    omega

end Zigzag

end WireFormat
