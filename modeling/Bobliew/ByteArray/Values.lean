import Bobliew.ByteArray.Cursor
import Bobliew.Lib.WireFormat

/-!
# Typed values in a byte array

The writers and readers of integers and floating-point numbers. A fixed-width integer is swapped when
the byte order of the array, which is always big-endian, is not the one of the machine, and its memory
is copied. A variable-length integer is written in groups of seven bits, a signed one after its sign
has been moved into the lowest bit. Floating-point numbers are their bit patterns.

Each writer appends the bytes of its value and the matching reader takes exactly these bytes and
restores the value, so a list of values of any kinds is read back in the order it was written.
-/

namespace Bobliew

namespace ByteArray

open WireFormat

/-- The two byte orders. -/
inductive Endian where
  | little
  | big
  deriving DecidableEq

/-- `m_endian`: set to big-endian by the constructor and changed by no function. -/
def endian : Endian := .big

/-- `BOBLIEW_BYTE_ORDER`. -/
def byteOrder : Endian := .little

/-- `byteswap` of an integer of `n` bytes. -/
def byteswap (n value : ℕ) : ℕ := ofLittleEndian (littleEndian n value).reverse

section Writers

variable (fresh : ByteArray → ℕ → ℕ → UInt8)

/-- The writers of integers of `n` bytes: swap if needed and copy the memory of the integer. -/
def writeFixed (n value : ℕ) : Action Unit :=
  put fresh (littleEndian n (if endian ≠ byteOrder then byteswap n value else value))

/-- `writeFint8`. -/
def writeFint8 (value : Int8) : Action Unit := put fresh (littleEndian 1 value.toUInt8.toNat)

/-- `writeFuint8`. -/
def writeFuint8 (value : UInt8) : Action Unit := put fresh (littleEndian 1 value.toNat)

/-- `writeFint16`. -/
def writeFint16 (value : Int16) : Action Unit := writeFixed fresh 2 value.toUInt16.toNat

/-- `writeFuint16`. -/
def writeFuint16 (value : UInt16) : Action Unit := writeFixed fresh 2 value.toNat

/-- `writeFint32`. -/
def writeFint32 (value : Int32) : Action Unit := writeFixed fresh 4 value.toUInt32.toNat

/-- `writeFuint32`. -/
def writeFuint32 (value : UInt32) : Action Unit := writeFixed fresh 4 value.toNat

/-- `writeFint64`. -/
def writeFint64 (value : Int64) : Action Unit := writeFixed fresh 8 value.toUInt64.toNat

/-- `writeFuint64`. -/
def writeFuint64 (value : UInt64) : Action Unit := writeFixed fresh 8 value.toNat

/-- `EncodeZigzag32`. -/
def encodeZigzag32 (v : Int32) : UInt32 := if v < 0 then (-v).toUInt32 * 2 - 1 else (v * 2).toUInt32

/-- `EncodeZigzag64`. -/
def encodeZigzag64 (v : Int64) : UInt64 := if v < 0 then (-v).toUInt64 * 2 - 1 else (v * 2).toUInt64

/-- `writeUint32`, with its array of five bytes. -/
def writeUint32 (value : UInt32) : Action Unit := put fresh (varint 5 value.toNat)

/-- `writeInt32`. -/
def writeInt32 (value : Int32) : Action Unit := writeUint32 fresh (encodeZigzag32 value)

/-- `writeUint64`, with its array of ten bytes. -/
def writeUint64 (value : UInt64) : Action Unit := put fresh (varint 10 value.toNat)

/-- `writeInt64`. -/
def writeInt64 (value : Int64) : Action Unit := writeUint64 fresh (encodeZigzag64 value)

/-- `writeFloat`, of the bit pattern. -/
def writeFloat (value : UInt32) : Action Unit := writeFuint32 fresh value

/-- `writeDouble`, of the bit pattern. -/
def writeDouble (value : UInt64) : Action Unit := writeFuint64 fresh value

end Writers

/-- The readers of integers of `n` bytes: the macro `XX`. -/
def readFixed (n : ℕ) : Action ℕ := do
  let memory ← get n
  let v := ofLittleEndian memory
  return if endian = byteOrder then v else byteswap n v

/-- `readFint8`. -/
def readFint8 : Action Int8 := (fun memory => (UInt8.ofNat (ofLittleEndian memory)).toInt8) <$> get 1

/-- `readFuint8`. -/
def readFuint8 : Action UInt8 := (fun memory => UInt8.ofNat (ofLittleEndian memory)) <$> get 1

/-- `readFint16`. -/
def readFint16 : Action Int16 := (fun v => (UInt16.ofNat v).toInt16) <$> readFixed 2

/-- `readFuint16`. -/
def readFuint16 : Action UInt16 := UInt16.ofNat <$> readFixed 2

/-- `readFint32`. -/
def readFint32 : Action Int32 := (fun v => (UInt32.ofNat v).toInt32) <$> readFixed 4

/-- `readFuint32`. -/
def readFuint32 : Action UInt32 := UInt32.ofNat <$> readFixed 4

/-- `readFint64`. -/
def readFint64 : Action Int64 := (fun v => (UInt64.ofNat v).toInt64) <$> readFixed 8

/-- `readFuint64`. -/
def readFuint64 : Action UInt64 := UInt64.ofNat <$> readFixed 8

/-- `DecodeZigzag32`. -/
def decodeZigzag32 (v : UInt32) : Int32 := ((v >>> 1) ^^^ (-(v &&& 1))).toInt32

/-- `DecodeZigzag64`. -/
def decodeZigzag64 (v : UInt64) : Int64 := ((v >>> 1) ^^^ (-(v &&& 1))).toInt64

/-- The loop of `readUint32` and `readUint64` for a result of `w` bits, with the iterations left. -/
def readVarint (w : ℕ) : ℕ → ℕ → ℕ → Action ℕ
  | 0, _, result => return result
  | iterations + 1, i, result => do
    let byte ← readFuint8
    if byte < 0x80 then
      return withBits w i result byte.toNat
    else
      readVarint w iterations (i + 7) (withBits w i result (byte &&& 0x7F).toNat)

/-- `readUint32`: the loop runs for `i = 0, 7, …, 28`. -/
def readUint32 : Action UInt32 := UInt32.ofNat <$> readVarint 32 5 0 0

/-- `readInt32`. -/
def readInt32 : Action Int32 := decodeZigzag32 <$> readUint32

/-- `readUint64`: the loop runs for `i = 0, 7, …, 63`. -/
def readUint64 : Action UInt64 := UInt64.ofNat <$> readVarint 64 10 0 0

/-- `readInt64`. -/
def readInt64 : Action Int64 := decodeZigzag64 <$> readUint64

/-- `readFloat`, as a bit pattern. -/
def readFloat : Action UInt32 := readFuint32

/-- `readDouble`, as a bit pattern. -/
def readDouble : Action UInt64 := readFuint64

/-- The kinds of typed values. -/
inductive Kind where
  | fint8
  | fuint8
  | fint16
  | fuint16
  | fint32
  | fuint32
  | fint64
  | fuint64
  | int32
  | uint32
  | int64
  | uint64
  | float
  | double

/-- The values of a kind. -/
abbrev Kind.Carrier : Kind → Type
  | .fint8 => Int8
  | .fuint8 => UInt8
  | .fint16 => Int16
  | .fuint16 => UInt16
  | .fint32 => Int32
  | .fuint32 => UInt32
  | .fint64 => Int64
  | .fuint64 => UInt64
  | .int32 => Int32
  | .uint32 => UInt32
  | .int64 => Int64
  | .uint64 => UInt64
  | .float => UInt32
  | .double => UInt64

/-- The writer of a kind. -/
def Kind.writer (fresh : ByteArray → ℕ → ℕ → UInt8) : (kind : Kind) → kind.Carrier → Action Unit
  | .fint8 => writeFint8 fresh
  | .fuint8 => writeFuint8 fresh
  | .fint16 => writeFint16 fresh
  | .fuint16 => writeFuint16 fresh
  | .fint32 => writeFint32 fresh
  | .fuint32 => writeFuint32 fresh
  | .fint64 => writeFint64 fresh
  | .fuint64 => writeFuint64 fresh
  | .int32 => writeInt32 fresh
  | .uint32 => writeUint32 fresh
  | .int64 => writeInt64 fresh
  | .uint64 => writeUint64 fresh
  | .float => writeFloat fresh
  | .double => writeDouble fresh

/-- The reader that matches the writer of a kind. -/
def Kind.reader : (kind : Kind) → Action kind.Carrier
  | .fint8 => readFint8
  | .fuint8 => readFuint8
  | .fint16 => readFint16
  | .fuint16 => readFuint16
  | .fint32 => readFint32
  | .fuint32 => readFuint32
  | .fint64 => readFint64
  | .fuint64 => readFuint64
  | .int32 => readInt32
  | .uint32 => readUint32
  | .int64 => readInt64
  | .uint64 => readUint64
  | .float => readFloat
  | .double => readDouble

/-- A value together with its kind. -/
abbrev Value : Type := (kind : Kind) × kind.Carrier

/-- Write the values of a list in turn. -/
def writeValues (fresh : ByteArray → ℕ → ℕ → UInt8) : List Value → Action Unit
  | [] => return ()
  | value :: values => do
    value.1.writer fresh value.2
    writeValues fresh values

/-- Read values of the given kinds in turn. -/
def readValues : List Kind → Action (List Value)
  | [] => return []
  | kind :: kinds => do
    let value ← kind.reader
    let values ← readValues kinds
    return ⟨kind, value⟩ :: values

variable {b n : ℕ}

/-- The memory of a swapped integer is the memory of the integer backwards. -/
theorem littleEndian_byteswap (n v : ℕ) : littleEndian n (byteswap n v) = (littleEndian n v).reverse := by
  have h := littleEndian_ofLittleEndian (littleEndian n v).reverse
  rwa [List.length_reverse, length_littleEndian] at h

/-- Swapping twice restores an integer that fits. -/
theorem byteswap_ofLittleEndian_reverse {v : ℕ} (hv : v < 256 ^ n) :
    byteswap n (ofLittleEndian (littleEndian n v).reverse) = v := by
  rw [byteswap, show ofLittleEndian (littleEndian n v).reverse = byteswap n v from rfl,
    littleEndian_byteswap, List.reverse_reverse, ofLittleEndian_littleEndian, Nat.mod_eq_of_lt hv]

/-- Fixed-width integers are written with the most significant byte first. -/
theorem writes_fixed (hb : 1 ≤ b) (fresh : ByteArray → ℕ → ℕ → UInt8) (n v : ℕ) :
    Writes b (writeFixed fresh n v) () (littleEndian n v).reverse := by
  change Writes b (put fresh (littleEndian n (byteswap n v))) () _
  rw [littleEndian_byteswap]
  exact Writes.put hb fresh _

/-- The memory of one byte. -/
theorem littleEndian_one (byte : UInt8) : littleEndian 1 byte.toNat = [byte] := by
  simp [littleEndian]

/-- Reading the memory of `n` bytes. -/
theorem reads_memory (hb : 1 ≤ b) (hn : 1 ≤ n) {bytes : List UInt8} (hlength : bytes.length = n) :
    Reads b (get n) bytes bytes := by
  subst hlength
  exact Reads.get hb (List.length_pos_iff.mp hn)

/-- The readers of fixed-width integers restore an integer that fits. -/
theorem reads_fixed (hb : 1 ≤ b) (hn : 1 ≤ n) {v : ℕ} (hv : v < 256 ^ n) :
    Reads b (readFixed n) v (littleEndian n v).reverse := by
  refine (reads_memory hb hn (by simp)).map ?_
  change byteswap n (ofLittleEndian (littleEndian n v).reverse) = v
  exact byteswap_ofLittleEndian_reverse hv

/-- Reading one byte. -/
theorem reads_byte (hb : 1 ≤ b) (byte : UInt8) : Reads b readFuint8 byte [byte] := by
  refine (reads_memory hb (Nat.le_refl 1) rfl).map ?_
  simp [ofLittleEndian]

/-- The reading loop collects the bits of an integer that the writing loop has left. -/
theorem reads_varint (hb : 1 ≤ b) {w value : ℕ} (hvalue : value < 2 ^ w) (iterations i : ℕ)
    (hleft : value / 2 ^ i < 2 ^ (7 * iterations)) :
    Reads b (readVarint w iterations i (value % 2 ^ i)) value (varint iterations (value / 2 ^ i)) := by
  induction iterations generalizing i with
  | zero =>
    have hsmall : value < 2 ^ i := by
      rw [Nat.mul_zero, pow_zero] at hleft
      exact (Nat.div_eq_zero_iff_lt (Nat.two_pow_pos i)).mp (Nat.lt_one_iff.mp hleft)
    rw [Nat.mod_eq_of_lt hsmall]
    exact Reads.pure value
  | succ iterations ih =>
    have hshift : value / 2 ^ i / 128 = value / 2 ^ (i + 7) := by
      rw [Nat.div_div_eq_div_mul, pow_add]
      rfl
    unfold readVarint varint
    by_cases hmore : value / 2 ^ i ≥ 0x80
    · have hbyte := toNat_marked (value / 2 ^ i)
      generalize UInt8.ofNat (((value / 2 ^ i) &&& 0x7F) ||| 0x80) = byte at hbyte
      have hmarked : ¬ byte < 0x80 := by
        rw [UInt8.lt_iff_toNat_lt]
        change ¬ byte.toNat < 128
        omega
      have hlow : (byte &&& 0x7F).toNat = value / 2 ^ i % 128 := by
        rw [UInt8.toNat_and]
        change byte.toNat &&& 0x7F = _
        rw [and_low]
        omega
      have hnext : value / 2 ^ (i + 7) < 2 ^ (7 * iterations) := by
        rw [← hshift]
        rw [Nat.mul_add, pow_add] at hleft
        omega
      rw [if_pos hmore, Nat.shiftRight_eq_div_pow, show 2 ^ 7 = 128 from rfl, hshift]
      apply (reads_byte hb byte).bind
      rw [if_neg hmarked, withBits_mod hvalue _ hlow]
      exact ih (i + 7) hnext
    · have hbyte : (UInt8.ofNat (value / 2 ^ i)).toNat = value / 2 ^ i := by
        rw [UInt8.toNat_ofNat', Nat.mod_eq_of_lt (by omega)]
      have hlast : UInt8.ofNat (value / 2 ^ i) < 0x80 := by
        rw [UInt8.lt_iff_toNat_lt, hbyte]
        change value / 2 ^ i < 128
        omega
      have hall : value % 2 ^ (i + 7) = value := by
        apply Nat.mod_eq_of_lt
        rw [pow_add]
        exact (Nat.div_lt_iff_lt_mul (Nat.two_pow_pos i)).mp (by omega) |>.trans_eq (Nat.mul_comm _ _)
      rw [if_neg hmore]
      apply (reads_byte hb _).bind
      rw [if_pos hlast, withBits_mod hvalue _ (by rw [hbyte, Nat.mod_eq_of_lt (by omega)]), hall]
      exact Reads.pure value

/-- `readUint32` takes what `writeUint32` writes. -/
theorem reads_uint32 (hb : 1 ≤ b) (v : UInt32) : Reads b readUint32 v (varint 5 v.toNat) := by
  have hv : v.toNat < 2 ^ 32 := v.toNat_lt
  have h := reads_varint hb hv 5 0 (by rw [pow_zero, Nat.div_one]; omega)
  rw [pow_zero, Nat.div_one, Nat.mod_one] at h
  exact h.map UInt32.ofNat_toNat

/-- `readUint64` takes what `writeUint64` writes. -/
theorem reads_uint64 (hb : 1 ≤ b) (v : UInt64) : Reads b readUint64 v (varint 10 v.toNat) := by
  have hv : v.toNat < 2 ^ 64 := v.toNat_lt
  have h := reads_varint hb hv 10 0 (by rw [pow_zero, Nat.div_one]; omega)
  rw [pow_zero, Nat.div_one, Nat.mod_one] at h
  exact h.map UInt64.ofNat_toNat

/-- `DecodeZigzag32` inverts `EncodeZigzag32`. -/
theorem decodeZigzag32_encodeZigzag32 (v : Int32) : decodeZigzag32 (encodeZigzag32 v) = v := by
  have hdec : ∀ u : UInt32, (decodeZigzag32 u).toBitVec = unzigzag u.toBitVec := by
    intro u
    simp [decodeZigzag32, unzigzag]
  have hneg : v < 0 ↔ v.toBitVec.toInt < 0 := by
    rw [Int32.lt_iff_toInt_lt]
    rfl
  have henc : (encodeZigzag32 v).toBitVec = zigzag v.toBitVec := by
    unfold encodeZigzag32 zigzag
    simp only [hneg]
    split <;> simp
  apply Int32.toBitVec_inj.1
  rw [hdec, henc]
  exact unzigzag_zigzag (by decide) _

/-- `DecodeZigzag64` inverts `EncodeZigzag64`. -/
theorem decodeZigzag64_encodeZigzag64 (v : Int64) : decodeZigzag64 (encodeZigzag64 v) = v := by
  have hdec : ∀ u : UInt64, (decodeZigzag64 u).toBitVec = unzigzag u.toBitVec := by
    intro u
    simp [decodeZigzag64, unzigzag]
  have hneg : v < 0 ↔ v.toBitVec.toInt < 0 := by
    rw [Int64.lt_iff_toInt_lt]
    rfl
  have henc : (encodeZigzag64 v).toBitVec = zigzag v.toBitVec := by
    unfold encodeZigzag64 zigzag
    simp only [hneg]
    split <;> simp
  apply Int64.toBitVec_inj.1
  rw [hdec, henc]
  exact unzigzag_zigzag (by decide) _

/-- For every kind of value there are bytes that its writer appends and its reader takes. -/
theorem Kind.exists_bytes (hb : 1 ≤ b) (fresh : ByteArray → ℕ → ℕ → UInt8) (kind : Kind)
    (v : kind.Carrier) : ∃ bytes, Writes b (kind.writer fresh v) () bytes ∧ Reads b kind.reader v bytes := by
  cases kind with
  | fint8 =>
    refine ⟨_, Writes.put hb fresh _, (reads_memory hb (Nat.le_refl 1) (by simp)).map ?_⟩
    rw [littleEndian_one]
    change (UInt8.ofNat (ofLittleEndian [Int8.toUInt8 v])).toInt8 = v
    simp [ofLittleEndian]
  | fuint8 =>
    refine ⟨_, Writes.put hb fresh _, ?_⟩
    rw [littleEndian_one]
    exact reads_byte hb v
  | fint16 =>
    refine ⟨_, writes_fixed hb fresh 2 _, (reads_fixed hb (by decide) (Int16.toUInt16 v).toNat_lt).map ?_⟩
    change (UInt16.ofNat (Int16.toUInt16 v).toNat).toInt16 = v
    simp
  | fuint16 =>
    exact ⟨_, writes_fixed hb fresh 2 _,
      (reads_fixed hb (by decide) (UInt16.toNat_lt v)).map UInt16.ofNat_toNat⟩
  | fint32 =>
    refine ⟨_, writes_fixed hb fresh 4 _, (reads_fixed hb (by decide) (Int32.toUInt32 v).toNat_lt).map ?_⟩
    change (UInt32.ofNat (Int32.toUInt32 v).toNat).toInt32 = v
    simp
  | fuint32 =>
    exact ⟨_, writes_fixed hb fresh 4 _,
      (reads_fixed hb (by decide) (UInt32.toNat_lt v)).map UInt32.ofNat_toNat⟩
  | fint64 =>
    refine ⟨_, writes_fixed hb fresh 8 _, (reads_fixed hb (by decide) (Int64.toUInt64 v).toNat_lt).map ?_⟩
    change (UInt64.ofNat (Int64.toUInt64 v).toNat).toInt64 = v
    simp
  | fuint64 =>
    exact ⟨_, writes_fixed hb fresh 8 _,
      (reads_fixed hb (by decide) (UInt64.toNat_lt v)).map UInt64.ofNat_toNat⟩
  | int32 =>
    exact ⟨_, Writes.put hb fresh _, (reads_uint32 hb _).map (decodeZigzag32_encodeZigzag32 v)⟩
  | uint32 => exact ⟨_, Writes.put hb fresh _, reads_uint32 hb v⟩
  | int64 =>
    exact ⟨_, Writes.put hb fresh _, (reads_uint64 hb _).map (decodeZigzag64_encodeZigzag64 v)⟩
  | uint64 => exact ⟨_, Writes.put hb fresh _, reads_uint64 hb v⟩
  | float =>
    exact ⟨_, writes_fixed hb fresh 4 _,
      (reads_fixed hb (by decide) (UInt32.toNat_lt v)).map UInt32.ofNat_toNat⟩
  | double =>
    exact ⟨_, writes_fixed hb fresh 8 _,
      (reads_fixed hb (by decide) (UInt64.toNat_lt v)).map UInt64.ofNat_toNat⟩

/-- For every list of values there are bytes that the writers append and the readers take. -/
theorem exists_bytes_values (hb : 1 ≤ b) (fresh : ByteArray → ℕ → ℕ → UInt8) (values : List Value) :
    ∃ bytes, Writes b (writeValues fresh values) () bytes ∧
      Reads b (readValues (values.map Sigma.fst)) values bytes := by
  induction values with
  | nil => exact ⟨[], Writes.pure (), Reads.pure []⟩
  | cons value values ih =>
    obtain ⟨bytes, hwrites, hreads⟩ := value.1.exists_bytes hb fresh value.2
    obtain ⟨bytes', hwrites', hreads'⟩ := ih
    have hlast : Reads b (pure (value :: values) : Action (List Value)) (value :: values) [] := Reads.pure _
    have hrest := hreads'.bind (f := fun vs => pure (⟨value.1, value.2⟩ :: vs)) hlast
    rw [List.append_nil] at hrest
    exact ⟨bytes ++ bytes', hwrites.bind hwrites', hreads.bind hrest⟩

/-- Typed values written to a new array are read back: after `setPosition(0)` the matching readers, in
the same order, return exactly the values written, and no byte is left. -/
theorem values_round_trip (hb : 1 ≤ b) (content : ℕ → UInt8) (fresh : ByteArray → ℕ → ℕ → UInt8)
    (values : List Value) :
    ∃ a₁ a₂ a₃, (writeValues fresh values).Returns (new b content) () a₁ ∧ (seek 0).Returns a₁ () a₂ ∧
      (readValues (values.map Sigma.fst)).Returns a₂ values a₃ ∧ a₃.getReadSize = 0 := by
  obtain ⟨bytes, hwrites, hreads⟩ := exists_bytes_values hb fresh values
  obtain ⟨a₁, hret₁, hend⟩ := hwrites _ _ (AtEnd.new hb content)
  obtain ⟨a₂, hret₂, hstart⟩ := hend.seek hb
  rw [List.nil_append, ← List.append_nil bytes] at hstart
  obtain ⟨a₃, hret₃, hdone⟩ := hreads _ a₂ [] hstart
  exact ⟨a₁, a₂, a₃, hret₁, hret₂, hret₃, hdone.getReadSize⟩

/-- The least 32-bit integer and a large 64-bit one through nodes of one byte. -/
theorem values_round_trip_oneByteNodes :
    ∃ a₁ a₂ a₃,
      (writeValues (fun _ _ _ => 0) [⟨.int32, (-2147483648 : Int32)⟩, ⟨.fuint64, (300 : UInt64)⟩]).Returns
        (new 1 fun _ => 0) () a₁ ∧
      (seek 0).Returns a₁ () a₂ ∧
      (readValues [.int32, .fuint64]).Returns a₂ [⟨.int32, (-2147483648 : Int32)⟩, ⟨.fuint64, (300 : UInt64)⟩]
        a₃ ∧ a₃.getReadSize = 0 :=
  values_round_trip (by decide) _ _ [⟨.int32, (-2147483648 : Int32)⟩, ⟨.fuint64, (300 : UInt64)⟩]

end ByteArray

end Bobliew
