import Bobliew.ByteArray.Values

/-!
# Choosing the byte order

`setIsLittleEndian` has an empty body, so the byte order of an array stays what the constructor has set it to.
Fixed-width values are written with the most significant byte first and read back the same way, whatever has
been asked for. That is what was asked for as long as nobody asks for little-endian.
-/

namespace Bobliew

namespace ByteArray

open WireFormat

/-- `setIsLittleEndian`. -/
def setIsLittleEndian (_val : Bool) : Action Unit := return ()

/-- `isLittleEndian`. -/
def isLittleEndian : Action Bool := return decide (endian = .little)

/-- The number of bytes of the fixed-width kinds with more than one. -/
def Kind.width : Kind → Option ℕ
  | .fint16 => some 2
  | .fuint16 => some 2
  | .fint32 => some 4
  | .fuint32 => some 4
  | .fint64 => some 8
  | .fuint64 => some 8
  | .float => some 4
  | .double => some 8
  | _ => none

/-- The bits of a value, as a number. -/
def Kind.bits : (kind : Kind) → kind.Carrier → ℕ
  | .fint8, v => (Int8.toUInt8 v).toNat
  | .fuint8, v => UInt8.toNat v
  | .fint16, v => (Int16.toUInt16 v).toNat
  | .fuint16, v => UInt16.toNat v
  | .fint32, v => (Int32.toUInt32 v).toNat
  | .fuint32, v => UInt32.toNat v
  | .fint64, v => (Int64.toUInt64 v).toNat
  | .fuint64, v => UInt64.toNat v
  | .int32, v => (Int32.toUInt32 v).toNat
  | .uint32, v => UInt32.toNat v
  | .int64, v => (Int64.toUInt64 v).toNat
  | .uint64, v => UInt64.toNat v
  | .float, v => UInt32.toNat v
  | .double, v => UInt64.toNat v

/-- A value of 16, 32 or 64 bits. -/
structure FixedValue where
  value : Value
  width : ℕ
  fixed : value.1.width = some width

/-- The bytes of a value, from the least significant one on or the other way. -/
def FixedValue.encoding (v : FixedValue) (little : Bool) : List UInt8 :=
  if little then littleEndian v.width (v.value.1.bits v.value.2)
  else (littleEndian v.width (v.value.1.bits v.value.2)).reverse

/-- A call of `setIsLittleEndian` or of a fixed-width writer. -/
inductive EndianCall where
  | setIsLittleEndian (val : Bool)
  | write (value : FixedValue)

namespace EndianCall

/-- The byte order that has been asked for after a call. -/
def asked (little : Bool) : EndianCall → Bool
  | .setIsLittleEndian val => val
  | .write _ => little

/-- Perform the calls, with what `isLittleEndian` reports before each of them and after the last. -/
def perform (fresh : ByteArray → ℕ → ℕ → UInt8) : List EndianCall → Action (List Bool)
  | [] => do
    let reported ← isLittleEndian
    return [reported]
  | .setIsLittleEndian val :: calls => do
    let reported ← isLittleEndian
    ByteArray.setIsLittleEndian val
    let more ← perform fresh calls
    return reported :: more
  | .write v :: calls => do
    let reported ← isLittleEndian
    v.value.1.writer fresh v.value.2
    let more ← perform fresh calls
    return reported :: more

/-- Read the values back, under the same settings. -/
def readBack : List EndianCall → Action (List Value)
  | [] => return []
  | .setIsLittleEndian val :: calls => do
    ByteArray.setIsLittleEndian val
    readBack calls
  | .write v :: calls => do
    let value ← v.value.1.reader
    let values ← readBack calls
    return ⟨v.value.1, value⟩ :: values

/-- The reports that the settings ask for. -/
def reports : Bool → List EndianCall → List Bool
  | little, [] => [little]
  | little, call :: calls => little :: reports (call.asked little) calls

/-- The bytes that the settings ask for. -/
def bytes : Bool → List EndianCall → List UInt8
  | _, [] => []
  | _, .setIsLittleEndian val :: calls => bytes val calls
  | little, .write v :: calls => v.encoding little ++ bytes little calls

/-- The values that are written. -/
def values : List EndianCall → List Value
  | [] => []
  | .setIsLittleEndian _ :: calls => values calls
  | .write v :: calls => v.value :: values calls

/-- On a new array the calls report and store what the settings ask for, and the values are read back. -/
def Followed (b : ℕ) (content : ℕ → UInt8) (fresh : ByteArray → ℕ → ℕ → UInt8) (calls : List EndianCall) : Prop :=
  ∃ a₁ a₂ a₃, (perform fresh calls).Returns (new b content) (reports false calls) a₁ ∧
    a₁.contents = bytes false calls ∧ (seek 0).Returns a₁ () a₂ ∧ (readBack calls).Returns a₂ (values calls) a₃

end EndianCall

variable {b : ℕ}

/-- What an operation appends is determined. -/
theorem Writes.unique {A : Type} {m : Action A} {x y : A} {bytes bytes' : List UInt8} (hb : 1 ≤ b)
    (h : Writes b m x bytes) (h' : Writes b m y bytes') : bytes = bytes' := by
  obtain ⟨a, hret, hend⟩ := h _ _ (AtEnd.new hb fun _ => 0)
  obtain ⟨a', hret', hend'⟩ := h' _ _ (AtEnd.new hb fun _ => 0)
  obtain ⟨_, rfl⟩ := hret.unique hret'
  exact hend.contents.symm.trans hend'.contents

/-- A fixed-width value is written with the most significant byte first, and read back from these bytes. -/
theorem FixedValue.writes_reads (hb : 1 ≤ b) (fresh : ByteArray → ℕ → ℕ → UInt8) (v : FixedValue) :
    Writes b (v.value.1.writer fresh v.value.2) () (v.encoding false) ∧
      Reads b v.value.1.reader v.value.2 (v.encoding false) := by
  have hwrites : Writes b (v.value.1.writer fresh v.value.2) () (v.encoding false) := by
    obtain ⟨⟨kind, value⟩, width, hwidth⟩ := v
    cases kind with
    | fint16 =>
      cases hwidth
      exact writes_fixed hb fresh 2 _
    | fuint16 =>
      cases hwidth
      exact writes_fixed hb fresh 2 _
    | fint32 =>
      cases hwidth
      exact writes_fixed hb fresh 4 _
    | fuint32 =>
      cases hwidth
      exact writes_fixed hb fresh 4 _
    | fint64 =>
      cases hwidth
      exact writes_fixed hb fresh 8 _
    | fuint64 =>
      cases hwidth
      exact writes_fixed hb fresh 8 _
    | float =>
      cases hwidth
      exact writes_fixed hb fresh 4 _
    | double =>
      cases hwidth
      exact writes_fixed hb fresh 8 _
    | _ => cases hwidth
  obtain ⟨bytes, hwrites', hreads⟩ := v.value.1.exists_bytes hb fresh v.value.2
  exact ⟨hwrites, hwrites.unique hb hwrites' ▸ hreads⟩

namespace EndianCall

/-- The bytes that are appended whatever the settings ask for. -/
def bigEndianBytes : List EndianCall → List UInt8
  | [] => []
  | .setIsLittleEndian _ :: calls => bigEndianBytes calls
  | .write v :: calls => v.encoding false ++ bigEndianBytes calls

/-- The calls append big-endian bytes, and big-endian is reported all the time. -/
theorem writes_perform (hb : 1 ≤ b) (fresh : ByteArray → ℕ → ℕ → UInt8) (calls : List EndianCall) :
    Writes b (perform fresh calls) (List.replicate (calls.length + 1) false) (bigEndianBytes calls) := by
  have hreport : Writes b isLittleEndian false [] := Writes.pure false
  induction calls with
  | nil => exact hreport.bind (Writes.pure [false])
  | cons call calls ih =>
    have hmore := ih.returning (false :: ·)
    cases call with
    | setIsLittleEndian val =>
      have hset : Writes b (ByteArray.setIsLittleEndian val) () [] := Writes.pure ()
      exact hreport.bind (hset.bind hmore)
    | write v => exact hreport.bind ((v.writes_reads hb fresh).1.bind hmore)

/-- The values are read back from big-endian bytes. -/
theorem reads_readBack (hb : 1 ≤ b) (fresh : ByteArray → ℕ → ℕ → UInt8) (calls : List EndianCall) :
    Reads b (readBack calls) (values calls) (bigEndianBytes calls) := by
  induction calls with
  | nil => exact Reads.pure []
  | cons call calls ih =>
    cases call with
    | setIsLittleEndian val =>
      have hset : Reads b (ByteArray.setIsLittleEndian val) () [] := Reads.pure ()
      exact hset.bind ih
    | write v =>
      have hlast : Reads b (pure (v.value :: values calls) : Action (List Value)) (v.value :: values calls) [] :=
        Reads.pure _
      have hrest := ih.bind (f := fun vs => pure (⟨v.value.1, v.value.2⟩ :: vs)) hlast
      rw [List.append_nil] at hrest
      exact (v.writes_reads hb fresh).2.bind hrest

/-- Big-endian is reported all the time exactly if little-endian is never asked for. -/
theorem reports_eq_iff (little : Bool) (calls : List EndianCall) :
    reports little calls = List.replicate (calls.length + 1) false ↔
      little = false ∧ ∀ val, .setIsLittleEndian val ∈ calls → val = false := by
  induction calls generalizing little with
  | nil => simp [reports]
  | cons call calls ih =>
    rw [reports, List.length_cons, List.replicate_succ, List.cons_eq_cons, ih]
    cases call with
    | setIsLittleEndian val =>
      simp only [asked, List.mem_cons, EndianCall.setIsLittleEndian.injEq]
      refine and_congr_right fun _ => ⟨fun h v hv => ?_, fun h => ⟨h val (.inl rfl), fun v hv => h v (.inr hv)⟩⟩
      rcases hv with rfl | hv
      · exact h.1
      · exact h.2 v hv
    | write v => simp only [asked, List.mem_cons, reduceCtorEq, false_or, and_self_left]

/-- As long as little-endian is not asked for, the bytes asked for are big-endian. -/
theorem bytes_eq {calls : List EndianCall} (h : ∀ val, .setIsLittleEndian val ∈ calls → val = false) :
    bytes false calls = bigEndianBytes calls := by
  induction calls with
  | nil => rfl
  | cons call calls ih =>
    have hrest := ih fun val hval => h val (List.mem_cons_of_mem call hval)
    cases call with
    | setIsLittleEndian val =>
      rw [bytes, bigEndianBytes, h val List.mem_cons_self, hrest]
    | write v => rw [bytes, bigEndianBytes, hrest]

/-- The calls on a new array do what the settings ask for exactly if little-endian is never asked for. -/
theorem followed_iff (hb : 1 ≤ b) (content : ℕ → UInt8) (fresh : ByteArray → ℕ → ℕ → UInt8)
    (calls : List EndianCall) :
    Followed b content fresh calls ↔ ∀ val, .setIsLittleEndian val ∈ calls → val = false := by
  obtain ⟨a, hret, hend⟩ := writes_perform hb fresh calls _ _ (AtEnd.new hb content)
  constructor
  · rintro ⟨a₁, a₂, a₃, hret₁, _⟩
    exact ((reports_eq_iff false calls).mp (hret₁.unique hret).1).2
  · intro h
    obtain ⟨a', hret', hstart⟩ := hend.seek hb
    rw [List.nil_append, ← List.append_nil (bigEndianBytes calls)] at hstart
    obtain ⟨a'', hret'', _⟩ := reads_readBack hb fresh calls _ a' [] hstart
    refine ⟨a, a', a'', ?_, ?_, hret', hret''⟩
    · rwa [(reports_eq_iff false calls).mpr ⟨rfl, h⟩]
    · rw [hend.contents, bytes_eq h, List.nil_append]

/-- A value written after big-endian has been asked for. -/
theorem followed_big : Followed 1 (fun _ => 0) (fun _ _ _ => 0)
    [.setIsLittleEndian false, .write ⟨⟨.fuint16, (258 : UInt16)⟩, 2, rfl⟩] :=
  (followed_iff (Nat.le_refl 1) _ _ _).mpr (by simp)

/-- A value written after little-endian has been asked for. -/
theorem not_followed_little : ¬ Followed 1 (fun _ => 0) (fun _ _ _ => 0)
    [.setIsLittleEndian true, .write ⟨⟨.fuint16, (258 : UInt16)⟩, 2, rfl⟩] := by
  rintro ⟨a₁, a₂, a₃, hret, hbytes, _⟩
  obtain ⟨a, hret', hend⟩ :=
    writes_perform (Nat.le_refl 1) _ _ _ _ (AtEnd.new (Nat.le_refl 1) fun _ => 0)
  obtain ⟨_, rfl⟩ := hret.unique hret'
  rw [hend.contents] at hbytes
  exact absurd hbytes (by decide)

end EndianCall

end ByteArray

end Bobliew
