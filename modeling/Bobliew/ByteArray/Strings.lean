import Bobliew.ByteArray.Values

/-!
# Strings in a byte array

A string is written as its length and its bytes. There are four writers, which differ in the format of
the length, and four readers, all of which read a length of two bytes. Reading therefore succeeds on
the bytes that the writer with a length of two bytes would have produced, and on no others; and even
then reading an empty string fails when it ends at the end of the chain, since copying no bytes looks
into a node that is not there.
-/

namespace Bobliew

namespace ByteArray

open WireFormat

/-- The four formats of a length. -/
inductive LengthFormat where
  | f16
  | f32
  | f64
  | vint
  deriving DecidableEq

section Writers

variable (fresh : ByteArray → ℕ → ℕ → UInt8)

/-- `writeStringF16`: the size is converted to 16 bits. -/
def writeStringF16 (value : List UInt8) : Action Unit := do
  writeFuint16 fresh (UInt16.ofNat value.length)
  put fresh value

/-- `writeStringF32`: the size is converted to 32 bits. -/
def writeStringF32 (value : List UInt8) : Action Unit := do
  writeFuint32 fresh (UInt32.ofNat value.length)
  put fresh value

/-- `writeStringF64`. -/
def writeStringF64 (value : List UInt8) : Action Unit := do
  writeFuint64 fresh (UInt64.ofNat value.length)
  put fresh value

/-- `writeStringVint`. -/
def writeStringVint (value : List UInt8) : Action Unit := do
  writeUint64 fresh (UInt64.ofNat value.length)
  put fresh value

/-- The writer for a format. -/
def LengthFormat.writer : LengthFormat → List UInt8 → Action Unit
  | .f16 => writeStringF16 fresh
  | .f32 => writeStringF32 fresh
  | .f64 => writeStringF64 fresh
  | .vint => writeStringVint fresh

end Writers

/-- The body of the readers: a length and as many bytes. -/
def readString (length : Action ℕ) : Action (List UInt8) := do
  let len ← length
  get len

/-- `readStringF16`. -/
def readStringF16 : Action (List UInt8) := readString (UInt16.toNat <$> readFuint16)

/-- `readStringF32`, which reads its length with `readFuint16`. -/
def readStringF32 : Action (List UInt8) := readString (UInt16.toNat <$> readFuint16)

/-- `readStringF64`, which reads its length with `readFuint16`. -/
def readStringF64 : Action (List UInt8) := readString (UInt16.toNat <$> readFuint16)

/-- `readStringVint`, which reads its length with `readFuint16`. -/
def readStringVint : Action (List UInt8) := readString (UInt16.toNat <$> readFuint16)

/-- The reader for a format. -/
def LengthFormat.reader : LengthFormat → Action (List UInt8)
  | .f16 => readStringF16
  | .f32 => readStringF32
  | .f64 => readStringF64
  | .vint => readStringVint

/-- A string with the format of its length. -/
abbrev Item : Type := LengthFormat × List UInt8

/-- Write the strings of a list in turn. -/
def writeStrings (fresh : ByteArray → ℕ → ℕ → UInt8) : List Item → Action Unit
  | [] => return ()
  | item :: items => do
    item.1.writer fresh item.2
    writeStrings fresh items

/-- Read strings with the given formats in turn. -/
def readStrings : List LengthFormat → Action (List (List UInt8))
  | [] => return []
  | format :: formats => do
    let value ← format.reader
    let values ← readStrings formats
    return value :: values

/-- The sizes a format can hold; a size has 64 bits. -/
def LengthFormat.limit : LengthFormat → ℕ
  | .f16 => 2 ^ 16
  | .f32 => 2 ^ 32
  | .f64 => 2 ^ 64
  | .vint => 2 ^ 64

/-- The bytes of a length in a format. -/
def LengthFormat.header : LengthFormat → ℕ → List UInt8
  | .f16, len => (littleEndian 2 len).reverse
  | .f32, len => (littleEndian 4 len).reverse
  | .f64, len => (littleEndian 8 len).reverse
  | .vint, len => varint 10 len

/-- The bytes of a string with its length. -/
def encoded (item : Item) : List UInt8 := item.1.header item.2.length ++ item.2

/-- The bytes of a string with a length of two bytes. -/
def encodedF16 (value : List UInt8) : List UInt8 := encoded (.f16, value)

variable {b : ℕ} {full : Prop} {a a' : ByteArray} {all rest value : List UInt8}

/-- Each writer appends the length in its format and the string. -/
theorem writes_string (hb : 1 ≤ b) (fresh : ByteArray → ℕ → ℕ → UInt8) {item : Item}
    (hfits : item.2.length < item.1.limit) : Writes b (item.1.writer fresh item.2) () (encoded item) := by
  obtain ⟨format, value⟩ := item
  cases format with
  | f16 =>
    refine Writes.bind (x := ()) ?_ (Writes.put hb fresh value)
    unfold writeFuint16
    rw [UInt16.toNat_ofNat_of_lt' hfits]
    exact writes_fixed hb fresh 2 value.length
  | f32 =>
    refine Writes.bind (x := ()) ?_ (Writes.put hb fresh value)
    unfold writeFuint32
    rw [UInt32.toNat_ofNat_of_lt' hfits]
    exact writes_fixed hb fresh 4 value.length
  | f64 =>
    refine Writes.bind (x := ()) ?_ (Writes.put hb fresh value)
    unfold writeFuint64
    rw [UInt64.toNat_ofNat_of_lt' hfits]
    exact writes_fixed hb fresh 8 value.length
  | vint =>
    refine Writes.bind (x := ()) ?_ (Writes.put hb fresh value)
    unfold writeUint64
    rw [UInt64.toNat_ofNat_of_lt' hfits]
    exact Writes.put hb fresh (varint 10 value.length)

/-- The writers append the strings one after the other. -/
theorem writes_strings (hb : 1 ≤ b) (fresh : ByteArray → ℕ → ℕ → UInt8) {items : List Item}
    (hfits : ∀ item ∈ items, item.2.length < item.1.limit) :
    Writes b (writeStrings fresh items) () (items.flatMap encoded) := by
  induction items with
  | nil => exact Writes.pure ()
  | cons item items ih =>
    have hitem := writes_string hb fresh (hfits item List.mem_cons_self)
    exact hitem.bind (ih fun x hx => hfits x (List.mem_cons_of_mem _ hx))

/-- Two bytes are the length they give. -/
theorem header_f16_ofLittleEndian {bytes : List UInt8} (hlength : bytes.length = 2) :
    LengthFormat.f16.header (ofLittleEndian bytes.reverse) = bytes := by
  have h := littleEndian_ofLittleEndian bytes.reverse
  rw [List.length_reverse, hlength] at h
  rw [LengthFormat.header, h, List.reverse_reverse]

/-- Reading a length takes two bytes, or throws. -/
theorem Unread.readLength (h : Unread b full a all) (hb : 1 ≤ b) {len : ℕ}
    (hret : (UInt16.toNat <$> readFuint16).Returns a len a') :
    len < 2 ^ 16 ∧ ∃ rest, all = LengthFormat.f16.header len ++ rest ∧ Unread b full a' rest := by
  obtain ⟨word, hword, rfl⟩ := Effect.returns_map.mp hret
  obtain ⟨v, hv, rfl⟩ := Effect.returns_map.mp hword
  obtain ⟨memory, t, hget, hpure⟩ := Effect.returns_bind.mp hv
  obtain ⟨hswap, rfl⟩ := Effect.returns_pure.mp hpure
  rcases h.get hb (by decide : 1 ≤ 2) with ⟨_, hthrow⟩ | ⟨hle, a'', hret', h'⟩
  · exact absurd hthrow hget.not_throws
  · obtain ⟨rfl, rfl⟩ := hget.unique hret'
    have htwo : (all.take 2).length = 2 := by
      rw [List.length_take]
      omega
    have hswapped : byteswap 2 (ofLittleEndian (all.take 2)) = v := hswap
    have hv' : ofLittleEndian (all.take 2).reverse = v := by
      rw [← hswapped, byteswap]
      have hback := littleEndian_ofLittleEndian (all.take 2)
      rw [htwo] at hback
      rw [hback]
    have hlt : v < 2 ^ 16 := by
      have hbound := ofLittleEndian_lt (all.take 2).reverse
      rw [List.length_reverse, htwo, hv'] at hbound
      exact hbound
    refine ⟨UInt16.toNat_lt _, all.drop 2, ?_, h'⟩
    rw [UInt16.toNat_ofNat_of_lt' hlt, ← hv', header_f16_ofLittleEndian htwo, List.take_append_drop]

/-- All readers read the format with a length of two bytes. -/
theorem LengthFormat.reader_eq (format : LengthFormat) : format.reader = readStringF16 := by
  cases format <;> rfl

/-- What a reader returns is what was written with a length of two bytes, and it is not an empty string
at the end of a full chain. -/
theorem Unread.of_readString (h : Unread b full a all) (hb : 1 ≤ b)
    (hret : readStringF16.Returns a value a') :
    value.length < 2 ^ 16 ∧ ∃ rest, all = encodedF16 value ++ rest ∧ Unread b full a' rest ∧
      ¬ (value = [] ∧ rest = [] ∧ full) := by
  obtain ⟨len, t, hlen, hget⟩ := Effect.returns_bind.mp hret
  obtain ⟨hlt, rest, rfl, ht⟩ := h.readLength hb hlen
  rcases Nat.eq_zero_or_pos len with rfl | hpos
  · rcases ht.get_zero with ⟨_, _, hthrow⟩ | ⟨hinside, hret'⟩
    · exact absurd hthrow hget.not_throws
    · obtain ⟨rfl, rfl⟩ := hget.unique hret'
      exact ⟨hlt, rest, by simp [encodedF16, encoded], ht, fun hend => hinside hend.2⟩
  · rcases ht.get hb hpos with ⟨_, hthrow⟩ | ⟨hle, a'', hret', h'⟩
    · exact absurd hthrow hget.not_throws
    · obtain ⟨rfl, rfl⟩ := hget.unique hret'
      have hvalue : (rest.take len).length = len := by
        rw [List.length_take]
        omega
      refine ⟨by omega, rest.drop len, ?_, h', ?_⟩
      · rw [encodedF16, encoded, hvalue, List.append_assoc, List.take_append_drop]
      · rintro ⟨hnil, _⟩
        rw [hnil] at hvalue
        exact absurd hvalue (by simpa using hpos.ne)

/-- A string with a length of two bytes is read, unless it is empty and at the end of a full chain. -/
theorem Unread.readString (hb : 1 ≤ b) (h : Unread b full a (encodedF16 value ++ rest))
    (hlt : value.length < 2 ^ 16) (hinside : ¬ (value = [] ∧ rest = [] ∧ full)) :
    ∃ a', readStringF16.Returns a value a' ∧ Unread b full a' rest := by
  have hlength : Reads b readFuint16 (UInt16.ofNat value.length) (LengthFormat.f16.header value.length) :=
    (reads_fixed hb (by decide) hlt).map rfl
  rw [encodedF16, encoded, List.append_assoc] at h
  obtain ⟨t, hret, ht⟩ := (hlength.map (UInt16.toNat_ofNat_of_lt' hlt)) full a _ h
  rcases List.eq_nil_or_concat value with rfl | ⟨_, _, hne⟩
  · rcases ht.get_zero with ⟨hrest, hfull, _⟩ | ⟨_, hret'⟩
    · exact absurd ⟨rfl, hrest, hfull⟩ hinside
    · exact ⟨t, Effect.returns_bind.mpr ⟨_, t, hret, hret'⟩, ht⟩
  · obtain ⟨a', hret', h'⟩ := Reads.get hb (by rw [hne]; simp) full t rest ht
    exact ⟨a', Effect.returns_bind.mpr ⟨_, t, hret, hret'⟩, h'⟩

/-- A string with its length is not empty. -/
theorem encodedF16_ne_nil (value : List UInt8) : encodedF16 value ≠ [] := by
  simp [encodedF16, encoded, LengthFormat.header, littleEndian]

/-- The readers return given strings and leave nothing exactly when the unread bytes are these strings
with lengths of two bytes and the last one is not empty at the end of a full chain. -/
theorem readStrings_iff (hb : 1 ≤ b) (h : Unread b full a all) (formats : List LengthFormat)
    (values : List (List UInt8)) (hcount : values.length = formats.length) :
    (∃ a', (readStrings formats).Returns a values a' ∧ a'.getReadSize = 0) ↔
      (∀ value ∈ values, value.length < 2 ^ 16) ∧ all = values.flatMap encodedF16 ∧
        ¬ (values.getLast? = some [] ∧ full) := by
  induction formats generalizing a all values with
  | nil =>
    obtain rfl : values = [] := List.length_eq_zero_iff.mp hcount
    have hsize := h.getReadSize
    constructor
    · rintro ⟨a', hret, hzero⟩
      obtain ⟨_, rfl⟩ := Effect.returns_pure.mp hret
      rw [hsize] at hzero
      simpa using hzero
    · rintro ⟨_, rfl, _⟩
      exact ⟨a, Effect.returns_pure.mpr ⟨rfl, rfl⟩, hsize⟩
  | cons format formats ih =>
    obtain ⟨value, values, rfl⟩ := List.exists_cons_of_length_eq_add_one hcount
    have hcount' : values.length = formats.length := Nat.succ.inj hcount
    have hlast : ∀ {rest : List UInt8}, rest = values.flatMap encodedF16 →
        ((value :: values).getLast? = some [] ∧ full ↔
          (value = [] ∧ rest = [] ∧ full) ∨ (values.getLast? = some [] ∧ full)) := by
      intro rest hrest
      cases values with
      | nil => simp [hrest]
      | cons next values =>
        have hne : rest ≠ [] := by
          rw [hrest, List.flatMap_cons]
          exact List.append_ne_nil_of_left_ne_nil (encodedF16_ne_nil next) _
        simp [hne]
    constructor
    · rintro ⟨a', hret, hzero⟩
      obtain ⟨x, t, hx, hrest⟩ := Effect.returns_bind.mp hret
      obtain ⟨xs, t', hxs, hpure⟩ := Effect.returns_bind.mp hrest
      obtain ⟨heq, rfl⟩ := Effect.returns_pure.mp hpure
      obtain ⟨rfl, rfl⟩ := List.cons.inj heq
      rw [format.reader_eq] at hx
      obtain ⟨hlt, rest, rfl, ht, hinside⟩ := h.of_readString hb hx
      obtain ⟨hsmall, hall, hend⟩ := (ih ht xs hcount').mp ⟨t', hxs, hzero⟩
      refine ⟨?_, by rw [hall, List.flatMap_cons], ?_⟩
      · exact List.forall_mem_cons.mpr ⟨hlt, hsmall⟩
      · rw [hlast hall]
        exact not_or.mpr ⟨hinside, hend⟩
    · rintro ⟨hsmall, rfl, hend⟩
      rw [hlast rfl, not_or] at hend
      obtain ⟨hlt, hsmall⟩ := List.forall_mem_cons.mp hsmall
      rw [List.flatMap_cons] at h
      obtain ⟨t, hret, ht⟩ := h.readString hb hlt hend.1
      obtain ⟨a', hret', hzero⟩ := (ih ht values hcount').mpr ⟨hsmall, rfl, hend.2⟩
      refine ⟨a', ?_, hzero⟩
      refine Effect.returns_bind.mpr ⟨value, t, by rw [format.reader_eq]; exact hret, ?_⟩
      exact Effect.returns_bind.mpr ⟨values, a', hret', Effect.returns_pure.mpr ⟨rfl, rfl⟩⟩

/-- Strings written to a new array are read back by the matching readers after `setPosition(0)`, and no
byte is left. -/
def StringsRoundTrip (b : ℕ) (content : ℕ → UInt8) (fresh : ByteArray → ℕ → ℕ → UInt8)
    (items : List Item) : Prop :=
  ∃ a₁ a₂ a₃, (writeStrings fresh items).Returns (new b content) () a₁ ∧ (seek 0).Returns a₁ () a₂ ∧
    (readStrings (items.map Prod.fst)).Returns a₂ (items.map Prod.snd) a₃ ∧ a₃.getReadSize = 0

/-- Strings that fit their formats are read back exactly when all of them are shorter than 2^16, the
bytes written are the ones with all lengths in two bytes, and the last string is not an empty one that
ends at a multiple of the base size. -/
theorem strings_round_trip_iff (hb : 1 ≤ b) (content : ℕ → UInt8) (fresh : ByteArray → ℕ → ℕ → UInt8)
    {items : List Item} (hfits : ∀ item ∈ items, item.2.length < item.1.limit) :
    StringsRoundTrip b content fresh items ↔
      (∀ item ∈ items, item.2.length < 2 ^ 16) ∧
        items.flatMap encoded = (items.map Prod.snd).flatMap encodedF16 ∧
        ¬ ((items.map Prod.snd).getLast? = some [] ∧ b ∣ (items.flatMap encoded).length) := by
  obtain ⟨a₁, hret₁, hend⟩ := writes_strings hb fresh hfits _ _ (AtEnd.new hb content)
  obtain ⟨a₂, hret₂, hstart⟩ := hend.seek hb
  rw [List.nil_append] at hend hstart
  have hfull : items.flatMap encoded = (items.map Prod.snd).flatMap encodedF16 →
      ((items.map Prod.snd).getLast? = some [] ∧ a₁.size = a₁.capacity ↔
        (items.map Prod.snd).getLast? = some [] ∧ b ∣ (items.flatMap encoded).length) := by
    intro hsame
    refine and_congr_right fun hlast => hend.size_eq_capacity_iff hb ?_
    rw [hsame]
    obtain ⟨value, hvalue⟩ := List.getLast?_eq_some_iff.mp hlast
    rw [hvalue, List.flatMap_append]
    exact List.append_ne_nil_of_right_ne_nil _ (by simpa using encodedF16_ne_nil [])
  have hread := readStrings_iff hb hstart (items.map Prod.fst) (items.map Prod.snd) (by simp)
  rw [List.forall_mem_map] at hread
  constructor
  · rintro ⟨a₁', a₂', a₃, hret₁', hret₂', hret₃, hzero⟩
    obtain ⟨_, rfl⟩ := hret₁.unique hret₁'
    obtain ⟨_, rfl⟩ := hret₂.unique hret₂'
    obtain ⟨hsmall, hsame, hlast⟩ := hread.mp ⟨a₃, hret₃, hzero⟩
    exact ⟨hsmall, hsame, by rwa [← hfull hsame]⟩
  · rintro ⟨hsmall, hsame, hlast⟩
    obtain ⟨a₃, hret₃, hzero⟩ := hread.mpr ⟨hsmall, hsame, by rwa [hfull hsame]⟩
    exact ⟨a₁, a₂, a₃, hret₁, hret₂, hret₃, hzero⟩

/-- Two strings with lengths of two bytes. -/
theorem strings_round_trip_twoStrings :
    StringsRoundTrip 4 (fun _ => 0) (fun _ _ _ => 0) [(.f16, [0x61, 0x62, 0x63]), (.f16, [])] :=
  (strings_round_trip_iff (by decide) _ _ (by decide)).mpr (by decide)

/-- Writing strings and reading them back, as one run. -/
def thenRead (fresh : ByteArray → ℕ → ℕ → UInt8) (items : List Item) : Action (List (List UInt8)) := do
  writeStrings fresh items
  seek 0
  readStrings (items.map Prod.fst)

/-- When the run throws, the strings are not read back. -/
theorem StringsRoundTrip.isOk {content : ℕ → UInt8} {fresh : ByteArray → ℕ → ℕ → UInt8}
    {items : List Item} (h : StringsRoundTrip b content fresh items) :
    (thenRead fresh items (new b content)).1.isOk = true := by
  obtain ⟨a₁, a₂, a₃, hret₁, hret₂, hret₃, _⟩ := h
  have hrun : (thenRead fresh items).Returns (new b content) (items.map Prod.snd) a₃ :=
    Effect.returns_bind.mpr ⟨(), a₁, hret₁, Effect.returns_bind.mpr ⟨(), a₂, hret₂, hret₃⟩⟩
  rw [hrun]
  rfl

/-- A string with a variable-length size is not read back, nor is an empty string with a length of two
bytes that fills the only node. -/
theorem vint_string_not_read_back :
    (¬ StringsRoundTrip 16 (fun _ => 0) (fun _ _ _ => 0) [(.vint, [0x68, 0x65, 0x6C, 0x6C, 0x6F])]) ∧
      ¬ StringsRoundTrip 2 (fun _ => 0) (fun _ _ _ => 0) [(.f16, [])] :=
  ⟨fun h => absurd h.isOk (by decide +kernel), fun h => absurd h.isOk (by decide +kernel)⟩

end ByteArray

end Bobliew
