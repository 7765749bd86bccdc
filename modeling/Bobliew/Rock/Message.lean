import Bobliew.ByteArray.Strings

/-!
# Rock messages

The messages of the Rock protocol and their encoding in a byte array: a type, the numbers of the message
with variable lengths, and its strings. Decoding fills the fields of an object one after the other and
reports success by its result; an exception is caught and reported as failure, with the fields read
so far left in the object.

Decoding a response always reports failure, since the result computed inside the `try` block is not
returned. Decoding a notification reads the length of the body in two bytes although it was written
with a variable length, and no length has the same bytes in both formats. So no message survives being
encoded and decoded.
-/

namespace Bobliew

namespace Rock

open Bobliew.ByteArray WireFormat

/-- `Message::MessageType`. -/
inductive MessageType where
  | request
  | response
  | notify
  deriving DecidableEq

/-- The number of a message type, as `getType` returns it. -/
def MessageType.code : MessageType → UInt8
  | .request => 1
  | .response => 2
  | .notify => 3

/-- `RockRequest`, with the defaults of its constructor. -/
structure RockRequest where
  sn : UInt32 := 0
  cmd : UInt32 := 0
  body : List UInt8 := []
  deriving DecidableEq

/-- `RockResponse`, with the defaults of its constructor: the result is 404, "unhandle". -/
structure RockResponse where
  sn : UInt32 := 0
  cmd : UInt32 := 0
  result : UInt32 := 404
  resultStr : List UInt8 := [0x75, 0x6E, 0x68, 0x61, 0x6E, 0x64, 0x6C, 0x65]
  body : List UInt8 := []
  deriving DecidableEq

/-- `RockNotify`, with the defaults of its constructor. -/
structure RockNotify where
  notify : UInt32 := 0
  body : List UInt8 := []
  deriving DecidableEq

/-- `catch(...)` around a block: an exception becomes `false`; a null pointer is not caught. -/
def caught {S : Type} (block : Effect S ByteArrayFault Bool) : Effect S ByteArrayFault Bool :=
  block.catching fun
    | .outOfRange _ => return false
    | .nullNode => .throw .nullNode

section Serialize

variable (fresh : ByteArray → ℕ → ℕ → UInt8)

/-- `RockBody::serializeToByteArray`. -/
def serializeBody (body : List UInt8) : Action Bool := do
  writeStringVint fresh body
  return true

/-- `Response::serializeToByteArray`. -/
def RockResponse.serializeHead (m : RockResponse) : Action Bool := do
  writeFuint8 fresh MessageType.response.code
  writeUint32 fresh m.sn
  writeUint32 fresh m.cmd
  writeUint32 fresh m.result
  writeStringVint fresh m.resultStr
  return true

/-- `RockResponse::serializeToByteArray`. -/
def RockResponse.serializeToByteArray (m : RockResponse) : Action Bool := caught do
  let v ← m.serializeHead fresh
  let w ← serializeBody fresh m.body
  return v && w

/-- `Notify::serializeToByteArray`. -/
def RockNotify.serializeHead (m : RockNotify) : Action Bool := do
  writeFuint8 fresh MessageType.notify.code
  writeUint32 fresh m.notify
  return true

/-- `RockNotify::serializeToByteArray`. -/
def RockNotify.serializeToByteArray (m : RockNotify) : Action Bool := caught do
  let v ← m.serializeHead fresh
  let w ← serializeBody fresh m.body
  return v && w

end Serialize

/-- Read from the array into a field of the object. -/
def readInto {M A : Type} (read : Action A) (set : A → M → M) : Effect (M × ByteArray) ByteArrayFault Unit := do
  let x ← read.onSnd
  Effect.modifyFst (set x)

/-- `Response::parserFromByteArray`. -/
def RockResponse.parserHead : Effect (RockResponse × ByteArray) ByteArrayFault Bool := do
  readInto readUint32 fun v m => { m with sn := v }
  readInto readUint32 fun v m => { m with cmd := v }
  readInto readUint32 fun v m => { m with result := v }
  readInto readStringVint fun v m => { m with resultStr := v }
  return true

/-- `RockBody::parserFromByteArray` of a response. -/
def RockResponse.parserBody : Effect (RockResponse × ByteArray) ByteArrayFault Bool := do
  readInto readStringVint fun v m => { m with body := v }
  return true

/-- `RockResponse::parserFromByteArray`: the result of the block is not returned. -/
def RockResponse.parserFromByteArray : Effect (RockResponse × ByteArray) ByteArrayFault Bool := do
  let _ ← caught do
    let v ← parserHead
    let w ← parserBody
    return v && w
  return false

/-- `Notify::parserFromByteArray`. -/
def RockNotify.parserHead : Effect (RockNotify × ByteArray) ByteArrayFault Bool := do
  readInto readUint32 fun v m => { m with notify := v }
  return true

/-- `RockBody::parserFromByteArray` of a notification. -/
def RockNotify.parserBody : Effect (RockNotify × ByteArray) ByteArrayFault Bool := do
  readInto readStringVint fun v m => { m with body := v }
  return true

/-- `RockNotify::parserFromByteArray`. -/
def RockNotify.parserFromByteArray : Effect (RockNotify × ByteArray) ByteArrayFault Bool := caught do
  let v ← parserHead
  let w ← parserBody
  return v && w

/-- A message is encoded into a new array; after `setPosition(0)` the type is read and a new object is
decoded successfully, with all fields as they were and no byte left. -/
def RoundTrip {M : Type} (b : ℕ) (content : ℕ → UInt8) (serialize : Action Bool) (type : MessageType)
    (parser : Effect (M × ByteArray) ByteArrayFault Bool) (blank message : M) : Prop :=
  ∃ a₁ a₂ a₃ a₄, serialize.Returns (new b content) true a₁ ∧ (seek 0).Returns a₁ () a₂ ∧
    readFuint8.Returns a₂ type.code a₃ ∧ parser.Returns (blank, a₃) true (message, a₄) ∧
    a₄.getReadSize = 0

variable {b : ℕ}

/-- A block that does not throw is not changed by catching. -/
theorem writes_caught {m : Action Bool} {x : Bool} {bytes : List UInt8} (hm : Writes b m x bytes) :
    Writes b (caught m) x bytes := by
  intro a all h
  obtain ⟨a', hret, h'⟩ := hm a all h
  exact ⟨a', Effect.returns_catching.mpr (Or.inl hret), h'⟩

/-- A caught block that succeeds has not thrown. -/
theorem returns_true_of_caught {S : Type} {block : Effect S ByteArrayFault Bool} {s s' : S}
    (h : (caught block).Returns s true s') : block.Returns s true s' := by
  rcases Effect.returns_catching.mp h with h | ⟨e, t, _, hhandler⟩
  · exact h
  · cases e with
    | outOfRange what =>
      obtain ⟨hfalse, _⟩ := Effect.returns_pure.mp hhandler
      cases hfalse
    | nullNode => cases hhandler

/-- Reading into a field. -/
theorem returns_readInto {M A : Type} {read : Action A} {set : A → M → M} {m m' : M} {a a' : ByteArray} :
    (readInto read set).Returns (m, a) () (m', a') ↔ ∃ x, read.Returns a x a' ∧ set x m = m' := by
  unfold readInto
  rw [Effect.returns_bind]
  constructor
  · rintro ⟨x, ⟨m₁, a₁⟩, hread, hset⟩
    obtain ⟨hret, rfl⟩ := Effect.returns_onSnd.mp hread
    cases hset
    exact ⟨x, hret, rfl⟩
  · rintro ⟨x, hret, rfl⟩
    exact ⟨x, (m, a'), Effect.returns_onSnd.mpr ⟨hret, rfl⟩, rfl⟩

/-- Decoding a response never reports success. -/
theorem RockResponse.not_returns_true {s s' : RockResponse × ByteArray} :
    ¬ RockResponse.parserFromByteArray.Returns s true s' := by
  intro h
  obtain ⟨_, _, _, hpure⟩ := Effect.returns_bind.mp h
  obtain ⟨hfalse, _⟩ := Effect.returns_pure.mp hpure
  cases hfalse

/-- A notification is encoded as its type, its code, and its body with the length in the variable
format. -/
theorem RockNotify.writes (hb : 1 ≤ b) (fresh : ByteArray → ℕ → ℕ → UInt8) (m : RockNotify) :
    Writes b (m.serializeToByteArray fresh) true
      ([MessageType.notify.code] ++
        (varint 5 m.notify.toNat ++ (varint 10 (UInt64.ofNat m.body.length).toNat ++ m.body))) := by
  have htype : Writes b (writeFuint8 fresh MessageType.notify.code) () [MessageType.notify.code] := by
    have h := Writes.put hb fresh (littleEndian 1 MessageType.notify.code.toNat)
    rwa [littleEndian_one] at h
  have hcode : Writes b (writeUint32 fresh m.notify) () (varint 5 m.notify.toNat) := Writes.put hb fresh _
  have hbody : Writes b (serializeBody fresh m.body) true
      (varint 10 (UInt64.ofNat m.body.length).toNat ++ m.body) :=
    Writes.returning ((Writes.put hb fresh _).bind (Writes.put hb fresh m.body)) fun _ => true
  have hhead : Writes b (m.serializeHead fresh) true ([MessageType.notify.code] ++ varint 5 m.notify.toNat) :=
    htype.bind (hcode.returning fun _ => true)
  have hall := hhead.bind (f := fun v => serializeBody fresh m.body >>= fun w => pure (v && w))
    (hbody.returning fun w => true && w)
  rw [List.append_assoc] at hall
  exact writes_caught hall

/-- No length has the same bytes in the variable format and in two bytes. -/
theorem varint_ne_header {len : ℕ} (hlen : len < 2 ^ 16) :
    varint 10 len ≠ LengthFormat.f16.header len := by
  intro h
  have hheader : LengthFormat.f16.header len = [UInt8.ofNat (len / 256), UInt8.ofNat len] := rfl
  rw [hheader, varint] at h
  split at h
  · obtain ⟨hfirst, hrest⟩ := List.cons.inj h
    rw [varint] at hrest
    split at hrest
    · exact varint_ne_nil (by decide) _ (List.cons.inj hrest).2
    · rename_i hsmall
      have hbyte := congrArg UInt8.toNat hfirst
      rw [toNat_marked, UInt8.toNat_ofNat'] at hbyte
      rw [Nat.shiftRight_eq_div_pow] at hsmall
      omega
  · simp at h

/-- Decoding a notification reads its code and then its body. -/
theorem RockNotify.of_parserFromByteArray {blank m : RockNotify} {a a' : ByteArray}
    (h : RockNotify.parserFromByteArray.Returns (blank, a) true (m, a')) :
    ∃ t, readUint32.Returns a m.notify t ∧ readStringVint.Returns t m.body a' := by
  obtain ⟨v, ⟨m₁, t⟩, hhead, hrest⟩ := Effect.returns_bind.mp (returns_true_of_caught h)
  obtain ⟨_, ⟨m₂, t₂⟩, hnotify, hpure⟩ := Effect.returns_bind.mp hhead
  obtain ⟨_, hpair⟩ := Effect.returns_pure.mp hpure
  cases hpair
  obtain ⟨code, hcode, rfl⟩ := returns_readInto.mp hnotify
  obtain ⟨w, ⟨m₃, t₃⟩, hparserBody, hpure⟩ := Effect.returns_bind.mp hrest
  obtain ⟨_, hpair⟩ := Effect.returns_pure.mp hpure
  cases hpair
  obtain ⟨_, ⟨m₄, t₄⟩, hbody, hpure⟩ := Effect.returns_bind.mp hparserBody
  obtain ⟨_, hpair⟩ := Effect.returns_pure.mp hpure
  cases hpair
  obtain ⟨value, hvalue, rfl⟩ := returns_readInto.mp hbody
  exact ⟨t, hcode, hvalue⟩

/-- Messages are not restored by encoding and decoding them: decoding a response reports failure, and a
notification is not decoded to what it was. -/
theorem messages_never_round_trip (hb : 1 ≤ b) (content : ℕ → UInt8)
    (fresh : ByteArray → ℕ → ℕ → UInt8) :
    (∀ m : RockResponse, ¬ RoundTrip b content (m.serializeToByteArray fresh) .response
      RockResponse.parserFromByteArray {} m) ∧
    ∀ m : RockNotify, ¬ RoundTrip b content (m.serializeToByteArray fresh) .notify
      RockNotify.parserFromByteArray {} m := by
  constructor
  · rintro m ⟨a₁, a₂, a₃, a₄, _, _, _, hparse, _⟩
    exact RockResponse.not_returns_true hparse
  · rintro m ⟨a₁, a₂, a₃, a₄, hserialize, hseek, htype, hparse, hzero⟩
    obtain ⟨a₁', hret₁, hend⟩ := m.writes hb fresh _ _ (AtEnd.new hb content)
    obtain ⟨_, rfl⟩ := hserialize.unique hret₁
    obtain ⟨a₂', hret₂, hstart⟩ := hend.seek hb
    obtain ⟨_, rfl⟩ := hseek.unique hret₂
    rw [List.nil_append] at hstart
    obtain ⟨a₃', hret₃, hcode⟩ := reads_byte hb _ _ _ _ hstart
    obtain ⟨_, rfl⟩ := htype.unique hret₃
    obtain ⟨t, hread, hvalue⟩ := RockNotify.of_parserFromByteArray hparse
    obtain ⟨t', hret₄, hbody⟩ := reads_uint32 hb _ _ _ _ hcode
    obtain ⟨_, rfl⟩ := hread.unique hret₄
    obtain ⟨hlt, rest, hsame, hdone, _⟩ := hbody.of_readString hb hvalue
    obtain rfl : rest = [] := List.length_eq_zero_iff.mp (hdone.getReadSize.symm.trans hzero)
    have hlength : (UInt64.ofNat m.body.length).toNat = m.body.length := by
      rw [UInt64.toNat_ofNat', Nat.mod_eq_of_lt (by omega)]
    rw [List.append_nil, encodedF16, encoded, List.append_left_inj, hlength] at hsame
    exact varint_ne_header hlt hsame

/-- The same for a default notification and a default response in nodes of 4096 bytes. -/
theorem messages_never_round_trip_defaults :
    (¬ RoundTrip 4096 (fun _ => 0) (RockResponse.serializeToByteArray (fun _ _ _ => 0) {}) .response
      RockResponse.parserFromByteArray {} {}) ∧
    ¬ RoundTrip 4096 (fun _ => 0) (RockNotify.serializeToByteArray (fun _ _ _ => 0) {}) .notify
      RockNotify.parserFromByteArray {} {} :=
  ⟨(messages_never_round_trip (by decide) _ _).1 {}, (messages_never_round_trip (by decide) _ _).2 {}⟩

/-- A response with all its fields set is decoded as a failure. -/
theorem response_decoded_as_failure :
    ¬ RoundTrip 4096 (fun _ => 0)
      (RockResponse.serializeToByteArray (fun _ _ _ => 0)
        { sn := 1, cmd := 2, result := 200, resultStr := [0x6F, 0x6B], body := [0x68, 0x69] }) .response
      RockResponse.parserFromByteArray {}
      { sn := 1, cmd := 2, result := 200, resultStr := [0x6F, 0x6B], body := [0x68, 0x69] } := by
  rintro ⟨_, _, _, _, _, _, _, hparse, _⟩
  exact RockResponse.not_returns_true hparse

end Rock

end Bobliew
