import Bobliew.Rock.Message
import Bobliew.Stream.SocketStream

/-!
# Frames of Rock messages

`RockMessageDecoder` sends a message as a header of eight bytes and a payload, which it compresses when
it is long, and receives one by reading a header and as many bytes as the header says. The decoding of
the received payload is not part of the frame. Compression is a parameter of the model.

Sending the payload is left to `writeFixSize` of a byte array, which sends nothing: only headers are
sent. A frame that is received has at least one byte behind its header, so no list of messages except
the empty one arrives.
-/

namespace Bobliew

namespace Rock

open Bobliew.ByteArray Bobliew.Stream WireFormat
open Http (Bytes readFixSize readFixSize_append)

/-- `RockMsgHeader`, with the values of its constructor. -/
structure RockMsgHeader where
  magic : UInt8 × UInt8 := (0xAB, 0xCD)
  version : UInt8 := 1
  flag : UInt8 := 0
  length : Int32 := 0

/-- The memory of a header. -/
def RockMsgHeader.memory (header : RockMsgHeader) : Bytes :=
  [header.magic.1, header.magic.2, header.version, header.flag] ++
    littleEndian 4 header.length.toUInt32.toNat

/-- The header in the given memory. -/
def RockMsgHeader.ofMemory (memory : Bytes) : RockMsgHeader where
  magic := (memory.getD 0 0, memory.getD 1 0)
  version := memory.getD 2 0
  flag := memory.getD 3 0
  length := (UInt32.ofNat (ofLittleEndian (memory.drop 4))).toInt32

/-- `byteswapOnLittleEndian`, on a machine that is little-endian. -/
def byteswapOnLittleEndian (t : Int32) : Int32 :=
  (UInt32.ofNat (byteswap 4 t.toUInt32.toNat)).toInt32

/-- What the frames depend on: the configuration variables `rock.protocol.max_length` and
`rock.protocol.gzip_min_length`, and the compression, which fails with the result of `serializeTo`. -/
structure Setup where
  maxLength : UInt32 := 1024 * 1024 * 64
  gzipMinLength : UInt32 := 1024 * 4
  gzip : Bytes → Except ℤ Bytes
  gunzip : Bytes → Option Bytes

/-- `ZlibStream::getByteArray`. -/
def getByteArray (content : ℕ → UInt8) (fresh : ByteArray → ℕ → ℕ → UInt8) (buffs : Bytes) :
    Except ByteArrayFault ByteArray :=
  match (new 4096 content).write buffs (fresh (new 4096 content)) with
  | (_, .error fault) => .error fault
  | (ba, .ok ()) => (ba.setPosition 0).2.map fun _ => (ba.setPosition 0).1

/-- The bytes that `getReadBuffers` describes. -/
def readBytes (ba : ByteArray) : Except ByteArrayFault Bytes :=
  (ba.getReadBuffers (2 ^ 64 - 1)).map fun buffers => buffers.1.flatMap (bytesOf ba.nodes)

section Frames

variable (setup : Setup) (content : ℕ → UInt8) (fresh : ByteArray → ℕ → ℕ → UInt8) (socket : Socket)

/-- The end of `serializeTo`: send the header and the payload. -/
def sendFrame (header : RockMsgHeader) (ba : ByteArray) (sent : List Bytes) :
    Except ByteArrayFault (ℤ × List Bytes) :=
  let swapped := { header with length := byteswapOnLittleEndian header.length }
  let w := writeFixSize socket swapped.memory sent
  if w.1 ≤ 0 then .ok (-3, w.2)
  else
    match writeFixSizeArray socket ba ba.getReadSize w.2 with
    | .error fault => .error fault
    | .ok (rt, ba, sent) => .ok (if rt ≤ 0 then -4 else 8 + ba.size, sent)

/-- `RockMessageDecoder::serializeTo`, for the array that `toByteArray` returns: the result and the
pieces sent. -/
def serializeTo (ba : ByteArray) (sent : List Bytes) : Except ByteArrayFault (ℤ × List Bytes) :=
  match ba.setPosition 0 with
  | (_, .error fault) => .error fault
  | (ba, .ok ()) =>
    let header : RockMsgHeader := { length := Int32.ofNat ba.size }
    if header.length.toUInt32 ≥ setup.gzipMinLength then
      match readBytes ba with
      | .error fault => .error fault
      | .ok bytes =>
        match setup.gzip bytes with
        | .error code => .ok (code, sent)
        | .ok buffs =>
          match getByteArray content fresh buffs with
          | .error fault => .error fault
          | .ok ba =>
            let marked := { header with flag := header.flag ||| 1, length := Int32.ofNat ba.size }
            sendFrame socket marked ba sent
    else sendFrame socket header ba sent

/-- An exception inside `parserFrom` makes it return null; a null pointer is not caught. -/
def nullOnException {A : Type} : Except ByteArrayFault (Option A) → Except ByteArrayFault (Option A)
  | .error (.outOfRange _) => .ok none
  | result => result

/-- The payload behind a header: read as many bytes as it says and decompress them when it is marked. -/
def receivePayload (header : RockMsgHeader) (pieces : List Bytes) :
    Except ByteArrayFault (Option (ByteArray × List Bytes)) :=
  match readFixSizeArray fresh (new 4096 content) header.length pieces with
  | .error fault => .error fault
  | .ok (rt, ba, pieces) =>
    if rt ≤ 0 then .ok none
    else
      match ba.setPosition 0 with
      | (_, .error fault) => .error fault
      | (ba, .ok ()) =>
        if header.flag &&& 1 ≠ 0 then
          match readBytes ba with
          | .error fault => .error fault
          | .ok bytes =>
            match setup.gunzip bytes with
            | none => .ok none
            | some buffs => (getByteArray content fresh buffs).map fun ba => some (ba, pieces)
        else .ok (some (ba, pieces))

/-- `RockMessageDecoder::parserFrom` up to the payload: null, or the array of the payload and the pieces
that have not been read. -/
def parserFrom (pieces : List Bytes) : Except ByteArrayFault (Option (ByteArray × List Bytes)) :=
  nullOnException
    (match readFixSize 8 pieces with
    | none => .ok none
    | some (memory, pieces) =>
      let header := RockMsgHeader.ofMemory memory
      if header.magic ≠ (0xAB, 0xCD) then .ok none
      else if header.version ≠ 1 then .ok none
      else
        let length := byteswapOnLittleEndian header.length
        if length.toUInt32 ≥ setup.maxLength then .ok none
        else receivePayload setup content fresh { header with length := length } pieces)

/-- Send the messages of a list in turn. -/
def serializeAll : List ByteArray → List Bytes → Except ByteArrayFault (List Bytes)
  | [], sent => .ok sent
  | ba :: messages, sent =>
    match serializeTo setup content fresh socket ba sent with
    | .error fault => .error fault
    | .ok (_, sent) => serializeAll messages sent

/-- The length of the payload of a frame: the bytes of the message or the compressed ones. -/
def frameLength (payload : Bytes) : ℕ :=
  if UInt32.ofNat payload.length ≥ setup.gzipMinLength then
    match setup.gzip payload with
    | .ok buffs => buffs.length
    | .error _ => 0
  else payload.length

/-- Receiving from the given pieces returns the payloads in order, and each frame takes its header and
its payload away. -/
def Recovered : List Bytes → List Bytes → Prop
  | [], _ => True
  | payload :: payloads, pieces =>
    ∃ ba rest, parserFrom setup content fresh pieces = .ok (some (ba, rest)) ∧
      ba.contents.drop ba.position = payload ∧
      pieces.flatten.length = 8 + frameLength setup payload + rest.flatten.length ∧
      Recovered payloads rest

/-- The messages are sent, and received however the bytes sent are cut into pieces. -/
def FramesArrive (messages : List ByteArray) (payloads : List Bytes) : Prop :=
  ∃ sent, serializeAll setup content fresh socket messages [] = .ok sent ∧
    ∀ pieces : List Bytes, pieces.flatten = sent.flatten → (∀ piece ∈ pieces, piece ≠ []) →
      Recovered setup content fresh payloads pieces

end Frames

variable {setup : Setup} {content : ℕ → UInt8} {fresh : ByteArray → ℕ → ℕ → UInt8} {socket : Socket}
  {ba : ByteArray} {header : RockMsgHeader} {rt : ℤ} {messages : List ByteArray}
  {sent sent' pieces pieces' payloads : List Bytes}

/-- A frame is at most its header. -/
theorem length_of_sendFrame (h : sendFrame socket header ba sent = .ok (rt, sent')) :
    sent'.flatten.length ≤ sent.flatten.length + 8 := by
  have hle := length_writeFixSize_le socket
    { header with length := byteswapOnLittleEndian header.length }.memory sent
  have hmemory : { header with length := byteswapOnLittleEndian header.length }.memory.length = 8 := by
    simp [RockMsgHeader.memory]
  rw [hmemory] at hle
  unfold sendFrame at h
  dsimp only at h
  split at h
  · cases h
    exact hle
  · rw [writeFixSizeArray_eq] at h
    cases h
    exact hle

/-- Sending a message sends at most a header. -/
theorem length_of_serializeTo (h : serializeTo setup content fresh socket ba sent = .ok (rt, sent')) :
    sent'.flatten.length ≤ sent.flatten.length + 8 := by
  unfold serializeTo at h
  split at h
  · cases h
  · dsimp only at h
    split at h
    · split at h
      · cases h
      · split at h
        · cases h
          exact Nat.le_add_right _ _
        · split at h
          · cases h
          · exact length_of_sendFrame h
    · exact length_of_sendFrame h

/-- Sending messages sends at most their headers. -/
theorem length_of_serializeAll (h : serializeAll setup content fresh socket messages sent = .ok sent') :
    sent'.flatten.length ≤ sent.flatten.length + 8 * messages.length := by
  induction messages generalizing sent with
  | nil =>
    cases h
    exact Nat.le_add_right _ _
  | cons ba messages ih =>
    unfold serializeAll at h
    split at h
    · cases h
    · rename_i hone
      have hfirst := length_of_serializeTo hone
      have hrest := ih h
      rw [List.length_cons]
      omega

/-- A payload that is received has at least one byte. -/
theorem length_of_receivePayload
    (h : receivePayload setup content fresh header pieces = .ok (some (ba, pieces'))) :
    pieces'.flatten.length + 1 ≤ pieces.flatten.length := by
  unfold receivePayload at h
  split at h
  · cases h
  · rename_i hread
    split at h
    · cases h
    · rename_i hpos
      have hlength := readFixSizeArray_length hread (by omega)
      split at h
      · cases h
      · split at h
        · split at h
          · cases h
          · split at h
            · cases h
            · obtain ⟨_, _, hpair⟩ := Except.exists_of_map_eq_ok h
              cases hpair
              exact hlength
        · cases h
          exact hlength

/-- A result that is not null was returned without an exception. -/
theorem ok_of_nullOnException {A : Type} {result : Except ByteArrayFault (Option A)} {x : A}
    (h : nullOnException result = .ok (some x)) : result = .ok (some x) := by
  unfold nullOnException at h
  split at h
  · cases h
  · exact h

/-- A frame that is received has a header and at least one byte. -/
theorem length_of_parserFrom (h : parserFrom setup content fresh pieces = .ok (some (ba, pieces'))) :
    pieces'.flatten.length + 9 ≤ pieces.flatten.length := by
  unfold parserFrom at h
  have hinner := ok_of_nullOnException h
  split at hinner
  · cases hinner
  · rename_i memory rest hhead
    obtain ⟨hlength, happend⟩ := readFixSize_append hhead
    have htotal := congrArg List.length happend
    rw [List.length_append, hlength] at htotal
    dsimp only at hinner
    split at hinner
    · cases hinner
    · split at hinner
      · cases hinner
      · split at hinner
        · cases hinner
        · have hpayload := length_of_receivePayload hinner
          omega

/-- Received frames take at least nine bytes each. -/
theorem length_of_recovered (h : Recovered setup content fresh payloads pieces) :
    9 * payloads.length ≤ pieces.flatten.length := by
  induction payloads generalizing pieces with
  | nil => exact Nat.zero_le _
  | cons payload payloads ih =>
    obtain ⟨ba, rest, hparse, _, _, hrest⟩ := h
    have hone := length_of_parserFrom hparse
    have hmore := ih hrest
    rw [List.length_cons]
    omega

/-- When messages arrive there are none. -/
theorem FramesArrive.eq_nil (h : FramesArrive setup content fresh socket messages payloads)
    (hlength : messages.length = payloads.length) : messages = [] := by
  obtain ⟨sent, hsent, hreceive⟩ := h
  have hheaders := length_of_serializeAll hsent
  have hpieces : (sent.filter fun piece => !piece.isEmpty).flatten = sent.flatten := by
    exact List.flatten_filter_not_isEmpty
  have hrecovered := hreceive _ hpieces fun piece hpiece => by simpa using (List.mem_filter.mp hpiece).2
  have hframes := length_of_recovered hrecovered
  rw [hpieces] at hframes
  apply List.length_eq_zero_iff.mp
  simp only [List.flatten_nil, List.length_nil] at hheaders
  omega

/-- Messages whose arrays hold the given payloads arrive exactly when there are none of them. -/
theorem frames_arrive_iff (hpayloads : List.Forall₂ (AtEnd 4096) messages payloads) :
    FramesArrive setup content fresh socket messages payloads ↔ messages = [] := by
  constructor
  · intro h
    exact h.eq_nil hpayloads.length_eq
  · rintro rfl
    cases hpayloads
    exact ⟨[], rfl, fun _ _ _ => trivial⟩

/-- The default lengths, with a compression that stores its input. -/
def Setup.storing : Setup where
  gzip bytes := .ok bytes
  gunzip bytes := some bytes

/-- The array of a notification with code 7 and an empty body. -/
theorem exists_notifyArray : ∃ ba, AtEnd 4096 ba [3, 7, 0] := by
  have hnew : AtEnd 4096 (new 4096 fun _ => 0) [] := AtEnd.new (by decide) _
  obtain ⟨ba, _, h⟩ := hnew.put (by decide) (fun _ _ _ => 0) [3, 7, 0]
  exact ⟨ba, h⟩

/-- One notification does not arrive, since its list is not empty. -/
theorem frames_arrive_oneNotify :
    ∃ ba, AtEnd 4096 ba [3, 7, 0] ∧
      (FramesArrive .storing (fun _ => 0) (fun _ _ _ => 0) .taking [ba] [[3, 7, 0]] ↔ [ba] = []) := by
  obtain ⟨ba, h⟩ := exists_notifyArray
  exact ⟨ba, h, frames_arrive_iff (.cons h .nil)⟩

/-- A notification is sent as a header without a payload, and does not arrive. -/
theorem notify_payload_not_sent :
    ∃ ba, AtEnd 4096 ba [3, 7, 0] ∧
      ¬ FramesArrive .storing (fun _ => 0) (fun _ _ _ => 0) .taking [ba] [[3, 7, 0]] := by
  obtain ⟨ba, h⟩ := exists_notifyArray
  refine ⟨ba, h, fun harrive => ?_⟩
  exact absurd (harrive.eq_nil rfl) (List.cons_ne_nil ba [])

end Rock

end Bobliew
