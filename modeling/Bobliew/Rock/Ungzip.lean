import Bobliew.Rock.Framing
import Bobliew.Stream.ZlibDecode

/-!
# Decoding compressed messages

`RockMessageDecoder::parserFrom` reads a header and a payload, decompresses the payload when it is marked, and decodes
the message in it. It takes the results of `write` and `flush` as the results of the decompression.

The parser of a request is declared and not defined, so it is a parameter of the model.
-/

namespace Bobliew

namespace Rock

open Bobliew.ByteArray Bobliew.Stream WireFormat
open Http (Bytes readFixSize)
open ZlibStream (Intact returned)

/-- A message that was decoded. -/
inductive Message where
  | request (m : RockRequest)
  | response (m : RockResponse)
  | notify (m : RockNotify)
  deriving DecidableEq

/-- What decoding depends on: `rock.protocol.max_length`, `inflate` with a number of rounds for its loop, and
`RockRequest::parserFromByteArray`. -/
structure Decoding where
  maxLength : UInt32 := 1024 * 1024 * 64
  inflate : Codec
  rounds : ℕ
  parserRequest : Effect (RockRequest × ByteArray) ByteArrayFault Bool

section Decode

variable (d : Decoding) (content : ℕ → UInt8) (fresh : ByteArray → ℕ → ℕ → UInt8)

/-- A new message, filled by its `parserFromByteArray`; null when this returns false. -/
def parsed {M : Type} (make : M → Message) (blank : M) (parser : Effect (M × ByteArray) ByteArrayFault Bool)
    (ba : ByteArray) : Except ByteArrayFault (Option Message) :=
  (parser (blank, ba)).1.map fun ok => if ok then some (make (parser (blank, ba)).2.1) else none

/-- The end of `parserFrom`: the type of the message, and the message. -/
def parserMessage (ba : ByteArray) : Except ByteArrayFault (Option Message) :=
  match readFuint8 ba with
  | (.error fault, _) => .error fault
  | (.ok type, ba) =>
    if type = MessageType.request.code then parsed .request {} d.parserRequest ba
    else if type = MessageType.response.code then parsed .response {} RockResponse.parserFromByteArray ba
    else if type = MessageType.notify.code then parsed .notify {} RockNotify.parserFromByteArray ba
    else .ok none

/-- `write` and `flush` of a new stream: whether both return `Z_OK`, and the stream. -/
def ungzip (v : List Bytes) : Option (Bool × ZlibStream) :=
  match ZlibStream.write d.inflate d.inflate d.rounds v (.create false 4096) with
  | none => none
  | some (ret, zstream) =>
    if ret ≠ Z_OK then some (false, zstream)
    else (ZlibStream.flush d.inflate d.inflate d.rounds zstream).map fun r => (decide (r.1 = Z_OK), r.2)

/-- The memory that `getReadBuffers` describes, buffer by buffer. -/
def readBuffers (ba : ByteArray) : Except ByteArrayFault (List Bytes) :=
  (ba.getReadBuffers (2 ^ 64 - 1)).map fun buffers => buffers.1.map (bytesOf ba.nodes)

/-- The message in what has been decompressed. -/
def parserUngzipped (zstream : ZlibStream) : Except ByteArrayFault (Option Message) :=
  match zstream.getByteArray content fresh with
  | (.error fault, _) => .error fault
  | (.ok (), ba) => parserMessage d ba

/-- `parserFrom` behind the payload. -/
def parserBody (header : RockMsgHeader) (ba : ByteArray) : Option (Except ByteArrayFault (Option Message)) :=
  if header.flag &&& 1 ≠ 0 then
    match readBuffers ba with
    | .error fault => some (.error fault)
    | .ok v =>
      match ungzip d v with
      | none => none
      | some (false, _) => some (.ok none)
      | some (true, zstream) => some (parserUngzipped d content fresh zstream)
  else some (parserMessage d ba)

/-- `parserFrom` up to the payload: null, or the header, the payload and the pieces that have not been read. -/
def receiveBody (pieces : List Bytes) :
    Except ByteArrayFault (Option (RockMsgHeader × ByteArray × List Bytes)) :=
  match readFixSize 8 pieces with
  | none => .ok none
  | some (memory, pieces) =>
    let header := RockMsgHeader.ofMemory memory
    if header.magic ≠ (0xAB, 0xCD) then .ok none
    else if header.version ≠ 1 then .ok none
    else
      let length := byteswapOnLittleEndian header.length
      if length.toUInt32 ≥ d.maxLength then .ok none
      else
        match readFixSizeArray fresh (new 4096 content) length pieces with
        | .error fault => .error fault
        | .ok (rt, ba, pieces) =>
          if rt ≤ 0 then .ok none
          else
            match ba.setPosition 0 with
            | (_, .error fault) => .error fault
            | (ba, .ok ()) => .ok (some ({ header with length := length }, ba, pieces))

/-- `RockMessageDecoder::parserFrom`, unless the loop of `inflate` has too few rounds. -/
def parserMessageFrom (pieces : List Bytes) : Option (Except ByteArrayFault (Option Message)) :=
  match receiveBody d content fresh pieces with
  | .error fault => some (nullOnException (.error fault))
  | .ok none => some (.ok none)
  | .ok (some (header, ba, _)) => (parserBody d content fresh header ba).map nullOnException

/-- `write` and `flush` for the payload of a frame, when it is received and marked. -/
def ungzipped (pieces : List Bytes) : Option (Bool × ZlibStream) :=
  match receiveBody d content fresh pieces with
  | .ok (some (header, ba, _)) =>
    if header.flag &&& 1 ≠ 0 then
      match readBuffers ba with
      | .ok v => ungzip d v
      | .error _ => none
    else none
  | _ => none

/-- A payload that is damaged or cut off is rejected. -/
def RejectsDamaged (pieces : List Bytes) (zstream : ZlibStream) : Prop :=
  ¬Intact (returned zstream.m_zstream) → parserMessageFrom d content fresh pieces = some (.ok none)

end Decode

variable {d : Decoding} {content : ℕ → UInt8} {fresh : ByteArray → ℕ → ℕ → UInt8} {pieces v : List Bytes}
  {ok : Bool} {zstream : ZlibStream}

/-- Both calls return `Z_OK` exactly when `inflate` has not returned `Z_STREAM_ERROR`. -/
theorem ungzip_ok (h : ungzip d v = some (ok, zstream)) :
    ok = true ↔ Z_STREAM_ERROR ∉ returned zstream.m_zstream := by
  unfold ungzip at h
  split at h
  · cases h
  · rename_i ret written hwrite
    obtain ⟨first, hfirst, hret⟩ := ZlibStream.write_ret hwrite
    replace hfirst : returned written.m_zstream = first := hfirst
    split at h
    · rename_i herror
      cases h
      rw [hfirst, ← hret]
      exact iff_of_false Bool.false_ne_true herror
    · rename_i hok
      obtain ⟨⟨last, flushed⟩, hflush, hpair⟩ := Option.map_eq_some_iff.mp h
      cases hpair
      obtain ⟨later, hlater, hlast⟩ := ZlibStream.flush_ret hflush
      have hclean := hret.mp (not_not.mp hok)
      rw [decide_eq_true_iff, hlast, hlater, hfirst, List.mem_append, not_or]
      exact ⟨fun hrest => ⟨hclean, hrest⟩, fun hboth => hboth.2⟩

/-- What `write` and `flush` have done decides what `parserFrom` does. -/
theorem parserMessageFrom_eq (h : ungzipped d content fresh pieces = some (ok, zstream)) :
    parserMessageFrom d content fresh pieces =
        some (nullOnException (if ok then parserUngzipped d content fresh zstream else .ok none)) ∧
      (ok = true ↔ Z_STREAM_ERROR ∉ returned zstream.m_zstream) := by
  unfold ungzipped at h
  split at h
  · rename_i header ba rest hreceive
    split at h
    · rename_i hflag
      split at h
      · rename_i v hbuffers
        refine ⟨?_, ungzip_ok h⟩
        rw [parserMessageFrom, hreceive]
        dsimp only
        rw [parserBody, if_pos hflag, hbuffers]
        dsimp only
        rw [h]
        cases ok <;> rfl
      · cases h
    · cases h
  · cases h

/-- A frame that was received is one of `parserFrom` with a compression, up to the payload. -/
theorem parserFrom_eq_receiveBody (setup : Setup) (hmax : setup.maxLength = d.maxLength) :
    parserFrom setup content fresh pieces = nullOnException (match receiveBody d content fresh pieces with
      | .error fault => .error fault
      | .ok none => .ok none
      | .ok (some (header, ba, pieces)) =>
        if header.flag &&& 1 ≠ 0 then
          match readBytes ba with
          | .error fault => .error fault
          | .ok bytes =>
            match setup.gunzip bytes with
            | none => .ok none
            | some buffs => (getByteArray content fresh buffs).map fun ba => some (ba, pieces)
        else .ok (some (ba, pieces))) := by
  unfold parserFrom receiveBody receivePayload
  rw [hmax]
  congr 1
  cases readFixSize 8 pieces with
  | none => rfl
  | some read =>
    obtain ⟨memory, pieces⟩ := read
    dsimp only
    split
    · rfl
    · split
      · rfl
      · split
        · rfl
        · cases readFixSizeArray fresh (new 4096 content)
            (byteswapOnLittleEndian (RockMsgHeader.ofMemory memory).length) pieces with
          | error fault => rfl
          | ok read =>
            obtain ⟨rt, ba, pieces⟩ := read
            dsimp only
            split
            · rfl
            · rcases ba.setPosition 0 with ⟨ba, fault | _⟩
              · rfl
              · rfl

/-- The array of what has been decompressed. -/
theorem getByteArray_unread (content : ℕ → UInt8) (fresh : ByteArray → ℕ → ℕ → UInt8) (h : zstream.getResult ≠ []) :
    ∃ ba, zstream.getByteArray content fresh = (.ok (), ba) ∧
      Unread 4096 (4096 ∣ zstream.getResult.length) ba zstream.getResult := by
  have hnew : AtEnd 4096 (new 4096 content) [] := AtEnd.new (by decide) content
  obtain ⟨written, hwritten, hend⟩ := ZlibStream.writes_putAll fresh zstream.m_buffs _ _ hnew
  obtain ⟨ba, hseek, hunread⟩ := hend.seek (by decide)
  rw [hend.size_eq_capacity_iff (by decide) h] at hunread
  exact ⟨ba, Effect.returns_bind.mpr ⟨(), written, hwritten, hseek⟩, hunread⟩

/-- A notification that has been decompressed is decoded, whatever comes behind it. -/
theorem parserUngzipped_notify {m : RockNotify} {rest : Bytes}
    (hbytes : zstream.getResult =
      [MessageType.notify.code] ++ (varint 5 m.notify.toNat ++ (encodedF16 m.body ++ rest)))
    (hlength : m.body.length < 2 ^ 16) (hinside : ¬(m.body = [] ∧ rest = [] ∧ 4096 ∣ zstream.getResult.length)) :
    parserUngzipped d content fresh zstream = .ok (some (.notify m)) := by
  have hne : zstream.getResult ≠ [] := by simp [hbytes]
  obtain ⟨ba, hba, hunread⟩ := getByteArray_unread content fresh hne
  rw [hbytes] at hunread
  obtain ⟨a₁, htype, h₁⟩ := reads_byte (by decide) _ _ _ _ hunread
  obtain ⟨a₂, hcode, h₂⟩ := reads_uint32 (by decide) m.notify _ _ _ h₁
  rw [← hbytes] at h₂
  obtain ⟨a₃, hbody, _⟩ := h₂.readString (by decide) hlength hinside
  have hparser : RockNotify.parserFromByteArray.Returns ({}, a₁) true (m, a₃) := by
    refine Effect.returns_catching.mpr (Or.inl (Effect.returns_bind.mpr ⟨true, ({ notify := m.notify }, a₂), ?_, ?_⟩))
    · exact Effect.returns_bind.mpr
        ⟨(), _, returns_readInto.mpr ⟨m.notify, hcode, rfl⟩, Effect.returns_pure.mpr ⟨rfl, rfl⟩⟩
    · refine Effect.returns_bind.mpr ⟨true, (m, a₃), ?_, Effect.returns_pure.mpr ⟨rfl, rfl⟩⟩
      exact Effect.returns_bind.mpr
        ⟨(), _, returns_readInto.mpr ⟨m.body, hbody, rfl⟩, Effect.returns_pure.mpr ⟨rfl, rfl⟩⟩
  have htype' : readFuint8 ba = (.ok MessageType.notify.code, a₁) := htype
  have hparser' : RockNotify.parserFromByteArray ({}, a₁) = (.ok true, (m, a₃)) := hparser
  rw [parserUngzipped, hba]
  dsimp only
  rw [parserMessage, htype']
  dsimp only
  rw [if_neg (by decide), if_neg (by decide), if_pos rfl, parsed, hparser']
  rfl

/-- What has been decompressed is not decoded to a message. -/
def NoMessage (d : Decoding) (content : ℕ → UInt8) (fresh : ByteArray → ℕ → ℕ → UInt8) (zstream : ZlibStream) : Prop :=
  nullOnException (parserUngzipped d content fresh zstream) = .ok none

/-- When a damaged payload is rejected: when `Z_STREAM_ERROR` was returned, when it was in fact intact, or when there
is no message in what has been decompressed. -/
theorem rejectsDamaged_iff (h : ungzipped d content fresh pieces = some (ok, zstream)) :
    RejectsDamaged d content fresh pieces zstream ↔
      Z_STREAM_ERROR ∈ returned zstream.m_zstream ∨ Intact (returned zstream.m_zstream) ∨
        NoMessage d content fresh zstream := by
  obtain ⟨heq, hok⟩ := parserMessageFrom_eq h
  rw [RejectsDamaged, heq, Option.some.injEq]
  by_cases herror : Z_STREAM_ERROR ∈ returned zstream.m_zstream
  · have hfalse : ¬ok = true := fun htrue => hok.mp htrue herror
    rw [if_neg hfalse]
    exact iff_of_true (fun _ => rfl) (.inl herror)
  · rw [if_pos (hok.mpr herror), or_iff_right herror, or_iff_not_imp_left]
    rfl

/-- A damaged payload is accepted when a notification has been decompressed. -/
theorem notify_accepted (h : ungzipped d content fresh pieces = some (ok, zstream))
    (herror : Z_STREAM_ERROR ∉ returned zstream.m_zstream) {m : RockNotify} {rest : Bytes}
    (hbytes : zstream.getResult =
      [MessageType.notify.code] ++ (varint 5 m.notify.toNat ++ (encodedF16 m.body ++ rest)))
    (hlength : m.body.length < 2 ^ 16) (hinside : ¬(m.body = [] ∧ rest = [] ∧ 4096 ∣ zstream.getResult.length)) :
    parserMessageFrom d content fresh pieces = some (.ok (some (.notify m))) := by
  obtain ⟨heq, hok⟩ := parserMessageFrom_eq h
  rw [heq, if_pos (hok.mpr herror), parserUngzipped_notify hbytes hlength hinside]
  rfl

/-- **What `Z_OK` says.** For all calls of `write` and `flush` of a decoding stream, and for all frames, whatever
`inflate` returns: that `Z_OK` means intact data, and that damaged payloads are rejected, hold exactly when
`inflate` has returned `Z_STREAM_ERROR`, or when the data was in fact intact, and for frames also when there is no
message in what has been decompressed. -/
theorem zOk_iff (d : Decoding) (content : ℕ → UInt8) (fresh : ByteArray → ℕ → ℕ → UInt8) :
    (∀ deflate buffSize writes rets z,
      ZlibStream.results deflate d.inflate d.rounds writes (.create false buffSize) = some (rets, z) →
        (ZlibStream.OkMeansIntact rets (returned z.m_zstream) ↔
          Z_STREAM_ERROR ∈ returned z.m_zstream ∨ Intact (returned z.m_zstream))) ∧
    ∀ pieces ok zstream, ungzipped d content fresh pieces = some (ok, zstream) →
      (RejectsDamaged d content fresh pieces zstream ↔
        Z_STREAM_ERROR ∈ returned zstream.m_zstream ∨ Intact (returned zstream.m_zstream) ∨
          NoMessage d content fresh zstream) :=
  ⟨fun _ _ _ _ _ h => ZlibStream.okMeansIntact_iff h, fun _ _ _ h => rejectsDamaged_iff h⟩

/-- A notification with code 7 and an empty body, as `gzip` stores it. -/
def gzipped : Bytes :=
  [31, 139, 8, 0, 0, 0, 0, 0, 0, 3, 1, 4, 0, 251, 255, 3, 7, 0, 0, 119, 102, 190, 54, 4, 0, 0, 0]

/-- What `inflate` does when it is given this data from the 19th byte on: it needs the eight bytes behind the block, and
reports when they are not there or differ. -/
def inflating : Codec := fun history _ input availOut =>
  let all := ZlibStream.consumed history ++ input
  { ret :=
      if all = gzipped then Z_STREAM_END
      else if all ≠ gzipped.take all.length then Z_DATA_ERROR
      else if history.isEmpty then Z_OK
      else Z_BUF_ERROR
    consumed := min input.length (gzipped.length - (ZlibStream.consumed history).length)
    output := if history.isEmpty then ([3, 7, 0, 0] : Bytes).take availOut else []
    consumed_le := Nat.min_le_left _ _
    output_le := by
      split
      · exact List.length_take_le _ _
      · exact Nat.zero_le _ }

/-- Decoding with this, where no request is decoded. -/
def Decoding.inflating : Decoding where
  inflate := Rock.inflating
  rounds := 1
  parserRequest := fun s => (.ok false, s)

/-- The frame of a payload of less than 256 bytes. -/
def gzipFrame (payload : Bytes) : List Bytes := [[0xAB, 0xCD, 1, 1, 0, 0, 0, UInt8.ofNat payload.length], payload]

/-- The codes that are returned for one `write` of some bytes, and `flush`. -/
def codesOf (payload : Bytes) : Option (List ℤ) :=
  (ZlibStream.results Rock.inflating Rock.inflating 1 [[payload]] (.create false 4096)).map fun r =>
    returned r.2.m_zstream

/-- The codes that are returned for the frame of a payload. -/
def codesOfFrame (payload : Bytes) : Option (List ℤ) :=
  (ungzipped .inflating (fun _ => 0) (fun _ _ _ => 0) (gzipFrame payload)).map fun r => returned r.2.m_zstream

/-- The stored notification is intact. -/
theorem zOk_gzipped :
    (∃ rets z, ZlibStream.results Rock.inflating Rock.inflating 1 [[gzipped]] (.create false 4096) = some (rets, z) ∧
      ZlibStream.OkMeansIntact rets (returned z.m_zstream)) ∧
    ∃ ok zstream,
      ungzipped .inflating (fun _ => 0) (fun _ _ _ => 0) (gzipFrame gzipped) = some (ok, zstream) ∧
      RejectsDamaged .inflating (fun _ => 0) (fun _ _ _ => 0) (gzipFrame gzipped) zstream := by
  obtain ⟨hresults, hframes⟩ := zOk_iff .inflating (fun _ => 0) (fun _ _ _ => 0)
  have hintact : Intact [Z_STREAM_END, Z_STREAM_END] := by
    unfold Intact
    decide
  constructor
  · have hcodes : codesOf gzipped = some [Z_STREAM_END, Z_STREAM_END] := by decide +kernel
    obtain ⟨⟨rets, z⟩, hrun, hreturned⟩ := Option.map_eq_some_iff.mp hcodes
    exact ⟨rets, z, hrun, (hresults _ _ _ _ _ hrun).mpr (.inr (hreturned ▸ hintact))⟩
  · have hcodes : codesOfFrame gzipped = some [Z_STREAM_END, Z_STREAM_END] := by decide +kernel
    obtain ⟨⟨ok, zstream⟩, hrun, hreturned⟩ := Option.map_eq_some_iff.mp hcodes
    exact ⟨ok, zstream, hrun, (hframes _ _ _ hrun).mpr (.inr (.inl (hreturned ▸ hintact)))⟩

/-- A payload for which `inflate` reports damage and no `Z_STREAM_ERROR`, and whose message is returned. -/
theorem not_zOk_of {payload : Bytes} {codes : List ℤ} (message : Message) (hdamaged : ¬Intact codes)
    (hresults : (ZlibStream.results Rock.inflating Rock.inflating 1 [[payload]] (.create false 4096)).map
      (fun r => (r.1, returned r.2.m_zstream)) = some ([Z_OK, Z_OK], codes))
    (hframe : codesOfFrame payload = some codes)
    (haccepted : parserMessageFrom .inflating (fun _ => 0) (fun _ _ _ => 0) (gzipFrame payload) =
      some (.ok (some message))) :
    (∃ rets z, ZlibStream.results Rock.inflating Rock.inflating 1 [[payload]] (.create false 4096) = some (rets, z) ∧
      ¬ZlibStream.OkMeansIntact rets (returned z.m_zstream)) ∧
    ∃ ok zstream, ungzipped .inflating (fun _ => 0) (fun _ _ _ => 0) (gzipFrame payload) = some (ok, zstream) ∧
      ¬RejectsDamaged .inflating (fun _ => 0) (fun _ _ _ => 0) (gzipFrame payload) zstream := by
  constructor
  · obtain ⟨⟨rets, z⟩, hrun, hpair⟩ := Option.map_eq_some_iff.mp hresults
    obtain ⟨hrets, hreturned⟩ := Prod.mk.inj hpair
    refine ⟨rets, z, hrun, fun h => hdamaged (hreturned ▸ h fun ret hret => ?_)⟩
    rw [show rets = _ from hrets] at hret
    simpa using hret
  · obtain ⟨⟨ok, zstream⟩, hrun, hreturned⟩ := Option.map_eq_some_iff.mp hframe
    refine ⟨ok, zstream, hrun, fun h => ?_⟩
    have hnull := h fun hintact => hdamaged (hreturned ▸ hintact)
    rw [haccepted] at hnull
    cases hnull

/-- The same data without the bytes behind its block, and with another length there: `write` and `flush` return `Z_OK`
for both, and the notification is accepted. -/
theorem not_zOk_damaged :
    ((∃ rets z, ZlibStream.results Rock.inflating Rock.inflating 1 [[gzipped.take 19]] (.create false 4096) =
        some (rets, z) ∧ ¬ZlibStream.OkMeansIntact rets (returned z.m_zstream)) ∧
      ∃ ok zstream, ungzipped .inflating (fun _ => 0) (fun _ _ _ => 0) (gzipFrame (gzipped.take 19)) =
        some (ok, zstream) ∧
        ¬RejectsDamaged .inflating (fun _ => 0) (fun _ _ _ => 0) (gzipFrame (gzipped.take 19)) zstream) ∧
    (∃ rets z, ZlibStream.results Rock.inflating Rock.inflating 1 [[gzipped.dropLast ++ [1]]] (.create false 4096) =
        some (rets, z) ∧ ¬ZlibStream.OkMeansIntact rets (returned z.m_zstream)) ∧
      ∃ ok zstream, ungzipped .inflating (fun _ => 0) (fun _ _ _ => 0) (gzipFrame (gzipped.dropLast ++ [1])) =
        some (ok, zstream) ∧
        ¬RejectsDamaged .inflating (fun _ => 0) (fun _ _ _ => 0) (gzipFrame (gzipped.dropLast ++ [1])) zstream := by
  have hcut : ¬Intact [Z_OK, Z_BUF_ERROR] := by
    unfold Intact
    decide
  have hwrong : ¬Intact [Z_DATA_ERROR, Z_DATA_ERROR] := by
    unfold Intact
    decide
  constructor
  · exact not_zOk_of (.notify ⟨7, []⟩) hcut (by decide +kernel) (by decide +kernel) (by decide +kernel)
  · exact not_zOk_of (.notify ⟨7, []⟩) hwrong (by decide +kernel) (by decide +kernel) (by decide +kernel)

end Rock

end Bobliew
