import Bobliew.Lib.FixedTransfer
import Bobliew.Stream.Gather

/-!
# Transfers of a fixed size

`Stream::readFixSize` and `Stream::writeFixSize` with a buffer, and `readFixSize` with a byte array, over a stream of
which no more is known than what a call can return: an error or zero, or any number of bytes up to the length it was
called with. The state of the stream is arbitrary, so every call can depend on all that came before.

The three functions are one loop, with a call that also moves the offset into the buffer, or the position of the byte
array. What has been transferred is therefore in the memory of the caller, without a gap and in order, also when the
loop stops at an error.
-/

namespace Bobliew.Stream

open Http (Bytes readSome readSome_eq_some toInt32)
open FixedTransfer

/-- An error, or zero for a stream that was closed. -/
abbrev ErrorCode := {code : ℤ // code ≤ 0}

/-- What a call that is to transfer `n` bytes returns. -/
abbrev CallResult (n : ℕ) := Answer ErrorCode (A := Bytes) List.length n

/-- The bytes a call has received, none when it failed. -/
def CallResult.received {n : ℕ} : CallResult n → Bytes
  | .failed _ => []
  | .moved got _ _ => got

/-- The result of a stream that is not connected. -/
def notConnected : ErrorCode := ⟨-1, by decide⟩

/-- The socket of a stream that is read from: it receives into memory of a length. -/
structure Receiver (σ : Type) where
  isConnected : σ → Bool
  recv : σ → (n : ℕ) → CallResult n × σ

/-- The socket of a stream that is written to: it takes a number of the bytes it is given. -/
structure Sender (σ : Type) where
  isConnected : σ → Bool
  send : σ → (data : Bytes) → Answer ErrorCode (A := ℕ) id data.length × σ

/-- A loop that reads into a buffer. -/
structure Reading (σ : Type) where
  stream : σ
  buffer : Bytes
  offset : ℕ

/-- A loop that reads into a byte array. -/
structure ReadingArray (σ : Type) where
  stream : σ
  ba : ByteArray

/-- A loop that writes from a buffer. -/
structure Writing (σ : Type) where
  stream : σ
  offset : ℕ

/-- What a loop returns: the error that ended it, or the length as an `int`. -/
def fixSizeResult (length : ℕ) (failed : Option ErrorCode) : ℤ := (failed.map Subtype.val).getD (toInt32 length)

namespace Receiver

variable {σ : Type}

/-- `SocketStream::read(buffer, length)`. -/
def read (receiver : Receiver σ) (s : σ) (n : ℕ) : CallResult n × σ :=
  if !receiver.isConnected s then (.failed notConnected, s) else receiver.recv s n

/-- `read((char*)buffer + offset, left)`, and the offset behind what it has read. -/
def readCall (receiver : Receiver σ) : Call (Reading σ) Empty ErrorCode (A := Bytes) List.length := fun s left =>
  match receiver.read s.stream left with
  | (.failed code, stream) => .ok (.failed code, { s with stream := stream })
  | (.moved got pos le, stream) =>
    .ok (.moved got pos le, ⟨stream, s.buffer.overwrite s.offset got, s.offset + got.length⟩)

/-- `Stream::readFixSize(buffer, length)`. -/
def readFixSize (receiver : Receiver σ) (s : σ) (buffer : Bytes) (length : ℕ) : Except Empty (ℤ × Reading σ) :=
  (loop receiver.readCall ⟨s, buffer, 0⟩ length).map fun r => (fixSizeResult length r.1, r.2)

/-- `SocketStream::read(ba, length)`. -/
def readArrayCall (receiver : Receiver σ) (fresh : ByteArray → ℕ → ℕ → UInt8) :
    Call (ReadingArray σ) ByteArrayFault ErrorCode (A := Bytes) List.length := fun s left =>
  if !receiver.isConnected s.stream then .ok (.failed notConnected, s) else
  match s.ba.getWriteBuffers left (fresh s.ba) with
  | (_, .error fault) => .error fault
  | (ba, .ok (iovs, _)) =>
    match receiver.recv s.stream left with
    | (.failed code, stream) => .ok (.failed code, ⟨stream, ba⟩)
    | (.moved got pos le, stream) =>
      let filled := { ba with nodes := scatter ba.nodes iovs got }
      match filled.setPosition (filled.position + got.length) with
      | (_, .error fault) => .error fault
      | (ba, .ok _) => .ok (.moved got pos le, ⟨stream, ba⟩)

/-- `Stream::readFixSize(ba, length)`. -/
def readFixSizeArray (receiver : Receiver σ) (fresh : ByteArray → ℕ → ℕ → UInt8) (s : σ) (ba : ByteArray)
    (length : ℕ) : Except ByteArrayFault (ℤ × ReadingArray σ) :=
  (loop (receiver.readArrayCall fresh) ⟨s, ba⟩ length).map fun r => (fixSizeResult length r.1, r.2)

end Receiver

namespace Sender

variable {σ : Type}

/-- `SocketStream::write(buffer, length)`. -/
def write (sender : Sender σ) (s : σ) (data : Bytes) : Answer ErrorCode (A := ℕ) id data.length × σ :=
  if !sender.isConnected s then (.failed notConnected, s) else sender.send s data

/-- `write((const char*)buffer + offset, left)`, and the offset behind what it has written. -/
def writeCall (sender : Sender σ) (buffer : Bytes) : Call (Writing σ) Empty ErrorCode (A := Bytes) List.length :=
  fun s left =>
    let data := (buffer.drop s.offset).take left
    match sender.write s.stream data with
    | (.failed code, stream) => .ok (.failed code, { s with stream := stream })
    | (.moved n pos le, stream) =>
      have hlen : (data.take n).length = n := List.length_take_of_le le
      .ok (.moved (data.take n) (hlen.symm ▸ pos) (hlen.symm ▸ le.trans (List.length_take_le _ _)),
        ⟨stream, s.offset + n⟩)

/-- `Stream::writeFixSize(buffer, length)`. -/
def writeFixSize (sender : Sender σ) (s : σ) (buffer : Bytes) (length : ℕ) : Except Empty (ℤ × Writing σ) :=
  (loop (sender.writeCall buffer) ⟨s, 0⟩ length).map fun r => (fixSizeResult length r.1, r.2)

end Sender

section Transfers

variable {σ ε : Type} {receiver : Receiver σ} {sender : Sender σ} {length left : ℕ} {pieces : List Bytes}

/-- A length below the largest `int` is returned as it is. -/
theorem toInt32_eq {n : ℕ} (h : n < 2 ^ 31) : toInt32 n = n := by
  have hmod : n % 2 ^ 32 = n := Nat.mod_eq_of_lt (h.trans (by decide))
  rw [toInt32, hmod, if_pos h]

variable {b : ℕ} {fresh : ByteArray → ℕ → ℕ → UInt8}

end Transfers

/-! ## The sockets of `SocketStream` -/

/-- A socket as it is written to. -/
def Socket.sender (socket : Socket) : Sender (List Bytes) where
  isConnected _ := true
  send sent data :=
    if h : (write socket data sent).1 ≤ 0 then (.failed ⟨_, h⟩, (write socket data sent).2)
    else
      have hle := (write_spec socket data sent).1
      (.moved (write socket data sent).1.toNat (by simp only [id]; omega) (by simp only [id]; omega),
        (write socket data sent).2)

/-- The pieces that arrive, as they are read. -/
def arriving : Receiver (List Bytes) where
  isConnected _ := true
  recv pieces n :=
    match h : readSome n pieces with
    | none => (.failed ⟨0, by decide⟩, pieces)
    | some (got, rest) =>
      (.moved got (List.length_pos_iff.mpr (readSome_eq_some h).1) (readSome_eq_some h).2, rest)

/-- A call of a sender that takes some of what it is given. -/
theorem writeCall_eq_moved {σ : Type} {sender : Sender σ} {buffer : Bytes} {s : Writing σ} {left n : ℕ} {stream : σ}
    {pos : 0 < id n} {le : id n ≤ ((buffer.drop s.offset).take left).length}
    (hsend : sender.write s.stream ((buffer.drop s.offset).take left) = (.moved n pos le, stream)) :
    ∃ data pos' le', data.length = n ∧
      sender.writeCall buffer s left = .ok (.moved data pos' le', ⟨stream, s.offset + n⟩) := by
  unfold Sender.writeCall
  dsimp only
  rw [hsend]
  exact ⟨_, _, _, List.length_take_of_le le, rfl⟩

/-- What a socket that takes some bytes answers. -/
theorem exists_sender_write {socket : Socket} {sent : List Bytes} {data : Bytes}
    (h : ¬ (write socket data sent).1 ≤ 0) : ∃ pos le, socket.sender.write sent data =
      (.moved (write socket data sent).1.toNat pos le, (write socket data sent).2) := by
  unfold Sender.write
  simp only [Socket.sender, Bool.not_true, Bool.false_eq_true, if_false, h, dite_false]
  have hle := (write_spec socket data sent).1
  simp only [id, exists_prop, and_true]
  omega

/-- The loop of `writeFixSize` is the one with the socket as it is written to. -/
theorem loop_sender (socket : Socket) (buffer : Bytes) {rounds : ℕ} (offset : ℕ) (sent : List Bytes)
    (hrounds : buffer.length - offset ≤ rounds) : ∃ failed offset',
      loop (socket.sender.writeCall buffer) ⟨sent, offset⟩ (buffer.length - offset) =
        .ok (failed, ⟨(writeLoop socket rounds (buffer.drop offset) sent).2, offset'⟩) ∧
      failed.map Subtype.val = (writeLoop socket rounds (buffer.drop offset) sent).1 := by
  induction rounds generalizing offset sent with
  | zero =>
    have hdone : buffer.length - offset = 0 := by omega
    rw [hdone, loop_zero]
    exact ⟨none, offset, rfl, rfl⟩
  | succ rounds ih =>
    have hlen : (buffer.drop offset).length = buffer.length - offset := List.length_drop
    have hdata : (buffer.drop offset).take (buffer.length - offset) = buffer.drop offset :=
      List.take_of_length_le hlen.le
    unfold writeLoop
    by_cases hdone : buffer.length - offset = 0
    · rw [hdone, loop_zero, hlen, hdone]
      exact ⟨none, offset, rfl, rfl⟩
    have hpos : 0 < buffer.length - offset := by omega
    rw [if_pos (by omega)]
    dsimp only
    by_cases hfailed : (write socket (buffer.drop offset) sent).1 ≤ 0
    · have hcall : socket.sender.writeCall buffer ⟨sent, offset⟩ (buffer.length - offset) =
          .ok (.failed ⟨_, hfailed⟩, ⟨(write socket (buffer.drop offset) sent).2, offset⟩) := by
        unfold Sender.writeCall Sender.write
        simp only [Socket.sender, hdata, Bool.not_true, Bool.false_eq_true, if_false, hfailed, dite_true]
      rw [if_pos hfailed]
      exact ⟨_, _, loop_failed hpos hcall, rfl⟩
    · obtain ⟨pos, le, hsend⟩ := exists_sender_write (hdata.symm ▸ hfailed)
      obtain ⟨data, _, _, hsize, hcall⟩ := writeCall_eq_moved (s := ⟨sent, offset⟩) hsend
      rw [hdata] at hsize hcall
      obtain ⟨failed, offset', hrest, hfailure⟩ := ih (offset + data.length)
        (write socket (buffer.drop offset) sent).2 (by omega)
      rw [if_neg hfailed, List.drop_drop, ← hsize]
      refine ⟨failed, offset', ?_, hfailure⟩
      rw [loop_moved hcall, Nat.sub_sub, ← hsize, hrest]

/-- `writeFixSize` with a socket, as it is written to. -/
theorem writeFixSize_eq_sender (socket : Socket) (buffer : Bytes) (sent : List Bytes) : ∃ offset,
    socket.sender.writeFixSize sent buffer buffer.length =
      .ok ((writeFixSize socket buffer sent).1, ⟨(writeFixSize socket buffer sent).2, offset⟩) := by
  obtain ⟨failed, offset, hloop, hfailed⟩ :=
    loop_sender socket buffer 0 sent (le_refl (buffer.length - 0))
  rw [Nat.sub_zero, List.drop_zero] at hloop hfailed
  refine ⟨offset, ?_⟩
  rw [Sender.writeFixSize, hloop, writeFixSize, ← hfailed]
  rfl

/-- No bytes are read. -/
theorem arriving_recv_none {pieces : List Bytes} {n : ℕ} (h : readSome n pieces = none) :
    arriving.recv pieces n = (.failed ⟨0, by decide⟩, pieces) := by
  unfold arriving
  dsimp only
  split
  · rfl
  · rename_i hread
    cases h.symm.trans hread

/-- Some bytes are read. -/
theorem arriving_recv_some {pieces : List Bytes} {n : ℕ} {got : Bytes × List Bytes}
    (h : readSome n pieces = some got) : ∃ pos le, arriving.recv pieces n = (.moved got.1 pos le, got.2) := by
  unfold arriving
  dsimp only
  split
  · rename_i hread
    cases h.symm.trans hread
  · rename_i hread
    cases h.symm.trans hread
    obtain ⟨hne, hle⟩ := readSome_eq_some h
    exact ⟨List.length_pos_iff.mpr hne, hle, rfl⟩

/-- What `read` into a byte array returns, by what a call of the loop returns. -/
def arrayResult {left : ℕ} :
    Except ByteArrayFault (CallResult left × ReadingArray (List Bytes)) →
      Except ByteArrayFault (ℤ × ByteArray × List Bytes)
  | .error fault => .error fault
  | .ok (.failed code, s) => .ok (code, s.ba, s.stream)
  | .ok (.moved got _ _, s) => .ok (got.length, s.ba, s.stream)

/-- `read` into a byte array, of the pieces as they are read. -/
theorem readArray_eq_arriving (fresh : ByteArray → ℕ → ℕ → UInt8) (ba : ByteArray) (left : ℕ) (pieces : List Bytes) :
    readArray fresh ba left pieces = arrayResult (arriving.readArrayCall fresh ⟨pieces, ba⟩ left) := by
  unfold readArray Receiver.readArrayCall
  rw [if_neg (by simp [arriving])]
  dsimp only
  rcases ba.getWriteBuffers left (fresh ba) with ⟨a', fault | ⟨iovs, n⟩⟩
  · rfl
  dsimp only
  cases hread : readSome left pieces with
  | none =>
    rw [arriving_recv_none hread]
    rfl
  | some got =>
    obtain ⟨pos, le, hrecv⟩ := arriving_recv_some hread
    rw [hrecv]
    dsimp only
    split
    · rename_i hmoved
      rw [hmoved]
      rfl
    · rename_i hmoved
      rw [hmoved]
      rfl

/-- The loop of `readFixSize` with a byte array is the one with the pieces as they are read. -/
theorem readArrayLoop_eq_arriving (fresh : ByteArray → ℕ → ℕ → UInt8) {rounds left : ℕ} (ba : ByteArray)
    (pieces : List Bytes) (hrounds : left ≤ rounds) : readArrayLoop fresh rounds left ba pieces =
      (loop (arriving.readArrayCall fresh) ⟨pieces, ba⟩ left).map fun r =>
        (r.1.map Subtype.val, r.2.ba, r.2.stream) := by
  induction rounds generalizing left ba pieces with
  | zero =>
    obtain rfl : left = 0 := by omega
    rw [loop_zero]
    rfl
  | succ rounds ih =>
    rcases Nat.eq_zero_or_pos left with rfl | hpos
    · rw [loop_zero]
      rfl
    rw [readArrayLoop, if_pos (by omega), Int.toNat_natCast, readArray_eq_arriving]
    rcases hcall : arriving.readArrayCall fresh ⟨pieces, ba⟩ left with fault | ⟨code | ⟨got, pos, le⟩, s⟩
    · rw [loop, if_pos hpos, hcall]
      rfl
    · rw [loop_failed hpos hcall]
      simp only [arrayResult, if_pos code.property]
      rfl
    · have hmoved : ¬ (got.length : ℤ) ≤ 0 := by omega
      have hleft : (left : ℤ) - got.length = (left - got.length : ℕ) := by omega
      rw [loop_moved hcall]
      simp only [arrayResult, if_neg hmoved]
      rw [hleft, ih s.ba s.stream (by omega)]

/-- `readFixSize` with a byte array, of the pieces as they are read. -/
theorem readFixSizeArray_eq_arriving (fresh : ByteArray → ℕ → ℕ → UInt8) (ba : ByteArray) (pieces : List Bytes)
    {length : Int32} (hlength : 0 ≤ length.toInt) : readFixSizeArray fresh ba length pieces =
      (arriving.readFixSizeArray fresh pieces ba length.toInt.toNat).map fun r => (r.1, r.2.ba, r.2.stream) := by
  have hsmall : length.toInt.toNat < 2 ^ 31 := by
    have := length.toInt_lt
    omega
  have hresult : toInt32 length.toInt.toNat = length.toInt := by
    rw [toInt32_eq hsmall]
    omega
  have hloop := readArrayLoop_eq_arriving fresh ba pieces (le_refl length.toInt.toNat)
  rw [Int.toNat_of_nonneg hlength] at hloop
  rw [readFixSizeArray, hloop, Receiver.readFixSizeArray]
  cases loop (arriving.readArrayCall fresh) ⟨pieces, ba⟩ length.toInt.toNat with
  | error fault => rfl
  | ok r => simp only [Except.map, fixSizeResult, hresult]

end Bobliew.Stream
