import Bobliew.ByteArray.Cursor
import Bobliew.Http.RequestSession

/-!
# Streams over a socket

`SocketStream` sends from and receives into memory or a byte array, and `Stream` repeats its operations
until a given number of bytes has been transferred. A socket answers every call of `send` with the
number of bytes it takes, or with an error, depending on all it has been given before; receiving is
from the list of pieces that arrive.

The loop that sends from a byte array is entered only while the number of bytes left is negative, so it
sends nothing.
-/

namespace Bobliew.Stream

open Http (Bytes readSome readSome_append toInt32)

/-- The answers of a socket to `send`: how many of the given number of bytes it takes after the pieces
it has taken so far, or an error. -/
structure Socket where
  answer : List Bytes → ℕ → ℤ
  answer_le : ∀ sent n, answer sent n ≤ n

/-- A socket that takes all it is given. -/
def Socket.taking : Socket where
  answer _ n := n
  answer_le _ n := Int.le_refl n

/-- `SocketStream::write(buffer, length)`. -/
def write (socket : Socket) (buffer : Bytes) (sent : List Bytes) : ℤ × List Bytes :=
  let rt := socket.answer sent buffer.length
  (rt, sent ++ [buffer.take rt.toNat])

/-- `SocketStream::write(ba, length)`. -/
def writeArray (socket : Socket) (ba : ByteArray) (length : ℕ) (sent : List Bytes) :
    Except ByteArrayFault (ℤ × ByteArray × List Bytes) :=
  match ba.getReadBuffers length with
  | .error fault => .error fault
  | .ok (iovs, _) =>
    let w := write socket (iovs.flatMap (ByteArray.bytesOf ba.nodes)) sent
    if w.1 > 0 then
      let moved := ba.setPosition (ba.position + w.1.toNat)
      moved.2.map fun _ => (w.1, moved.1, w.2)
    else .ok (w.1, ba, w.2)

/-- Store received bytes into the memory that a list of buffers describes. -/
def scatter (nodes : List Node) : List IoVec → Bytes → List Node
  | [], _ => nodes
  | iov :: iovs, got =>
    scatter (nodes.modify iov.node fun node => node.store iov.offset (got.take iov.len)) iovs
      (got.drop iov.len)

/-- `SocketStream::read(ba, length)`. -/
def readArray (fresh : ByteArray → ℕ → ℕ → UInt8) (ba : ByteArray) (length : ℕ) (pieces : List Bytes) :
    Except ByteArrayFault (ℤ × ByteArray × List Bytes) :=
  match ba.getWriteBuffers length (fresh ba) with
  | (_, .error fault) => .error fault
  | (ba, .ok (iovs, _)) =>
    match readSome length pieces with
    | none => .ok (0, ba, pieces)
    | some (got, pieces) =>
      let filled := { ba with nodes := scatter ba.nodes iovs got }
      let moved := filled.setPosition (filled.position + got.length)
      moved.2.map fun _ => ((got.length : ℤ), moved.1, pieces)

/-- The loop of `Stream::writeFixSize(buffer, length)`: the error that ends it, if any. Every round
transfers at least one byte, so the number of rounds is bounded by the length. -/
def writeLoop (socket : Socket) : ℕ → Bytes → List Bytes → Option ℤ × List Bytes
  | 0, _, sent => (none, sent)
  | rounds + 1, left, sent =>
    if left.length > 0 then
      let w := write socket left sent
      if w.1 ≤ 0 then (some w.1, w.2) else writeLoop socket rounds (left.drop w.1.toNat) w.2
    else (none, sent)

/-- `Stream::writeFixSize(buffer, length)`. -/
def writeFixSize (socket : Socket) (buffer : Bytes) (sent : List Bytes) : ℤ × List Bytes :=
  let w := writeLoop socket buffer.length buffer sent
  (w.1.getD (toInt32 buffer.length), w.2)

/-- The loop of `Stream::writeFixSize(ba, length)`, which runs while `left < 0`. -/
def writeArrayLoop (socket : Socket) :
    ℕ → ℤ → ByteArray → List Bytes → Except ByteArrayFault (Option ℤ × ByteArray × List Bytes)
  | 0, _, ba, sent => .ok (none, ba, sent)
  | rounds + 1, left, ba, sent =>
    if left < 0 then
      match writeArray socket ba (left % 2 ^ 64).toNat sent with
      | .error fault => .error fault
      | .ok (len, ba, sent) =>
        if len ≤ 0 then .ok (some len, ba, sent) else writeArrayLoop socket rounds (left - len) ba sent
    else .ok (none, ba, sent)

/-- `Stream::writeFixSize(ba, length)`. -/
def writeFixSizeArray (socket : Socket) (ba : ByteArray) (length : ℕ) (sent : List Bytes) :
    Except ByteArrayFault (ℤ × ByteArray × List Bytes) :=
  (writeArrayLoop socket (length + 1) length ba sent).map fun w =>
    (w.1.getD (toInt32 length), w.2.1, w.2.2)

/-- The loop of `Stream::readFixSize(ba, length)`. -/
def readArrayLoop (fresh : ByteArray → ℕ → ℕ → UInt8) :
    ℕ → ℤ → ByteArray → List Bytes → Except ByteArrayFault (Option ℤ × ByteArray × List Bytes)
  | 0, _, ba, pieces => .ok (none, ba, pieces)
  | rounds + 1, left, ba, pieces =>
    if left > 0 then
      match readArray fresh ba left.toNat pieces with
      | .error fault => .error fault
      | .ok (len, ba, pieces) =>
        if len ≤ 0 then .ok (some len, ba, pieces) else readArrayLoop fresh rounds (left - len) ba pieces
    else .ok (none, ba, pieces)

/-- `Stream::readFixSize(ba, length)` for a length that is converted from `int32_t`. -/
def readFixSizeArray (fresh : ByteArray → ℕ → ℕ → UInt8) (ba : ByteArray) (length : Int32)
    (pieces : List Bytes) : Except ByteArrayFault (ℤ × ByteArray × List Bytes) :=
  (readArrayLoop fresh length.toInt.toNat length.toInt ba pieces).map fun r =>
    (r.1.getD length.toInt, r.2.1, r.2.2)

variable {socket : Socket} {ba ba' : ByteArray} {sent sent' pieces pieces' : List Bytes}
  {fresh : ByteArray → ℕ → ℕ → UInt8} {len : ℤ}

/-- A call of `send` takes at most what it is given, and as much as it answers. -/
theorem write_spec (socket : Socket) (buffer : Bytes) (sent : List Bytes) :
    (write socket buffer sent).1 ≤ buffer.length ∧
      (write socket buffer sent).2.flatten.length ≤
        sent.flatten.length + (write socket buffer sent).1.toNat := by
  refine ⟨socket.answer_le sent buffer.length, ?_⟩
  simp only [write, List.flatten_append, List.flatten_cons, List.flatten_nil, List.append_nil,
    List.length_append, List.length_take]
  omega

/-- Sending from memory adds no more than the memory holds. -/
theorem length_writeLoop_le (rounds : ℕ) (left : Bytes) (sent : List Bytes) :
    (writeLoop socket rounds left sent).2.flatten.length ≤ sent.flatten.length + left.length := by
  induction rounds generalizing left sent with
  | zero => exact Nat.le_add_right _ _
  | succ rounds ih =>
    obtain ⟨hle, hsent⟩ := write_spec socket left sent
    unfold writeLoop
    split
    · dsimp only
      split
      · refine Nat.le_trans hsent ?_
        omega
      · refine Nat.le_trans (ih _ _) ?_
        rw [List.length_drop]
        omega
    · exact Nat.le_add_right _ _

/-- `writeFixSize` of a buffer adds no more than the buffer. -/
theorem length_writeFixSize_le (socket : Socket) (buffer : Bytes) (sent : List Bytes) :
    (writeFixSize socket buffer sent).2.flatten.length ≤ sent.flatten.length + buffer.length :=
  length_writeLoop_le _ _ _

/-- Sending a byte array with `writeFixSize` sends nothing. -/
theorem writeFixSizeArray_eq (socket : Socket) (ba : ByteArray) (length : ℕ) (sent : List Bytes) :
    writeFixSizeArray socket ba length sent = .ok (toInt32 length, ba, sent) := by
  have hleft : ¬ (length : ℤ) < 0 := by omega
  rw [writeFixSizeArray, writeArrayLoop, if_neg hleft]
  rfl

/-- Receiving into a byte array takes what it reports away from the pieces. -/
theorem readArray_length {n : ℕ} (h : readArray fresh ba n pieces = .ok (len, ba', pieces')) :
    len.toNat + pieces'.flatten.length = pieces.flatten.length := by
  unfold readArray at h
  split at h
  · cases h
  · split at h
    · cases h
      simp
    · rename_i got rest hread
      have happend := congrArg List.length (readSome_append hread)
      rw [List.length_append] at happend
      obtain ⟨_, _, hpair⟩ := Except.exists_of_map_eq_ok h
      cases hpair
      simpa using happend

/-- The loop that receives into a byte array only takes pieces away. -/
theorem readArrayLoop_length {rounds : ℕ} {left : ℤ} {failed : Option ℤ}
    (h : readArrayLoop fresh rounds left ba pieces = .ok (failed, ba', pieces')) :
    pieces'.flatten.length ≤ pieces.flatten.length := by
  induction rounds generalizing left ba pieces with
  | zero =>
    cases h
    exact Nat.le_refl _
  | succ rounds ih =>
    unfold readArrayLoop at h
    split at h
    · split at h
      · cases h
      · rename_i hread
        have hlength := readArray_length hread
        split at h
        · cases h
          omega
        · have hrest := ih h
          omega
    · cases h
      exact Nat.le_refl _

/-- When `readFixSize` reports success it has taken at least one byte. -/
theorem readFixSizeArray_length {length : Int32}
    (h : readFixSizeArray fresh ba length pieces = .ok (len, ba', pieces')) (hlen : 0 < len) :
    pieces'.flatten.length + 1 ≤ pieces.flatten.length := by
  obtain ⟨⟨failed, ba₁, pieces₁⟩, hloop, hpair⟩ := Except.exists_of_map_eq_ok h
  cases hpair
  rcases Nat.eq_zero_or_pos length.toInt.toNat with hzero | hpos
  · rw [hzero] at hloop
    cases hloop
    change 0 < length.toInt at hlen
    omega
  · obtain ⟨rounds, hrounds⟩ := Nat.exists_eq_succ_of_ne_zero hpos.ne'
    rw [hrounds, readArrayLoop, if_pos (by omega)] at hloop
    split at hloop
    · cases hloop
    · rename_i n _ _ hread
      have hlength := readArray_length hread
      split at hloop
      · cases hloop
        change 0 < n at hlen
        omega
      · have hrest := readArrayLoop_length hloop
        change pieces₁.flatten.length + 1 ≤ pieces.flatten.length
        omega

end Bobliew.Stream
