import Bobliew.ByteArray.Cursor
import Bobliew.Http.RequestSession
import Bobliew.Lib.WireFormat

/-!
# Streams through `deflate` and `inflate`

`ZlibStream` gives the memory it is written to `deflate` or `inflate`, buffer by buffer, and collects the output in
buffers of one size: the last one is filled up before another one is allocated. A call is repeated for the same
input as long as it leaves no space for output, because it can then have more of it.

The library is a function from all that has happened to the stream before, so nothing is assumed of its state. What
is needed of `deflate` is a field of its type: a call that leaves space has taken all of its input. Nothing bounds
the number of the calls for one input; the loop has a number of rounds, and ends when the output is bounded.

A call that returns `Z_STREAM_ERROR` ends the loops, and the rest of the input is not given to the library. The
length of a buffer is stored into 32 bits.
-/

namespace Bobliew

open Http (Bytes)
open WireFormat (littleEndian length_littleEndian)

/-- The argument of `deflate` and `inflate` that says whether there is more input. -/
inductive Flush where
  | Z_NO_FLUSH
  | Z_FINISH
deriving DecidableEq

def Z_OK : ℤ := 0

def Z_STREAM_END : ℤ := 1

def Z_STREAM_ERROR : ℤ := -2

/-- What a call does with its input and the space for its output. -/
structure FlateAnswer (input : Bytes) (availOut : ℕ) where
  ret : ℤ
  consumed : ℕ
  output : Bytes
  consumed_le : consumed ≤ input.length
  output_le : output.length ≤ availOut

/-- What happens to a stream of the library: a call, or its end. -/
inductive FlateEvent where
  | call (flush : Flush) (input : Bytes) (availOut : ℕ) (answer : FlateAnswer input availOut)
  | ended

/-- The answers of `deflate` or `inflate` by what has happened to the stream. -/
abbrev Codec := List FlateEvent → Flush → (input : Bytes) → (availOut : ℕ) → FlateAnswer input availOut

/-- `deflate`: without an error, a call that leaves space has taken all of its input, and has completed the stream
when there is no more. -/
structure Deflate where
  codec : Codec
  taken : ∀ history flush input availOut, (codec history flush input availOut).ret ≠ Z_STREAM_ERROR →
    (codec history flush input availOut).output.length < availOut →
    (codec history flush input availOut).consumed = input.length
  completed : ∀ history input availOut, (codec history .Z_FINISH input availOut).ret ≠ Z_STREAM_ERROR →
    (codec history .Z_FINISH input availOut).output.length < availOut →
    (codec history .Z_FINISH input availOut).ret = Z_STREAM_END

/-- A stream: what has happened to `m_zstream`, and the used parts of the buffers. -/
structure ZlibStream where
  m_zstream : List FlateEvent
  m_buffSize : ℕ
  m_encode : Bool
  m_buffs : List Bytes

namespace ZlibStream

/-- `Create`, when the library accepts its parameters. -/
def create (encode : Bool) (buffSize : ℕ) : ZlibStream := ⟨[], buffSize, encode, []⟩

/-- The buffers before the one for the next output, and this one: the last one, or a new one when it is full. -/
def resume (z : ZlibStream) : List Bytes × Bytes :=
  match z.m_buffs.getLast? with
  | none => ([], [])
  | some back => if back.length ≠ z.m_buffSize then (z.m_buffs.dropLast, back) else (z.m_buffs, [])

/-- `avail_out` of the next call. -/
def availOut (z : ZlibStream) : ℕ := z.m_buffSize - z.resume.2.length

/-- The next call of the library. -/
def answer (codec : Codec) (flush : Flush) (next_in : Bytes) (z : ZlibStream) : FlateAnswer next_in z.availOut :=
  codec z.m_zstream flush next_in z.availOut

/-- What has happened to `m_zstream` after the next call. -/
def called (codec : Codec) (flush : Flush) (next_in : Bytes) (z : ZlibStream) : List FlateEvent :=
  z.m_zstream ++ [.call flush next_in z.availOut (z.answer codec flush next_in)]

/-- The stream after a call that returns an error. -/
def failed (codec : Codec) (flush : Flush) (next_in : Bytes) (z : ZlibStream) : ZlibStream :=
  { z with m_zstream := z.called codec flush next_in, m_buffs := z.resume.1 ++ [z.resume.2] }

/-- The stream after a call that returns no error. -/
def next (codec : Codec) (flush : Flush) (next_in : Bytes) (z : ZlibStream) : ZlibStream :=
  { z with
    m_zstream := z.called codec flush next_in
    m_buffs := z.resume.1 ++ [z.resume.2 ++ (z.answer codec flush next_in).output] }

/-- The loop of `encode` and `decode` for one buffer: the error that ends it, if any. -/
def flateLoop (codec : Codec) (flush : Flush) : ℕ → Bytes → ZlibStream → Option (Option ℤ × ZlibStream)
  | 0, _, _ => none
  | rounds + 1, next_in, z =>
    let answer := z.answer codec flush next_in
    if answer.ret = Z_STREAM_ERROR then some (some answer.ret, z.failed codec flush next_in)
    else if z.availOut - answer.output.length = 0 then
      flateLoop codec flush rounds (next_in.drop answer.consumed) (z.next codec flush next_in)
    else some (none, z.next codec flush next_in)

/-- The input of a buffer, whose length is stored into the 32 bits of `avail_in`. -/
def availIn (iov : Bytes) : Bytes := iov.take (iov.length % 2 ^ 32)

/-- `flush` for a buffer that is or is not the last one. -/
def flushOf (finish last : Bool) : Flush := if finish then if last then .Z_FINISH else .Z_NO_FLUSH else .Z_NO_FLUSH

/-- The loop of `encode` and `decode` over the buffers. -/
def flateBuffers (codec : Codec) (rounds : ℕ) (finish : Bool) :
    List Bytes → ZlibStream → Option (Option ℤ × ZlibStream)
  | [], z => some (none, z)
  | iov :: v, z =>
    match flateLoop codec (flushOf finish v.isEmpty) rounds (availIn iov) z with
    | none => none
    | some (some ret, z) => some (some ret, z)
    | some (none, z) => flateBuffers codec rounds finish v z

/-- `deflateEnd` or `inflateEnd`. -/
def flateEnd (z : ZlibStream) : ZlibStream := { z with m_zstream := z.m_zstream ++ [.ended] }

/-- `encode` and `decode`, which differ in the function of the library they call. -/
def flate (codec : Codec) (rounds : ℕ) (v : List Bytes) (finish : Bool) (z : ZlibStream) : Option (ℤ × ZlibStream) :=
  match flateBuffers codec rounds finish v z with
  | none => none
  | some (some ret, z) => some (ret, z)
  | some (none, z) => some (Z_OK, if finish && !v.isEmpty then z.flateEnd else z)

section Calls

variable (deflate inflate : Codec) (rounds : ℕ)

/-- `encode(v, size, finish)`. -/
def encode (v : List Bytes) (finish : Bool) (z : ZlibStream) : Option (ℤ × ZlibStream) :=
  flate deflate rounds v finish z

/-- `decode(v, size, finish)`. -/
def decode (v : List Bytes) (finish : Bool) (z : ZlibStream) : Option (ℤ × ZlibStream) :=
  flate inflate rounds v finish z

/-- `write`, with the buffers of the memory or of the byte array it is given. -/
def write (v : List Bytes) (z : ZlibStream) : Option (ℤ × ZlibStream) :=
  if z.m_encode then encode deflate rounds v false z else decode inflate rounds v false z

/-- `flush()`. -/
def flush (z : ZlibStream) : Option (ℤ × ZlibStream) :=
  if z.m_encode then encode deflate rounds [[]] true z else decode inflate rounds [[]] true z

/-- Some calls of `write`, and `flush`. -/
def writeAndFlush : List (List Bytes) → ZlibStream → Option ZlibStream
  | [], z => (flush deflate inflate rounds z).map Prod.snd
  | v :: writes, z =>
    match write deflate inflate rounds v z with
    | none => none
    | some (_, z) => writeAndFlush writes z

end Calls

/-- `getResult()`. -/
def getResult (z : ZlibStream) : Bytes := z.m_buffs.flatten

/-- The writes of `getByteArray`. -/
def putAll (fresh : ByteArray → ℕ → ℕ → UInt8) : List Bytes → ByteArray.Action Unit
  | [] => pure ()
  | buff :: buffs => do
    ByteArray.put fresh buff
    putAll fresh buffs

/-- `getByteArray()`. -/
def getByteArray (content : ℕ → UInt8) (fresh : ByteArray → ℕ → ℕ → UInt8) (z : ZlibStream) :
    Except ByteArrayFault Unit × ByteArray :=
  (do putAll fresh z.m_buffs; ByteArray.seek 0 : ByteArray.Action Unit) (ByteArray.new 4096 content)

/-! ## What has been given to the library -/

/-- The input that has been consumed. -/
def consumed : List FlateEvent → Bytes
  | [] => []
  | .call _ input _ answer :: history => input.take answer.consumed ++ consumed history
  | .ended :: history => consumed history

/-- The output that has been produced. -/
def produced : List FlateEvent → Bytes
  | [] => []
  | .call _ _ _ answer :: history => answer.output ++ produced history
  | .ended :: history => produced history

/-- The results of the calls. -/
def returned : List FlateEvent → List ℤ
  | [] => []
  | .call _ _ _ answer :: history => answer.ret :: returned history
  | .ended :: history => returned history

/-- No call has returned `Z_STREAM_ERROR`. -/
def NoStreamError (history : List FlateEvent) : Prop := Z_STREAM_ERROR ∉ returned history

variable {codec : Codec} {z z' : ZlibStream} {flush : Flush} {input : Bytes} {rounds : ℕ} {error : Option ℤ}
  {history rest : List FlateEvent}

/-- What is consumed later comes behind. -/
@[simp] theorem consumed_append : consumed (history ++ rest) = consumed history ++ consumed rest := by
  induction history with
  | nil => rfl
  | cons event history ih => cases event <;> simp [consumed, ih]

/-- What is produced later comes behind. -/
@[simp] theorem produced_append : produced (history ++ rest) = produced history ++ produced rest := by
  induction history with
  | nil => rfl
  | cons event history ih => cases event <;> simp [produced, ih]

/-- What is returned later comes behind. -/
@[simp] theorem returned_append : returned (history ++ rest) = returned history ++ returned rest := by
  induction history with
  | nil => rfl
  | cons event history ih => cases event <;> simp [returned, ih]

/-- There was no error before. -/
theorem NoStreamError.earlier (h : NoStreamError rest) (hbegins : history <+: rest) : NoStreamError history := by
  obtain ⟨more, rfl⟩ := hbegins
  intro hmem
  refine h ?_
  rw [returned_append]
  exact List.mem_append_left _ hmem

/-! ## The loop for one buffer -/

/-- A property of all that the loop can do: end with an error, end with space left, or go on with the rest. -/
theorem flateLoop_induct {P : Bytes → ZlibStream → Option ℤ → ZlibStream → Prop}
    (hfailed : ∀ input z, (z.answer codec flush input).ret = Z_STREAM_ERROR →
      P input z (some Z_STREAM_ERROR) (z.failed codec flush input))
    (hlast : ∀ input z, (z.answer codec flush input).ret ≠ Z_STREAM_ERROR →
      (z.answer codec flush input).output.length < z.availOut → P input z none (z.next codec flush input))
    (hmore : ∀ input z error z', (z.answer codec flush input).ret ≠ Z_STREAM_ERROR →
      (z.answer codec flush input).output.length = z.availOut →
      P (input.drop (z.answer codec flush input).consumed) (z.next codec flush input) error z' → P input z error z')
    (h : flateLoop codec flush rounds input z = some (error, z')) : P input z error z' := by
  induction rounds generalizing input z with
  | zero => cases h
  | succ rounds ih =>
    have hle := (z.answer codec flush input).output_le
    rw [flateLoop] at h
    split at h
    · rename_i hret
      rw [hret] at h
      cases h
      exact hfailed input z hret
    · rename_i hret
      split at h
      · rename_i hfull
        exact hmore input z error z' hret (by omega) (ih h)
      · rename_i hspace
        cases h
        exact hlast input z hret (by omega)

/-- The history of a stream only grows. -/
theorem begins_flateLoop (h : flateLoop codec flush rounds input z = some (error, z')) :
    z.m_zstream <+: z'.m_zstream := by
  refine flateLoop_induct (P := fun _ z _ z' => z.m_zstream <+: z'.m_zstream) ?_ ?_ ?_ h
  · exact fun input z _ => List.prefix_append _ _
  · exact fun input z _ _ => List.prefix_append _ _
  · exact fun input z error z' _ _ hrest => (List.prefix_append _ _).trans hrest

/-- All buffers but the last are full. -/
structure Buffers (z : ZlibStream) : Prop where
  full : ∀ buff ∈ z.m_buffs.dropLast, buff.length = z.m_buffSize
  fits : ∀ buff ∈ z.m_buffs, buff.length ≤ z.m_buffSize

/-- The buffers hold what has been produced, and all but the last are full. -/
structure Stored (z : ZlibStream) : Prop extends Buffers z where
  output : z.m_buffs.flatten = produced z.m_zstream

/-- The buffer for the next output has space, and the buffers before it are full. -/
theorem Buffers.resume (h : Buffers z) (hb : 1 ≤ z.m_buffSize) :
    (∀ buff ∈ z.resume.1, buff.length = z.m_buffSize) ∧ z.resume.2.length < z.m_buffSize ∧
      z.resume.1.flatten ++ z.resume.2 = z.m_buffs.flatten := by
  unfold ZlibStream.resume
  cases hlast : z.m_buffs.getLast? with
  | none =>
    have hnil := List.getLast?_eq_none_iff.mp hlast
    rw [hnil]
    exact ⟨fun buff hmem => absurd hmem List.not_mem_nil, hb, rfl⟩
  | some back =>
    have hmem : back ∈ z.m_buffs := List.mem_of_getLast? hlast
    have hsplit : z.m_buffs.dropLast ++ [back] = z.m_buffs := List.dropLast_append_getLast? back hlast
    dsimp only
    split
    · rename_i hopen
      refine ⟨h.full, lt_of_le_of_ne (h.fits back hmem) hopen, ?_⟩
      conv_rhs => rw [← hsplit]
      simp
    · rename_i hclosed
      refine ⟨fun buff hin => ?_, hb, List.append_nil _⟩
      rw [← hsplit] at hin
      rcases List.mem_append.mp hin with hbefore | hback
      · exact h.full buff hbefore
      · rw [List.mem_singleton.mp hback]
        exact not_not.mp hclosed

/-- The buffer for the next output, with no more than its space, behind the full ones. -/
theorem Buffers.append (h : Buffers z) (hb : 1 ≤ z.m_buffSize) {output : Bytes} (hle : output.length ≤ z.availOut)
    (m_zstream : List FlateEvent) :
    Buffers { z with m_zstream := m_zstream, m_buffs := z.resume.1 ++ [z.resume.2 ++ output] } := by
  obtain ⟨hfull, hspace, _⟩ := h.resume hb
  refine ⟨fun buff hmem => ?_, fun buff hmem => ?_⟩
  · rw [List.dropLast_concat] at hmem
    exact hfull buff hmem
  · rcases List.mem_append.mp hmem with hbefore | hback
    · exact (hfull buff hbefore).le
    · rw [List.mem_singleton.mp hback, List.length_append]
      unfold availOut at hle
      change _ ≤ z.m_buffSize
      omega

/-- A call that returns no error appends its output. -/
theorem Buffers.next (h : Buffers z) (hb : 1 ≤ z.m_buffSize) : Buffers (z.next codec flush input) :=
  h.append hb (z.answer codec flush input).output_le _

/-- A call that returns an error leaves the buffers as they are. -/
theorem Buffers.failed (h : Buffers z) (hb : 1 ≤ z.m_buffSize) : Buffers (z.failed codec flush input) := by
  have hnone : ([] : Bytes).length ≤ z.availOut := Nat.zero_le _
  have hsame := h.append hb hnone (z.called codec flush input)
  rwa [List.append_nil] at hsame

/-- A call that returns no error keeps the output in the buffers. -/
theorem Stored.next (h : Stored z) (hb : 1 ≤ z.m_buffSize) : Stored (z.next codec flush input) where
  toBuffers := h.toBuffers.next hb
  output := by
    change (z.resume.1 ++ [z.resume.2 ++ _]).flatten = produced (z.called codec flush input)
    rw [List.flatten_append, List.flatten_singleton, ← List.append_assoc, (h.toBuffers.resume hb).2.2, h.output,
      called, produced_append]
    simp [produced]

/-- What the loop does for one buffer when no call returns an error: it gives all of the input to the library, and
has completed the stream when there is no more. -/
structure Given (flush : Flush) (input : Bytes) (z z' : ZlibStream) : Prop where
  stored : Stored z'
  m_buffSize : z'.m_buffSize = z.m_buffSize
  m_encode : z'.m_encode = z.m_encode
  consumed : consumed z'.m_zstream = consumed z.m_zstream ++ input
  completed : flush = .Z_FINISH → (returned z'.m_zstream).getLast? = some Z_STREAM_END

/-- The loop for one buffer. -/
theorem flateLoop_spec (deflate : Deflate) (h : Stored z) (hb : 1 ≤ z.m_buffSize)
    (hok : flateLoop deflate.codec flush rounds input z = some (error, z')) (hclean : NoStreamError z'.m_zstream) :
    error = none ∧ Given flush input z z' := by
  revert h hb hclean
  refine flateLoop_induct (P := fun input z error z' => Stored z → 1 ≤ z.m_buffSize → NoStreamError z'.m_zstream →
    error = none ∧ Given flush input z z') ?_ ?_ ?_ hok
  · intro input z hret _ _ hclean
    refine absurd ?_ hclean
    change Z_STREAM_ERROR ∈ returned (z.called deflate.codec flush input)
    rw [called, returned_append]
    exact List.mem_append_right _ (List.mem_singleton.mpr hret.symm)
  · intro input z hret hspace h hb _
    have htaken := deflate.taken z.m_zstream flush input z.availOut hret hspace
    refine ⟨rfl, h.next hb, rfl, rfl, ?_, ?_⟩
    · change ZlibStream.consumed (z.called deflate.codec flush input) = _
      rw [called, consumed_append]
      change _ ++ (input.take (deflate.codec z.m_zstream flush input z.availOut).consumed ++ []) = _
      rw [htaken, List.take_length, List.append_nil]
    · rintro rfl
      have hend := deflate.completed z.m_zstream input z.availOut hret hspace
      change (returned (z.called deflate.codec .Z_FINISH input)).getLast? = _
      rw [called, returned_append]
      exact (List.getLast?_concat).trans (congrArg some hend)
  · intro input z error z' hret _ ih h hb hclean
    obtain ⟨hnone, hgiven⟩ := ih (h.next hb) hb hclean
    refine ⟨hnone, hgiven.stored, hgiven.m_buffSize, hgiven.m_encode, ?_, hgiven.completed⟩
    rw [hgiven.consumed]
    change ZlibStream.consumed (z.called deflate.codec flush input) ++ _ = _
    rw [called, consumed_append, List.append_assoc]
    change _ ++ ((input.take (z.answer deflate.codec flush input).consumed ++ []) ++ _) = _
    rw [List.append_nil, List.take_append_drop]

/-! ## The loop over the buffers -/

/-- The history of a stream only grows. -/
theorem begins_flateBuffers {finish : Bool} {v : List Bytes}
    (h : flateBuffers codec rounds finish v z = some (error, z')) : z.m_zstream <+: z'.m_zstream := by
  induction v generalizing z with
  | nil =>
    cases h
    exact List.prefix_rfl
  | cons iov v ih =>
    rw [flateBuffers] at h
    split at h
    · cases h
    · rename_i hloop
      cases h
      exact begins_flateLoop hloop
    · rename_i hloop
      exact (begins_flateLoop hloop).trans (ih h)

/-- A buffer that is shorter than 4 GiB is the input as it is. -/
theorem availIn_eq {iov : Bytes} (h : iov.length < 2 ^ 32) : availIn iov = iov := by
  rw [availIn, Nat.mod_eq_of_lt h, List.take_length]

/-- The input of two loops, one after the other. -/
theorem Given.trans {flush' : Flush} {input' : Bytes} {z'' : ZlibStream} (h : Given flush input z z')
    (h' : Given flush' input' z' z'') : Given flush' (input ++ input') z z'' where
  stored := h'.stored
  m_buffSize := h'.m_buffSize.trans h.m_buffSize
  m_encode := h'.m_encode.trans h.m_encode
  consumed := by rw [h'.consumed, h.consumed, List.append_assoc]
  completed := h'.completed

/-- No input. -/
theorem Given.refl (h : Stored z) (hflush : flush ≠ .Z_FINISH) : Given flush [] z z :=
  ⟨h, rfl, rfl, (List.append_nil _).symm, fun heq => absurd heq hflush⟩

/-- The loop over the buffers. -/
theorem flateBuffers_spec (deflate : Deflate) {finish : Bool} {v : List Bytes} (h : Stored z) (hb : 1 ≤ z.m_buffSize)
    (hv : ∀ iov ∈ v, iov.length < 2 ^ 32)
    (hok : flateBuffers deflate.codec rounds finish v z = some (error, z')) (hclean : NoStreamError z'.m_zstream) :
    error = none ∧ Given (flushOf finish !v.isEmpty) v.flatten z z' := by
  induction v generalizing z with
  | nil =>
    cases hok
    exact ⟨rfl, .refl h (by cases finish <;> decide)⟩
  | cons iov v ih =>
    obtain ⟨hiov, hv⟩ := List.forall_mem_cons.mp hv
    rw [flateBuffers, availIn_eq hiov] at hok
    split at hok
    · cases hok
    · rename_i hloop
      cases hok
      have hnone := (flateLoop_spec deflate h hb hloop hclean).1
      cases hnone
    · rename_i hloop
      have hbegins := begins_flateBuffers hok
      obtain ⟨_, hfirst⟩ := flateLoop_spec deflate h hb hloop (hclean.earlier hbegins)
      obtain ⟨hnone, hrest⟩ := ih hfirst.stored (hfirst.m_buffSize ▸ hb) hv hok
      refine ⟨hnone, ?_⟩
      cases v with
      | nil =>
        cases hok
        rw [List.flatten_cons, List.flatten_nil, List.append_nil]
        exact hfirst
      | cons _ _ => exact hfirst.trans hrest

/-- A call of `encode` gives all of its buffers to the library, and ends the stream behind the last ones. -/
theorem flate_spec (deflate : Deflate) {finish : Bool} {v : List Bytes} {ret : ℤ} (h : Stored z)
    (hb : 1 ≤ z.m_buffSize) (hv : ∀ iov ∈ v, iov.length < 2 ^ 32)
    (hok : flate deflate.codec rounds v finish z = some (ret, z')) (hclean : NoStreamError z'.m_zstream) :
    ret = Z_OK ∧ ∃ done, Given (flushOf finish !v.isEmpty) v.flatten z done ∧
      z' = if finish && !v.isEmpty then done.flateEnd else done := by
  unfold flate at hok
  split at hok
  · cases hok
  · rename_i hloop
    cases hok
    have hnone := (flateBuffers_spec deflate h hb hv hloop hclean).1
    cases hnone
  · rename_i done hloop
    cases hok
    have hbegins : done.m_zstream <+: (if finish && !v.isEmpty then done.flateEnd else done).m_zstream := by
      split
      · exact List.prefix_append _ _
      · exact List.prefix_rfl
    exact ⟨rfl, done, (flateBuffers_spec deflate h hb hv hloop (hclean.earlier hbegins)).2, rfl⟩

/-- A call that writes gives all of its buffers to the library. -/
theorem encode_spec (deflate : Deflate) {v : List Bytes} {ret : ℤ} (h : Stored z) (hb : 1 ≤ z.m_buffSize)
    (hv : ∀ iov ∈ v, iov.length < 2 ^ 32) (hok : encode deflate.codec rounds v false z = some (ret, z'))
    (hclean : NoStreamError z'.m_zstream) : ret = Z_OK ∧ Given .Z_NO_FLUSH v.flatten z z' := by
  obtain ⟨hret, done, hgiven, rfl⟩ := flate_spec deflate h hb hv hok hclean
  exact ⟨hret, hgiven⟩

/-- `flush` completes the stream and ends it. -/
theorem flush_spec (deflate : Deflate) (inflate : Codec) {ret : ℤ} (h : Stored z) (hb : 1 ≤ z.m_buffSize)
    (hencode : z.m_encode = true) (hok : ZlibStream.flush deflate.codec inflate rounds z = some (ret, z'))
    (hclean : NoStreamError z'.m_zstream) : ret = Z_OK ∧ ∃ done, Given .Z_FINISH [] z done ∧ z' = done.flateEnd := by
  have hv : ∀ iov ∈ [([] : Bytes)], iov.length < 2 ^ 32 := by
    intro iov hiov
    rw [List.mem_singleton.mp hiov]
    decide
  unfold ZlibStream.flush at hok
  rw [if_pos hencode] at hok
  exact flate_spec deflate h hb hv hok hclean

/-! ## Runs -/

/-- The end of a stream produces nothing. -/
theorem Stored.flateEnd (h : Stored z) : Stored z.flateEnd where
  toBuffers := ⟨h.full, h.fits⟩
  output := by
    change z.m_buffs.flatten = produced (z.m_zstream ++ [.ended])
    rw [produced_append, h.output]
    exact (List.append_nil _).symm

/-- The buffers of a new stream. -/
theorem Stored.create (encode : Bool) (buffSize : ℕ) : Stored (create encode buffSize) where
  full := fun _ hmem => absurd hmem List.not_mem_nil
  fits := fun _ hmem => absurd hmem List.not_mem_nil
  output := rfl

/-- The history of a stream only grows. -/
theorem begins_flate {finish : Bool} {v : List Bytes} {ret : ℤ}
    (h : flate codec rounds v finish z = some (ret, z')) : z.m_zstream <+: z'.m_zstream := by
  unfold flate at h
  split at h
  · cases h
  · rename_i hloop
    cases h
    exact begins_flateBuffers hloop
  · rename_i hloop
    cases h
    split
    · exact (begins_flateBuffers hloop).trans (List.prefix_append _ _)
    · exact begins_flateBuffers hloop

/-- The history of a stream only grows. -/
theorem begins_writeAndFlush {deflate inflate : Codec} {writes : List (List Bytes)}
    (h : writeAndFlush deflate inflate rounds writes z = some z') : z.m_zstream <+: z'.m_zstream := by
  induction writes generalizing z with
  | nil =>
    obtain ⟨⟨ret, z''⟩, hflush, rfl⟩ := Option.map_eq_some_iff.mp h
    unfold ZlibStream.flush at hflush
    split at hflush
    · exact begins_flate hflush
    · exact begins_flate hflush
  | cons v writes ih =>
    rw [writeAndFlush] at h
    split at h
    · cases h
    · rename_i hwrite
      refine List.IsPrefix.trans ?_ (ih h)
      unfold write at hwrite
      split at hwrite
      · exact begins_flate hwrite
      · exact begins_flate hwrite

/-- A stream that some buffers have been written to and that has been flushed. -/
structure Encoded (bytes : Bytes) (z z' : ZlibStream) : Prop where
  stored : Stored z'
  m_buffSize : z'.m_buffSize = z.m_buffSize
  consumed : consumed z'.m_zstream = consumed z.m_zstream ++ bytes
  completed : (returned z'.m_zstream).getLast? = some Z_STREAM_END

/-- Some calls of `write`, and `flush`. -/
theorem writeAndFlush_spec (deflate : Deflate) (inflate : Codec) {writes : List (List Bytes)} (h : Stored z)
    (hb : 1 ≤ z.m_buffSize) (hencode : z.m_encode = true) (hwrites : ∀ v ∈ writes, ∀ iov ∈ v, iov.length < 2 ^ 32)
    (hok : writeAndFlush deflate.codec inflate rounds writes z = some z') (hclean : NoStreamError z'.m_zstream) :
    Encoded writes.flatten.flatten z z' := by
  induction writes generalizing z with
  | nil =>
    obtain ⟨⟨ret, z''⟩, hflush, rfl⟩ := Option.map_eq_some_iff.mp hok
    obtain ⟨_, done, hgiven, rfl⟩ := flush_spec deflate inflate h hb hencode hflush hclean
    refine ⟨hgiven.stored.flateEnd, hgiven.m_buffSize, ?_, ?_⟩
    · change ZlibStream.consumed (done.m_zstream ++ [.ended]) = _
      rw [consumed_append, hgiven.consumed]
      exact List.append_nil _
    · change (returned (done.m_zstream ++ [.ended])).getLast? = _
      rw [returned_append, ← hgiven.completed rfl]
      exact congrArg List.getLast? (List.append_nil _)
  | cons v writes ih =>
    obtain ⟨hv, hwrites⟩ := List.forall_mem_cons.mp hwrites
    rw [writeAndFlush] at hok
    split at hok
    · cases hok
    · rename_i ret next hwrite
      unfold write at hwrite
      rw [if_pos hencode] at hwrite
      obtain ⟨_, hgiven⟩ := encode_spec deflate h hb hv hwrite (hclean.earlier (begins_writeAndFlush hok))
      have hrest := ih hgiven.stored (hgiven.m_buffSize ▸ hb) (hgiven.m_encode.trans hencode) hwrites hok
      refine ⟨hrest.stored, hrest.m_buffSize.trans hgiven.m_buffSize, ?_, hrest.completed⟩
      rw [hrest.consumed, hgiven.consumed, List.append_assoc, ← List.flatten_append, List.flatten_cons]

/-! ## The byte array -/

/-- The writes of `getByteArray` append the buffers. -/
theorem writes_putAll (fresh : ByteArray → ℕ → ℕ → UInt8) (buffs : List Bytes) :
    ByteArray.Writes 4096 (putAll fresh buffs) () buffs.flatten := by
  induction buffs with
  | nil => exact .pure ()
  | cons buff buffs ih => exact (ByteArray.Writes.put (by decide) fresh buff).bind ih

/-- `getByteArray` returns an array with all the buffers, positioned at its beginning. -/
theorem getByteArray_spec (content : ℕ → UInt8) (fresh : ByteArray → ℕ → ℕ → UInt8) (z : ZlibStream) :
    ∃ ba, z.getByteArray content fresh = (.ok (), ba) ∧ ba.contents = z.getResult ∧ ba.position = 0 := by
  obtain ⟨written, hreturns, hend⟩ := writes_putAll fresh z.m_buffs _ _ (ByteArray.AtEnd.new (by decide) content)
  rcases hend.inv.setPosition (by decide) 0 with ⟨hlt, _⟩ | ⟨_, ba, hseek, hinv, hpos, hsize, hsame⟩
  · exact absurd hlt (Nat.not_lt_zero _)
  · refine ⟨ba, Effect.returns_bind.mpr ⟨(), written, hreturns, Effect.returns_of.mpr hseek⟩, ?_, hpos⟩
    have hall : ba.contents.take written.size = ba.contents := List.take_of_length_le (by
      rw [hinv.length_contents]
      omega)
    rw [← hall, hsame, hend.contents]
    rfl

/-! ## The number of rounds -/

/-- A history in which every call is answered by the library. -/
inductive Answered (codec : Codec) : List FlateEvent → Prop
  | nil : Answered codec []
  | call {history : List FlateEvent} (flush : Flush) (input : Bytes) (availOut : ℕ) : Answered codec history →
      Answered codec (history ++ [.call flush input availOut (codec history flush input availOut)])
  | ended {history : List FlateEvent} : Answered codec history → Answered codec (history ++ [.ended])

/-- The output for an input of a length has at most another length. -/
def Bounded (codec : Codec) (n bound : ℕ) : Prop :=
  ∀ history, Answered codec history → (consumed history).length ≤ n → (produced history).length ≤ bound

/-- What loops keep, with or without an error, for an input of a length. -/
structure Kept (codec : Codec) (n : ℕ) (z z' : ZlibStream) : Prop where
  buffers : Buffers z'
  answered : Answered codec z'.m_zstream
  m_buffSize : z'.m_buffSize = z.m_buffSize
  m_encode : z'.m_encode = z.m_encode
  consumed_le : (consumed z'.m_zstream).length ≤ (consumed z.m_zstream).length + n

/-- A call consumes some of its input. -/
theorem length_consumed_called (codec : Codec) (flush : Flush) (input : Bytes) (z : ZlibStream) :
    (consumed (z.called codec flush input)).length =
      (consumed z.m_zstream).length + (z.answer codec flush input).consumed := by
  have hle := (z.answer codec flush input).consumed_le
  rw [called, consumed_append, List.length_append]
  change _ + (input.take (z.answer codec flush input).consumed ++ []).length = _
  rw [List.append_nil, List.length_take_of_le hle]

/-- A call consumes no more than its input. -/
theorem consumed_called_le (codec : Codec) (flush : Flush) (input : Bytes) (z : ZlibStream) :
    (consumed (z.called codec flush input)).length ≤ (consumed z.m_zstream).length + input.length := by
  rw [length_consumed_called]
  exact Nat.add_le_add_left (z.answer codec flush input).consumed_le _

/-- A call produces its output. -/
theorem length_produced_called (codec : Codec) (flush : Flush) (input : Bytes) (z : ZlibStream) :
    (produced (z.called codec flush input)).length =
      (produced z.m_zstream).length + (z.answer codec flush input).output.length := by
  rw [called, produced_append, List.length_append]
  change _ + ((z.answer codec flush input).output ++ []).length = _
  rw [List.append_nil]

/-- The loop for one buffer. -/
theorem kept_flateLoop (hz : Buffers z) (ha : Answered codec z.m_zstream) (hb : 1 ≤ z.m_buffSize)
    (h : flateLoop codec flush rounds input z = some (error, z')) : Kept codec input.length z z' := by
  revert hz ha hb
  refine flateLoop_induct (P := fun input z _ z' => Buffers z → Answered codec z.m_zstream → 1 ≤ z.m_buffSize →
    Kept codec input.length z z') ?_ ?_ ?_ h
  · intro input z _ hz ha hb
    exact ⟨hz.failed hb, ha.call flush input z.availOut, rfl, rfl, consumed_called_le codec flush input z⟩
  · intro input z _ _ hz ha hb
    exact ⟨hz.next hb, ha.call flush input z.availOut, rfl, rfl, consumed_called_le codec flush input z⟩
  · intro input z error z' _ _ ih hz ha hb
    have hrest := ih (hz.next hb) (ha.call flush input z.availOut) hb
    refine ⟨hrest.buffers, hrest.answered, hrest.m_buffSize, hrest.m_encode, ?_⟩
    have hle := (z.answer codec flush input).consumed_le
    have hlength := hrest.consumed_le
    change _ ≤ (consumed (z.called codec flush input)).length + _ at hlength
    rw [length_consumed_called, List.length_drop] at hlength
    omega

/-- The loop for one buffer ends when there are more rounds than output. -/
theorem exists_flateLoop {n bound : ℕ} (hbound : Bounded codec n bound) (hz : Buffers z)
    (ha : Answered codec z.m_zstream) (hb : 1 ≤ z.m_buffSize)
    (hn : (consumed z.m_zstream).length + input.length ≤ n)
    (hrounds : bound < rounds + (produced z.m_zstream).length) :
    ∃ error z', flateLoop codec flush rounds input z = some (error, z') := by
  induction rounds generalizing input z with
  | zero =>
    have hle := hbound z.m_zstream ha (by omega)
    omega
  | succ rounds ih =>
    have hle := (z.answer codec flush input).consumed_le
    have hspace := (hz.resume hb).2.1
    rw [flateLoop]
    split
    · exact ⟨_, _, rfl⟩
    · split
      · rename_i hfull
        refine ih (hz.next hb) (ha.call flush input z.availOut) hb ?_ ?_
        · change (consumed (z.called codec flush input)).length + _ ≤ n
          rw [length_consumed_called, List.length_drop]
          omega
        · change bound < rounds + (produced (z.called codec flush input)).length
          rw [length_produced_called]
          unfold availOut at hfull
          omega
      · exact ⟨_, _, rfl⟩

/-- The loop over the buffers. -/
theorem exists_flateBuffers {n bound : ℕ} (finish : Bool) (v : List Bytes) (hbound : Bounded codec n bound)
    (hz : Buffers z) (ha : Answered codec z.m_zstream) (hb : 1 ≤ z.m_buffSize)
    (hn : (consumed z.m_zstream).length + v.flatten.length ≤ n) :
    ∃ error z', flateBuffers codec (bound + 1) finish v z = some (error, z') ∧ Kept codec v.flatten.length z z' := by
  induction v generalizing z with
  | nil => exact ⟨none, z, rfl, hz, ha, rfl, rfl, Nat.le_refl _⟩
  | cons iov v ih =>
    rw [List.flatten_cons, List.length_append] at hn
    have hin : (availIn iov).length ≤ iov.length := List.length_take_le' _ _
    obtain ⟨error, z', hloop⟩ : ∃ error z',
        flateLoop codec (flushOf finish v.isEmpty) (bound + 1) (availIn iov) z = some (error, z') :=
      exists_flateLoop hbound hz ha hb (by omega) (by omega)
    have hkept := kept_flateLoop hz ha hb hloop
    have hconsumed := hkept.consumed_le
    rw [flateBuffers, hloop, List.flatten_cons, List.length_append]
    cases error with
    | some ret =>
      exact ⟨some ret, z', rfl, hkept.buffers, hkept.answered, hkept.m_buffSize, hkept.m_encode, by omega⟩
    | none =>
      obtain ⟨error, z'', hrest, hkept'⟩ := ih hkept.buffers hkept.answered (hkept.m_buffSize ▸ hb) (by omega)
      have hconsumed' := hkept'.consumed_le
      exact ⟨error, z'', hrest, hkept'.buffers, hkept'.answered, hkept'.m_buffSize.trans hkept.m_buffSize,
        hkept'.m_encode.trans hkept.m_encode, by omega⟩

/-- A call of `encode`. -/
theorem exists_flate {n bound : ℕ} (finish : Bool) (v : List Bytes) (hbound : Bounded codec n bound)
    (hz : Buffers z) (ha : Answered codec z.m_zstream) (hb : 1 ≤ z.m_buffSize)
    (hn : (consumed z.m_zstream).length + v.flatten.length ≤ n) :
    ∃ ret z', flate codec (bound + 1) v finish z = some (ret, z') ∧ Kept codec v.flatten.length z z' := by
  obtain ⟨error, z', hloop, hkept⟩ := exists_flateBuffers finish v hbound hz ha hb hn
  unfold flate
  rw [hloop]
  cases error with
  | some ret => exact ⟨ret, z', rfl, hkept⟩
  | none =>
    refine ⟨_, _, rfl, ?_⟩
    split
    · refine ⟨⟨hkept.buffers.full, hkept.buffers.fits⟩, hkept.answered.ended, hkept.m_buffSize, hkept.m_encode, ?_⟩
      change (consumed (z'.m_zstream ++ [.ended])).length ≤ _
      rw [consumed_append]
      exact (congrArg List.length (List.append_nil _)).trans_le hkept.consumed_le
    · exact hkept

/-- Some calls of `write`, and `flush`, return with more rounds than output. -/
theorem exists_writeAndFlush {deflate : Codec} (inflate : Codec) {n bound : ℕ} {writes : List (List Bytes)}
    (hbound : Bounded deflate n bound) (hz : Buffers z) (ha : Answered deflate z.m_zstream) (hb : 1 ≤ z.m_buffSize)
    (hencode : z.m_encode = true) (hn : (consumed z.m_zstream).length + writes.flatten.flatten.length ≤ n) :
    ∃ z', writeAndFlush deflate inflate (bound + 1) writes z = some z' := by
  induction writes generalizing z with
  | nil =>
    obtain ⟨ret, z', hflush, _⟩ := exists_flate true [[]] hbound hz ha hb hn
    refine ⟨z', ?_⟩
    rw [writeAndFlush, ZlibStream.flush, if_pos hencode, encode, hflush]
    rfl
  | cons v writes ih =>
    rw [List.flatten_cons, List.flatten_append, List.length_append] at hn
    obtain ⟨ret, z', hwrite, hkept⟩ := exists_flate false v hbound hz ha hb (by omega)
    have hconsumed := hkept.consumed_le
    obtain ⟨z'', hrest⟩ := ih hkept.buffers hkept.answered (hkept.m_buffSize ▸ hb)
      (hkept.m_encode.trans hencode) (by omega)
    refine ⟨z'', ?_⟩
    rw [writeAndFlush, write, if_pos hencode, encode, hwrite]
    exact hrest

/-- Any calls of `write` with buffers shorter than 4 GiB, and `flush`, of a new encoding stream. As long as no call of
`deflate` returns `Z_STREAM_ERROR`, the bytes that `deflate` has consumed are those of the buffers in order, the
results are all that it has produced, in order, all buffers but the last are full, and the stream is completed. The
calls return when the output of `deflate` is bounded. -/
theorem writeAndFlush_encodes (deflate : Deflate) (inflate : Codec) {buffSize : ℕ} (hb : 1 ≤ buffSize)
    {writes : List (List Bytes)} (hwrites : ∀ v ∈ writes, ∀ iov ∈ v, iov.length < 2 ^ 32) :
    (∀ rounds z, writeAndFlush deflate.codec inflate rounds writes (create true buffSize) = some z →
      NoStreamError z.m_zstream → consumed z.m_zstream = writes.flatten.flatten ∧
        z.getResult = produced z.m_zstream ∧
        (∀ content fresh, ∃ ba, z.getByteArray content fresh = (.ok (), ba) ∧
          ba.contents = produced z.m_zstream ∧ ba.position = 0) ∧
        (∀ buff ∈ z.m_buffs.dropLast, buff.length = buffSize) ∧
        (returned z.m_zstream).getLast? = some Z_STREAM_END) ∧
    ∀ bound, Bounded deflate.codec writes.flatten.flatten.length bound →
      ∃ z, writeAndFlush deflate.codec inflate (bound + 1) writes (create true buffSize) = some z := by
  constructor
  · intro rounds z hok hclean
    have h := writeAndFlush_spec deflate inflate (.create true buffSize) hb rfl hwrites hok hclean
    refine ⟨h.consumed, h.stored.output, fun content fresh => ?_, fun buff hmem => ?_, h.completed⟩
    · obtain ⟨ba, hok, hcontents, hpos⟩ := getByteArray_spec content fresh z
      exact ⟨ba, hok, hcontents.trans h.stored.output, hpos⟩
    · exact (h.stored.full buff hmem).trans h.m_buffSize
  · intro bound hbound
    exact exists_writeAndFlush inflate hbound (Stored.create true buffSize).toBuffers .nil hb rfl (Nat.zero_add _).le

/-- The last block of a stream without compression. -/
def storedBlock (data : Bytes) : Bytes :=
  1 :: (littleEndian 2 data.length ++ littleEndian 2 (2 ^ 16 - 1 - data.length) ++ data)

/-- What is left to be written of the block. -/
def pending (history : List FlateEvent) (flush : Flush) (input : Bytes) : Bytes :=
  match flush with
  | .Z_NO_FLUSH => []
  | .Z_FINISH => (storedBlock (consumed history ++ input)).drop (produced history).length

/-- `deflate` without compression, for less than 64 KiB. -/
def storing : Deflate where
  codec history flush input availOut :=
    { ret := if flush = .Z_FINISH ∧ (pending history flush input).length ≤ availOut then Z_STREAM_END else Z_OK
      consumed := input.length
      output := (pending history flush input).take availOut
      consumed_le := le_rfl
      output_le := List.length_take_le _ _ }
  taken _ _ _ _ _ _ := rfl
  completed history input availOut _ hspace := by
    rw [List.length_take] at hspace
    exact if_pos ⟨rfl, by omega⟩

/-- A block is five bytes longer than its data. -/
theorem length_storedBlock (data : Bytes) : (storedBlock data).length = data.length + 5 := by
  simp only [storedBlock, List.length_cons, List.length_append, length_littleEndian]
  omega

/-- The output without compression is bounded. -/
theorem bounded_storing (n : ℕ) : Bounded storing.codec n (n + 5) := by
  have hblock : ∀ history, Answered storing.codec history →
      (produced history).length ≤ (consumed history).length + 5 := by
    intro history h
    induction h with
    | nil => exact Nat.zero_le _
    | @call history flush input availOut _ ih =>
      rw [produced_append, consumed_append, List.length_append, List.length_append]
      change _ + (((pending history flush input).take availOut) ++ []).length ≤
        _ + ((input.take input.length) ++ []).length + 5
      rw [List.append_nil, List.append_nil, List.take_length, List.length_take]
      cases flush with
      | Z_NO_FLUSH =>
        change _ + min availOut 0 ≤ _
        omega
      | Z_FINISH =>
        have hlength : (pending history .Z_FINISH input).length =
            (consumed history).length + input.length + 5 - (produced history).length := by
          rw [pending, List.length_drop, length_storedBlock, List.length_append]
        omega
    | ended _ ih => simpa [produced, consumed] using ih
  intro history h hn
  exact (hblock history h).trans (Nat.add_le_add_right hn 5)

/-- A byte that is compressed into buffers of four bytes. -/
theorem writeAndFlush_encodes_oneByte : ∃ z,
    writeAndFlush storing.codec storing.codec 7 [[[7]]] (create true 4) = some z ∧ consumed z.m_zstream = [7] ∧
      z.getResult = produced z.m_zstream ∧ z.m_buffs = [[1, 1, 0, 254], [255, 7]] := by
  obtain ⟨hrun, hreturns⟩ := writeAndFlush_encodes storing storing.codec (by decide : 1 ≤ 4)
    (by decide : ∀ v ∈ [[([7] : Bytes)]], ∀ iov ∈ v, iov.length < 2 ^ 32)
  obtain ⟨z, hok⟩ := hreturns 6 (bounded_storing 1)
  have hbuffs : z.m_buffs = [[1, 1, 0, 254], [255, 7]] ∧ NoStreamError z.m_zstream := by
    cases hok
    unfold NoStreamError
    exact ⟨by decide, by decide⟩
  obtain ⟨hconsumed, hresult, _⟩ := hrun 7 z hok hbuffs.2
  exact ⟨z, hok, hconsumed, hresult, hbuffs.1⟩

/-- A library that accepts nothing. -/
def refusing : Deflate where
  codec _ _ _ _ := ⟨Z_STREAM_ERROR, 0, [], Nat.zero_le _, Nat.zero_le _⟩
  taken _ _ _ _ hret _ := absurd rfl hret
  completed _ _ _ hret _ := absurd rfl hret

/-- After an error the input is not given to the library, and neither is a buffer of 4 GiB. -/
theorem not_encodes_refused :
    (∃ z, writeAndFlush refusing.codec refusing.codec 1 [[[7]]] (create true 4) = some z ∧
      consumed z.m_zstream ≠ [7]) ∧
    ∃ iov : Bytes, iov.length = 2 ^ 32 ∧
      ∃ z, writeAndFlush storing.codec storing.codec 7 [[iov]] (create true 4) = some z ∧
        NoStreamError z.m_zstream ∧ consumed z.m_zstream ≠ iov := by
  constructor
  · exact ⟨_, rfl, by decide⟩
  · obtain ⟨iov, hlength⟩ : ∃ iov : Bytes, iov.length = 2 ^ 32 := ⟨List.replicate (2 ^ 32) 0, List.length_replicate⟩
    have hempty : availIn iov = availIn [] := by
      rw [availIn, hlength, Nat.mod_self, List.take_zero]
      rfl
    have hbuffers : flateBuffers storing.codec 7 false [iov] (create true 4) =
        flateBuffers storing.codec 7 false [[]] (create true 4) := by
      rw [flateBuffers, flateBuffers, hempty]
    have hsame : writeAndFlush storing.codec storing.codec 7 [[iov]] (create true 4) =
        writeAndFlush storing.codec storing.codec 7 [[[]]] (create true 4) := by
      simp only [writeAndFlush, write, encode, decode, flate, hbuffers, Bool.false_and]
    obtain ⟨z, hok, hclean, hconsumed⟩ :
        ∃ z, writeAndFlush storing.codec storing.codec 7 [[[]]] (create true 4) = some z ∧
          Z_STREAM_ERROR ∉ returned z.m_zstream ∧ consumed z.m_zstream = [] := ⟨_, rfl, by decide, by decide⟩
    refine ⟨iov, hlength, z, hsame.trans hok, hclean, fun heq => ?_⟩
    rw [← heq, hconsumed] at hlength
    cases hlength

end ZlibStream

end Bobliew
