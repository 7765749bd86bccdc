import Mathlib.Data.List.Basic
import Mathlib.Tactic.Ring

/-!
# Fixed sizes on streams, in one piece and at a limited speed

`ReadFixFromStreamWithSpeed` and `WriteFixToStreamWithSpeed` transfer a number of bytes in chunks, between which
they sleep; their siblings without a speed transfer what is left at once. A read in chunks comes to the same
as a read in one piece. So does a write, on a stream whose buffer keeps nothing back, as far as the stream goes, but
not its answer: the loop adds the size of a chunk to the offset whether it could be written or not, and answers by
the offset. A chunk that fails is noticed when another one is left to be written.

A speed gives a limit for chunks by a computation in floating point, of which only the lower bound matters.
-/

namespace Bobliew

/-- What a loop asks for when some bytes are left. -/
structure Chunking where
  next : ℕ → ℕ
  pos : ∀ left, 0 < left → 0 < next left
  le : ∀ left, next left ≤ left

namespace Chunking

/-- All that is left. -/
def whole : Chunking := ⟨id, fun _ h => h, fun _ => Nat.le_refl _⟩

/-- The limit for chunks of a speed: `max(ceil(speed / 100.0), 1024 * 64)`. -/
abbrev Limit := {per : ℕ // 1024 * 64 ≤ per}

/-- No more than the limit. -/
def limited (per : Limit) : Chunking where
  next left := if left > per.val then per.val else left
  pos left h := by
    have := per.property
    split <;> omega
  le left := by split <;> omega

end Chunking

/-! ## Reading -/

/-- A `std::istream`: the bytes that are left to read, and whether it is neither at its end nor failed. -/
structure InStream where
  rest : List UInt8
  good : Bool

namespace InStream

/-- `read` and `gcount`: the bytes that are stored, and the stream behind them. -/
def read (is : InStream) (n : ℕ) : List UInt8 × InStream :=
  if is.good then
    if n ≤ is.rest.length then (is.rest.take n, ⟨is.rest.drop n, true⟩) else (is.rest, ⟨[], false⟩)
  else ([], is)

/-- A stream that is not good is left alone. -/
theorem read_of_not_good {is : InStream} (h : ¬is.good = true) (n : ℕ) : is.read n = ([], is) := by
  rw [read, if_neg h]

/-- Every read of at least one byte takes a byte or makes the stream fail. -/
theorem read_lt {is : InStream} (h : is.good = true) {n : ℕ} (hn : 0 < n) :
    (is.read n).2.rest.length + (is.read n).2.good.toNat < is.rest.length + is.good.toNat := by
  rw [read, if_pos h, h]
  split
  · next hle =>
      rw [List.length_drop]
      exact Nat.add_lt_add_right (Nat.sub_lt (by omega) hn) 1
  · exact Nat.lt_add_left is.rest.length Nat.one_pos

/-- The loop of the readers. The memory is what has been stored in front of the offset. -/
def readLoop (chunking : Chunking) (size : ℕ) (is : InStream) (data : List UInt8) : List UInt8 × InStream :=
  if is.good ∧ data.length < size then
    let got := is.read (chunking.next (size - data.length))
    readLoop chunking size got.2 (data ++ got.1)
  else (data, is)
termination_by is.rest.length + is.good.toNat
decreasing_by
  next h => exact read_lt h.1 (chunking.pos _ (Nat.sub_pos_of_lt h.2))

/-- `ReadFixFromStream`: the result, the bytes that were stored, and the stream. -/
def readFixFromStream (is : InStream) (size : ℕ) : Bool × List UInt8 × InStream :=
  let got := readLoop .whole size is []
  (decide (got.1.length = size), got)

/-- `ReadFixFromStreamWithSpeed`. -/
def readFixFromStreamWithSpeed (per : Chunking.Limit) (is : InStream) (size : ℕ) : Bool × List UInt8 × InStream :=
  let got := readLoop (.limited per) size is []
  (decide (got.1.length = size), got)

/-- A read of two sizes, one after the other, is a read of their sum. -/
theorem read_add (is : InStream) (m n : ℕ) :
    is.read (m + n) = ((is.read m).1 ++ ((is.read m).2.read n).1, ((is.read m).2.read n).2) := by
  by_cases hgood : is.good = true
  · by_cases hm : m ≤ is.rest.length
    · have hfirst : is.read m = (is.rest.take m, ⟨is.rest.drop m, true⟩) := by rw [read, if_pos hgood, if_pos hm]
      rw [hfirst, read, if_pos hgood]
      simp only [read, if_true, List.length_drop]
      by_cases hn : m + n ≤ is.rest.length
      · rw [if_pos hn, if_pos (by omega), List.take_add, List.drop_drop]
      · rw [if_neg hn, if_neg (by omega), List.take_append_drop]
    · have hfirst : is.read m = (is.rest, ⟨[], false⟩) := by rw [read, if_pos hgood, if_neg hm]
      rw [hfirst, read, if_pos hgood, if_neg (by omega), read_of_not_good Bool.false_ne_true, List.append_nil]
  · rw [read_of_not_good hgood, read_of_not_good hgood, read_of_not_good hgood]
    rfl

/-- A read brings what it is asked for, or makes the stream fail, and never brings more. -/
theorem length_read (is : InStream) (n : ℕ) :
    (is.read n).1.length ≤ n ∧ ((is.read n).1.length = n ∨ ¬(is.read n).2.good = true) := by
  by_cases hgood : is.good = true
  · rw [read, if_pos hgood]
    split
    · next hle => exact ⟨List.length_take_le n is.rest, .inl (List.length_take_of_le hle)⟩
    · next hlt => exact ⟨(Nat.lt_of_not_le hlt).le, .inr Bool.false_ne_true⟩
  · rw [read_of_not_good hgood]
    exact ⟨Nat.zero_le n, .inr hgood⟩

/-- The loop stores what one read of all that is left stores, and leaves the stream as it does. -/
theorem readLoop_eq (chunking : Chunking) (size : ℕ) (is : InStream) (data : List UInt8)
    (hdata : data.length ≤ size) :
    readLoop chunking size is data =
      (data ++ (is.read (size - data.length)).1, (is.read (size - data.length)).2) := by
  induction is, data using readLoop.induct chunking size with
  | case1 is data h got ih =>
      obtain ⟨hle, hfull⟩ : got.1.length ≤ chunking.next (size - data.length) ∧
          (got.1.length = chunking.next (size - data.length) ∨ ¬got.2.good = true) := is.length_read _
      have hnext := chunking.le (size - data.length)
      have hsum : chunking.next (size - data.length) + (size - data.length - chunking.next (size - data.length)) =
          size - data.length := Nat.add_sub_cancel' hnext
      have hall := is.read_add (chunking.next (size - data.length))
        (size - data.length - chunking.next (size - data.length))
      rw [hsum] at hall
      have hlength : (data ++ got.1).length = data.length + got.1.length := List.length_append
      have hrest : got.2.read (size - (data ++ got.1).length) =
          got.2.read (size - data.length - chunking.next (size - data.length)) := by
        rcases hfull with hfull | hfull
        · rw [hlength, Nat.sub_add_eq, hfull]
        · rw [read_of_not_good hfull, read_of_not_good hfull]
      rw [readLoop, if_pos h, ih (by omega), hrest, hall, List.append_assoc]
  | case2 is data h =>
      rw [readLoop, if_neg h]
      by_cases hgood : is.good = true
      · have hdone : size - data.length = 0 := Nat.sub_eq_zero_of_le (Nat.le_of_not_lt fun hlt => h ⟨hgood, hlt⟩)
        rw [hdone, read, if_pos hgood, if_pos (Nat.zero_le _), List.take_zero, List.append_nil, List.drop_zero]
        exact congrArg (Prod.mk data) (by rw [← hgood])
      · rw [read_of_not_good hgood, List.append_nil]

/-- Reading at a limited speed is reading: the same answer, the same bytes, and the same stream behind them. All
that was asked for is there if and only if the stream has it. -/
theorem readFixFromStreamWithSpeed_eq (per : Chunking.Limit) (is : InStream) (size : ℕ) :
    readFixFromStreamWithSpeed per is size = readFixFromStream is size ∧
      (readFixFromStream is size).2 = is.read size ∧
      ((readFixFromStream is size).1 = true ↔ size = 0 ∨ is.good = true ∧ size ≤ is.rest.length) := by
  have hloop : ∀ chunking : Chunking, readLoop chunking size is [] = is.read size := fun chunking => by
    rw [readLoop_eq chunking size is [] (Nat.zero_le size)]
    rfl
  rw [readFixFromStreamWithSpeed, readFixFromStream, hloop, hloop]
  refine ⟨rfl, rfl, ?_⟩
  rw [decide_eq_true_eq]
  by_cases hgood : is.good = true
  · rw [read, if_pos hgood]
    split
    · next hle => exact iff_of_true (List.length_take_of_le hle) (.inr ⟨hgood, hle⟩)
    · next hlt =>
        refine iff_of_false (fun heq : is.rest.length = size => hlt heq.ge) fun h => ?_
        rcases h with rfl | h
        · exact hlt (Nat.zero_le _)
        · exact hlt h.2
  · rw [read_of_not_good hgood]
    simp [hgood, eq_comm]

end InStream

/-! ## Writing -/

/-- What `write` does on a `std::ostream` that works: whether its stream buffer has taken all, and the buffer. -/
abbrev Sink (Buf : Type) := Buf → List UInt8 → Bool × Buf

/-- Two writes, one after the other, are one: nothing is kept back. -/
structure Sink.Joins {Buf : Type} (sink : Sink Buf) : Prop where
  nil : ∀ buf, sink buf [] = (true, buf)
  append : ∀ buf a b, sink buf (a ++ b) = if (sink buf a).1 then sink (sink buf a).2 b else sink buf a

/-- A `std::ostream`: its stream buffer, and whether no write has failed. -/
structure OutStream (Buf : Type) where
  rdbuf : Buf
  good : Bool

namespace Chunking

/-- The chunks of what is written. -/
def chunks (chunking : Chunking) (data : List UInt8) : List (List UInt8) :=
  if data = [] then []
  else data.take (chunking.next data.length) :: chunking.chunks (data.drop (chunking.next data.length))
termination_by data.length
decreasing_by
  next h =>
    have hpos := List.length_pos_of_ne_nil h
    rw [List.length_drop]
    exact Nat.sub_lt hpos (chunking.pos _ hpos)

/-- There are no chunks of nothing. -/
theorem chunks_nil (chunking : Chunking) : chunking.chunks [] = [] := by
  rw [chunks, if_pos rfl]

/-- The first chunk of something. -/
theorem chunks_of_ne_nil (chunking : Chunking) {data : List UInt8} (h : data ≠ []) :
    chunking.chunks data =
      data.take (chunking.next data.length) :: chunking.chunks (data.drop (chunking.next data.length)) := by
  rw [chunks, if_neg h]

/-- The chunks make up the data. -/
theorem flatten_chunks (chunking : Chunking) (data : List UInt8) : (chunking.chunks data).flatten = data := by
  induction data using chunks.induct chunking with
  | case1 => rw [chunks_nil, List.flatten_nil]
  | case2 data h ih => rw [chunks_of_ne_nil chunking h, List.flatten_cons, ih, List.take_append_drop]

end Chunking

namespace OutStream

variable {Buf : Type} (sink : Sink Buf)

/-- `write`. -/
def write (os : OutStream Buf) (data : List UInt8) : OutStream Buf :=
  if os.good then ⟨(sink os.rdbuf data).2, (sink os.rdbuf data).1⟩ else os

/-- The loop of the writer: the offset it ends at, and the stream. -/
def writeLoop (chunking : Chunking) (data : List UInt8) (os : OutStream Buf) (offset : ℕ) : ℕ × OutStream Buf :=
  if os.good ∧ offset < data.length then
    let s := chunking.next (data.length - offset)
    writeLoop chunking data (os.write sink ((data.drop offset).take s)) (offset + s)
  else (offset, os)
termination_by data.length - offset
decreasing_by
  next h => exact Nat.sub_lt_sub_left h.2 (Nat.lt_add_of_pos_right (chunking.pos _ (Nat.sub_pos_of_lt h.2)))

/-- `WriteFixToStreamWithSpeed`. -/
def writeFixToStreamWithSpeed (per : Chunking.Limit) (os : OutStream Buf) (data : List UInt8) :
    Bool × OutStream Buf :=
  let done := writeLoop sink (.limited per) data os 0
  (decide (done.1 = data.length), done.2)

/-- `WriteToStreamWithSpeed`. -/
def writeToStreamWithSpeed (per : Chunking.Limit) (os : OutStream Buf) (data : List UInt8) : Bool × OutStream Buf :=
  if os.good then writeFixToStreamWithSpeed sink per os data else (false, os)

/-- `WriteToStream`. -/
def writeToStream (os : OutStream Buf) (data : List UInt8) : Bool × OutStream Buf :=
  if !os.good then (false, os) else ((os.write sink data).good, os.write sink data)

/-- Some writes, one after the other. -/
def writeAll (os : OutStream Buf) (pieces : List (List UInt8)) : OutStream Buf := pieces.foldl (write sink) os

variable {sink}

/-- A stream on which a write has failed is left alone. -/
theorem write_of_not_good {os : OutStream Buf} (h : ¬os.good = true) (data : List UInt8) :
    os.write sink data = os := by
  rw [write, if_neg h]

/-- By all writes as well. -/
theorem writeAll_of_not_good {os : OutStream Buf} (h : ¬os.good = true) (pieces : List (List UInt8)) :
    os.writeAll sink pieces = os := by
  induction pieces with
  | nil => rfl
  | cons piece pieces ih => rw [writeAll, List.foldl_cons, write_of_not_good h, ← writeAll, ih]

/-- A stream that works after all writes worked before the last one. -/
theorem good_dropLast {os : OutStream Buf} {pieces : List (List UInt8)} (h : (os.writeAll sink pieces).good = true) :
    (os.writeAll sink pieces.dropLast).good = true := by
  rcases List.eq_nil_or_concat pieces with rfl | ⟨earlier, last, rfl⟩
  · exact h
  · rw [List.concat_eq_append, List.dropLast_concat]
    rw [List.concat_eq_append, writeAll, List.foldl_concat, ← writeAll] at h
    by_contra hbad
    rw [write_of_not_good hbad] at h
    exact hbad h

/-- Writes without a buffer are one write of all they write. -/
theorem writeAll_of_joins (hjoins : sink.Joins) (os : OutStream Buf) (pieces : List (List UInt8)) :
    os.writeAll sink pieces = os.write sink pieces.flatten := by
  by_cases hgood : os.good = true
  · induction pieces generalizing os with
    | nil =>
      obtain ⟨rdbuf, good⟩ := os
      cases hgood
      rw [writeAll, List.foldl_nil, List.flatten_nil, write, if_pos rfl, hjoins.nil]
    | cons piece pieces ih =>
      rw [writeAll, List.foldl_cons, ← writeAll, List.flatten_cons]
      by_cases hfirst : (sink os.rdbuf piece).1 = true
      · have hnext : os.write sink piece = ⟨(sink os.rdbuf piece).2, true⟩ := by rw [write, if_pos hgood, hfirst]
        rw [ih _ (by rw [hnext]), hnext, write, if_pos rfl, write, if_pos hgood, hjoins.append, if_pos hfirst]
      · have hlast : ¬(os.write sink piece).good = true := by rwa [write, if_pos hgood]
        rw [writeAll_of_not_good hlast, write, if_pos hgood, write, if_pos hgood, hjoins.append, if_neg hfirst]
  · rw [writeAll_of_not_good hgood, write_of_not_good hgood]

/-- **What the loop does.** It writes the chunks one after the other. It reaches the end if and only if the stream
works when the last one is left. -/
theorem writeLoop_spec (chunking : Chunking) (data : List UInt8) (os : OutStream Buf) (offset : ℕ)
    (hoffset : offset ≤ data.length) :
    (writeLoop sink chunking data os offset).2 = os.writeAll sink (chunking.chunks (data.drop offset)) ∧
      ((writeLoop sink chunking data os offset).1 = data.length ↔
        offset = data.length ∨ (os.writeAll sink (chunking.chunks (data.drop offset)).dropLast).good = true) := by
  induction os, offset using writeLoop.induct sink chunking data with
  | case1 os offset h s ih =>
    obtain ⟨hgood, hlt⟩ := h
    have hs : s ≤ data.length - offset := chunking.le _
    have hsome : data.drop offset ≠ [] := List.ne_nil_of_length_pos (by rw [List.length_drop]; omega)
    have hchunks : chunking.chunks (data.drop offset) =
        (data.drop offset).take s :: chunking.chunks (data.drop (offset + s)) := by
      rw [chunking.chunks_of_ne_nil hsome, List.drop_drop, List.length_drop]
    obtain ⟨hstream, hend⟩ := ih (by omega)
    rw [writeLoop, if_pos ⟨hgood, hlt⟩, hchunks]
    refine ⟨hstream, ?_⟩
    rw [or_iff_right (Nat.ne_of_lt hlt)]
    refine hend.trans ?_
    by_cases hlast : offset + s = data.length
    · rw [List.drop_of_length_le (Nat.le_of_eq hlast.symm), chunking.chunks_nil]
      exact iff_of_true (.inl hlast) hgood
    · have hmore : chunking.chunks (data.drop (offset + s)) ≠ [] := by
        rw [chunking.chunks_of_ne_nil (List.ne_nil_of_length_pos (by rw [List.length_drop]; omega))]
        exact List.cons_ne_nil _ _
      rw [or_iff_right hlast, List.dropLast_cons_of_ne_nil hmore]
      rfl
  | case2 os offset h =>
    rw [writeLoop, if_neg h]
    by_cases hgood : os.good = true
    · have hdone : offset = data.length := Nat.le_antisymm hoffset (Nat.le_of_not_lt fun hlt => h ⟨hgood, hlt⟩)
      rw [List.drop_of_length_le (Nat.le_of_eq hdone.symm), chunking.chunks_nil]
      exact ⟨rfl, iff_of_true hdone (.inl hdone)⟩
    · rw [writeAll_of_not_good hgood, writeAll_of_not_good hgood]
      exact ⟨rfl, (or_iff_left hgood).symm⟩

/-- **Writing at a limited speed,** for any stream buffer. The chunks are written one after the other, and the answer is
that all has been written if and only if the stream works when the last chunk is left, whatever becomes of that one.
With a buffer that keeps nothing back the stream is left as by a write in one piece, and the answers of both differ if
and only if it is the write of the last chunk that fails. -/
theorem writeToStreamWithSpeed_iff (sink : Sink Buf) (per : Chunking.Limit) (os : OutStream Buf) (data : List UInt8) :
    let chunks := (Chunking.limited per).chunks data
    (writeToStreamWithSpeed sink per os data).2 = os.writeAll sink chunks ∧
      ((writeToStreamWithSpeed sink per os data).1 = true ↔ (os.writeAll sink chunks.dropLast).good = true) ∧
      (sink.Joins → (writeToStreamWithSpeed sink per os data).2 = (writeToStream sink os data).2 ∧
        ((writeToStreamWithSpeed sink per os data).1 ≠ (writeToStream sink os data).1 ↔
          (os.writeAll sink chunks.dropLast).good = true ∧ (os.writeAll sink chunks).good = false)) := by
  intro chunks
  have hspec : (writeToStreamWithSpeed sink per os data).2 = os.writeAll sink chunks ∧
      ((writeToStreamWithSpeed sink per os data).1 = true ↔ (os.writeAll sink chunks.dropLast).good = true) := by
    by_cases hgood : os.good = true
    · obtain ⟨hstream, hend⟩ := writeLoop_spec (Chunking.limited per) data os 0 (Nat.zero_le _)
      rw [List.drop_zero] at hstream hend
      rw [writeToStreamWithSpeed, if_pos hgood, writeFixToStreamWithSpeed, decide_eq_true_iff]
      refine ⟨hstream, hend.trans (or_iff_right_of_imp fun hnone => ?_)⟩
      have hnil : data = [] := List.length_eq_zero_iff.mp hnone.symm
      rw [hnil, Chunking.chunks_nil]
      exact hgood
    · rw [writeToStreamWithSpeed, if_neg hgood, writeAll_of_not_good hgood, writeAll_of_not_good hgood]
      exact ⟨rfl, iff_of_false Bool.false_ne_true hgood⟩
  refine ⟨hspec.1, hspec.2, fun hjoins => ?_⟩
  have hwhole : writeToStream sink os data = ((os.writeAll sink chunks).good, os.writeAll sink chunks) := by
    rw [writeAll_of_joins hjoins, Chunking.flatten_chunks, writeToStream]
    cases hgood : os.good with
    | true => rfl
    | false =>
      rw [write_of_not_good (Bool.eq_false_iff.mp hgood), hgood]
      rfl
  rw [hwhole, hspec.1]
  refine ⟨rfl, ?_⟩
  rw [Ne, Bool.eq_iff_iff, hspec.2, ← Bool.not_eq_true]
  have hearlier : (os.writeAll sink chunks).good = true → (os.writeAll sink chunks.dropLast).good = true :=
    good_dropLast
  tauto

/-- A file without a buffer, with what has been written and how many more bytes there is room for. -/
def unbuffered : Sink (List UInt8 × ℕ) := fun file data =>
  (decide (data.length ≤ file.2), file.1 ++ data.take file.2, file.2 - data.length)

/-- It keeps nothing back. -/
theorem joins_unbuffered : unbuffered.Joins where
  nil file := by simp [unbuffered]
  append file a b := by
    simp only [unbuffered, List.length_append, decide_eq_true_iff]
    split_ifs with hroom
    · rw [List.take_append, List.take_of_length_le hroom, List.append_assoc, Nat.sub_add_eq]
      exact congrArg (Prod.mk · _) (decide_eq_decide.mpr (by omega))
    · rw [List.take_append_of_le_length (by omega), Nat.sub_eq_zero_of_le (by omega),
        Nat.sub_eq_zero_of_le (by omega), decide_eq_false hroom, decide_eq_false (by omega)]

/-- A byte for a file without room: only the answer at a limited speed is that it has been written. -/
theorem writeToStreamWithSpeed_full :
    (writeToStreamWithSpeed unbuffered ⟨65536, by decide⟩ ⟨([], 0), true⟩ [97]).1 ≠
      (writeToStream unbuffered ⟨([], 0), true⟩ [97]).1 := by
  obtain ⟨-, -, hjoined⟩ := writeToStreamWithSpeed_iff unbuffered ⟨65536, by decide⟩ ⟨([], 0), true⟩ [97]
  have hchunks : (Chunking.limited ⟨65536, by decide⟩).chunks [97] = [[97]] := by
    rw [Chunking.chunks_of_ne_nil _ (List.cons_ne_nil 97 [])]
    exact congrArg (List.cons [97]) (Chunking.chunks_nil _)
  rw [hchunks] at hjoined
  exact (hjoined joins_unbuffered).2.mpr ⟨rfl, rfl⟩

end OutStream

end Bobliew
