import Bobliew.Http.RequestParser

/-!
# Receiving a request

`HttpSession::recvRequest` reads into a buffer, runs the parser over what it holds, and keeps the bytes
the parser has not consumed, until the head is finished; then it collects the body that the head
announces. The socket is the list of the pieces that arrive: a read returns the next piece, or as much
of it as was asked for, and an empty piece or none ends the connection.

Next to the outcome the calls of `execute` are recorded, each with the parser state and the data it was
given. `boost::lexical_cast<uint64_t>` is a parameter of the model.
-/

namespace Bobliew.Http

/-- A configured buffer size that fits the `int` it is compared with. -/
structure BufferSize where
  size : ℕ
  pos : 0 < size
  fits : size < 2 ^ 31

/-- `read` of at most `n` bytes; `none` when it returns no bytes. -/
def readSome (n : ℕ) : List Bytes → Option (Bytes × List Bytes)
  | [] => none
  | piece :: pieces =>
    if piece = [] ∨ n = 0 then none
    else if piece.length ≤ n then some (piece, pieces)
    else some (piece.take n, piece.drop n :: pieces)

/-- `readFixSize` without the conversion of its result. -/
def readFixSize : ℕ → List Bytes → Option (Bytes × List Bytes)
  | 0, pieces => some ([], pieces)
  | _ + 1, [] => none
  | n + 1, piece :: pieces =>
    if piece = [] then none
    else if piece.length ≤ n + 1 then
      (readFixSize (n + 1 - piece.length) pieces).map fun got => (piece ++ got.1, got.2)
    else some (piece.take (n + 1), piece.drop (n + 1) :: pieces)

/-- A read returns bytes, and no more than were asked for. -/
theorem readSome_eq_some {m : ℕ} {pieces pieces' : List Bytes} {got : Bytes}
    (h : readSome m pieces = some (got, pieces')) : got ≠ [] ∧ got.length ≤ m := by
  cases pieces with
  | nil => cases h
  | cons piece pieces =>
    simp only [readSome] at h
    split at h
    · cases h
    · rename_i hne
      rw [not_or] at hne
      split at h
      · rename_i hle
        obtain ⟨rfl, rfl⟩ := Prod.mk.inj (Option.some.inj h)
        exact ⟨hne.1, hle⟩
      · obtain ⟨rfl, rfl⟩ := Prod.mk.inj (Option.some.inj h)
        refine ⟨fun hnil => ?_, by simp⟩
        rcases List.take_eq_nil_iff.mp hnil with hm | hpiece
        · exact hne.2 hm
        · exact hne.1 hpiece

/-- A read takes its bytes from the front of what arrives. -/
theorem readSome_append {m : ℕ} {pieces pieces' : List Bytes} {got : Bytes}
    (h : readSome m pieces = some (got, pieces')) : got ++ pieces'.flatten = pieces.flatten := by
  cases pieces with
  | nil => cases h
  | cons piece pieces =>
    simp only [readSome] at h
    split at h
    · cases h
    · split at h
      · obtain ⟨rfl, rfl⟩ := Prod.mk.inj (Option.some.inj h)
        rfl
      · obtain ⟨rfl, rfl⟩ := Prod.mk.inj (Option.some.inj h)
        simp [← List.append_assoc]

/-- `readFixSize` takes as many bytes as it is asked for from the front of what arrives. -/
theorem readFixSize_append {n : ℕ} {pieces pieces' : List Bytes} {got : Bytes}
    (h : readFixSize n pieces = some (got, pieces')) :
    got.length = n ∧ got ++ pieces'.flatten = pieces.flatten := by
  induction pieces generalizing n got with
  | nil =>
    cases n with
    | zero =>
      cases h
      exact ⟨rfl, rfl⟩
    | succ n => cases h
  | cons piece pieces ih =>
    cases n with
    | zero =>
      cases h
      exact ⟨rfl, rfl⟩
    | succ n =>
      simp only [readFixSize] at h
      split at h
      · cases h
      · split at h
        · rename_i hle
          obtain ⟨⟨rest, left⟩, hrest, hpair⟩ := Option.map_eq_some_iff.mp h
          obtain ⟨rfl, rfl⟩ := Prod.mk.inj hpair
          obtain ⟨hlength, happend⟩ := ih hrest
          refine ⟨?_, by rw [List.append_assoc, happend, List.flatten_cons]⟩
          rw [List.length_append, hlength]
          omega
        · obtain ⟨rfl, rfl⟩ := Prod.mk.inj (Option.some.inj h)
          refine ⟨?_, by simp [← List.append_assoc]⟩
          rw [List.length_take]
          omega

/-- The arguments of a call of `execute`. -/
structure ExecuteCall where
  before : HttpRequestParser
  data : Bytes

/-- How the loop over the head ends: a null result, an exception, or a finished parser with the bytes
left in the buffer and the pieces that have not been read. -/
inductive HeadOutcome where
  | null
  | thrown
  | finished (p : HttpRequestParser) (left : Bytes) (pieces : List Bytes)

/-- The loop over the head, with the calls of `execute` it makes. Every round reads at least one byte,
so the number of rounds is bounded by the bytes that arrive. -/
def recvHead (buffSize : BufferSize) :
    ℕ → HttpRequestParser → Bytes → List Bytes → List ExecuteCall × HeadOutcome
  | 0, _, _, _ => ([], .null)
  | rounds + 1, p, left, pieces =>
    match readSome (buffSize.size - left.length) pieces with
    | none => ([], .null)
    | some (got, pieces') =>
      let data := left ++ got
      let e := p.execute data
      if e.thrown then ([⟨p, data⟩], .thrown)
      else if e.self.hasError then ([⟨p, data⟩], .null)
      else
        let left' := data.drop e.nparse
        if left'.length = buffSize.size then ([⟨p, data⟩], .null)
        else if e.self.isFinished then ([⟨p, data⟩], .finished e.self left' pieces')
        else
          let next := recvHead buffSize rounds e.self left' pieces'
          (⟨p, data⟩ :: next.1, next.2)

/-- What `recvRequest` returns, or that it throws. -/
inductive Received where
  | null
  | thrown
  | request (r : HttpRequest)

/-- A `uint64_t` converted to `int64_t`. -/
def toInt64 (n : ℕ) : ℤ :=
  if n % 2 ^ 64 < 2 ^ 63 then (n % 2 ^ 64 : ℕ) else (n % 2 ^ 64 : ℕ) - 2 ^ 64

/-- A `size_t` converted to `int`. -/
def toInt32 (n : ℕ) : ℤ :=
  if n % 2 ^ 32 < 2 ^ 31 then (n % 2 ^ 32 : ℕ) else (n % 2 ^ 32 : ℕ) - 2 ^ 32

/-- `std::string::max_size`. -/
def stringMaxSize : ℕ := 2 ^ 62 - 1

/-- `getContentLength`, as the `int64_t` that `recvRequest` makes of it. -/
def HttpRequest.contentLength (lexicalCast : Bytes → Option ℕ) (r : HttpRequest) : ℤ :=
  toInt64 (((r.headers.find
    (asciiText ['c', 'o', 'n', 't', 'e', 'n', 't', '-', 'l', 'e', 'n', 'g', 't', 'h'])).bind lexicalCast).getD 0)

/-- The body of a request, from what is left in the buffer and from further reads. -/
def recvBody (length : ℕ) (left : Bytes) (pieces : List Bytes) (r : HttpRequest) : Received :=
  if length > stringMaxSize then .thrown
  else if length ≤ left.length then .request { r with body := left.take length }.init
  else
    match readFixSize (length - left.length) pieces with
    | none => .null
    | some (got, _) =>
      if toInt32 (length - left.length) ≤ 0 then .null
      else .request { r with body := left ++ got }.init

/-- `HttpSession::recvRequest`, with the calls of `execute` it makes. -/
def recvRequest (lexicalCast : Bytes → Option ℕ) (uriRelaxed : Bool) (queryStart : ℕ) (buffSize : BufferSize)
    (pieces : List Bytes) : List ExecuteCall × Received :=
  let head := recvHead buffSize ((pieces.map (·.length)).sum + 1) (.fresh uriRelaxed queryStart) [] pieces
  (head.1,
    match head.2 with
    | .null => .null
    | .thrown => .thrown
    | .finished p left pieces' =>
      let length := p.data.contentLength lexicalCast
      if length > 0 then recvBody length.toNat left pieces' p.data else .request p.data.init)

end Bobliew.Http
