import Bobliew.Http.RequestSession
import Bobliew.Http.ResponseParser

/-!
# Receiving a response

`HttpConnection::recvResponse` reads a response head as `recvRequest` reads a request head. If the head
announces chunks, it then collects them: the inner loop runs the parser over the buffer until a size
line is finished, and the chunk is taken out of the buffer if it is already there, or read from the
socket otherwise. The counter `len` of the bytes in the buffer is shared by all these loops, and every
value it takes is recorded, as are the bytes that are taken for a size line.

A negative `len` makes `append` throw, or lets `read` write in front of the buffer. What follows the
latter is not defined. The decoders behind `content-encoding` are a parameter.
-/

namespace Bobliew.Http

/-! ## The head -/

/-- How the loop over the head ends. -/
inductive ResponseHead where
  | null
  | thrown
  | finished (p : HttpResponseParser) (left : Bytes) (pieces : List Bytes)

/-- The loop over the head of a response. -/
def recvResponseHead (buffSize : BufferSize) : ℕ → HttpResponseParser → Bytes → List Bytes → ResponseHead
  | 0, _, _, _ => .null
  | rounds + 1, p, left, pieces =>
    match readSome (buffSize.size - left.length) pieces with
    | none => .null
    | some (got, pieces') =>
      let data := left ++ got
      let e := p.execute data false
      if e.thrown then .thrown
      else if e.self.hasError then .null
      else
        let left' := data.drop e.nparse
        if left'.length = buffSize.size then .null
        else if e.self.isFinished then .finished e.self left' pieces'
        else recvResponseHead buffSize rounds e.self left' pieces'

/-! ## The chunks -/

/-- What the loops over the chunks leave behind: the values of `len`, and the bytes that were taken for
size lines. -/
structure ChunkLog where
  lens : List ℤ
  lines : List Bytes

/-- One log after the other. -/
def ChunkLog.append (l l' : ChunkLog) : ChunkLog :=
  ⟨l.lens ++ l'.lens, l.lines ++ l'.lines⟩

/-- How the loop over a size line ends: a null result, an exception, a `read` in front of the buffer, or
a finished parser with the bytes counted by `len` and the pieces that have not been read. -/
inductive SizeLine where
  | null
  | thrown
  | outOfRange
  | finished (p : HttpResponseParser) (data : Bytes) (pieces : List Bytes)

/-- The read in front of a size line, unless the buffer still holds bytes in the first round. -/
def fillBuffer (buffSize : BufferSize) (start : Bool) (data : Bytes) (pieces : List Bytes) :
    Option (Bytes × List Bytes) :=
  if !start || data.isEmpty then
    (readSome (buffSize.size - data.length) pieces).map fun got => (data ++ got.1, got.2)
  else some (data, pieces)

/-- The loop over a size line. -/
def recvSizeLine (buffSize : BufferSize) :
    ℕ → Bool → HttpResponseParser → Bytes → List Bytes → ChunkLog × SizeLine
  | 0, _, _, _, _ => (⟨[], []⟩, .null)
  | rounds + 1, start, p, data, pieces =>
    match fillBuffer buffSize start data pieces with
    | none => (⟨[], []⟩, .null)
    | some (data, pieces) =>
      let e := p.execute data true
      if e.thrown then (⟨[data.length], []⟩, .thrown)
      else if e.self.hasError then (⟨[data.length], []⟩, .null)
      else
        let len := toInt (data.length - e.nparse)
        let len' := toInt (len - e.nparse)
        if len = buffSize.size then (⟨[data.length, len], []⟩, .null)
        else if len' = buffSize.size then (⟨[data.length, len, len'], []⟩, .null)
        else if len' < 0 then
          (⟨[data.length, len, len'], []⟩, if e.self.isFinished then .thrown else .outOfRange)
        else
          let rest := (data.drop e.nparse).take len'.toNat
          if e.self.isFinished then
            (⟨[data.length, len, len'], [data.take e.nparse]⟩, .finished e.self rest pieces)
          else
            let next := recvSizeLine buffSize rounds false e.self rest pieces
            (ChunkLog.append ⟨[data.length, len, len'], []⟩ next.1, next.2)

/-- The loop that reads what is missing of a chunk and the line end behind it. -/
def readLeft (buffSize : BufferSize) : ℕ → ℕ → List Bytes → Option (Bytes × List Bytes)
  | 0, left, pieces => if left = 0 then some ([], pieces) else none
  | rounds + 1, left, pieces =>
    if left = 0 then some ([], pieces)
    else
      (readSome (min left buffSize.size) pieces).bind fun got =>
        (readLeft buffSize rounds (left - got.1.length) got.2).map fun more => (got.1 ++ more.1, more.2)

/-- How the body is received. -/
inductive BodyOutcome where
  | null
  | thrown
  | outOfRange
  | body (b : Bytes)

/-- Take a chunk and the line end behind it from the buffer, or from the buffer and the socket, once its
size line is read: the body so far, the bytes left in the buffer and the pieces that have not been
read. -/
def takeChunk (buffSize : BufferSize) (rounds : ℕ) (contentLen : ℤ) (data : Bytes) (pieces : List Bytes)
    (body : Bytes) : Except BodyOutcome (Bytes × Bytes × List Bytes) :=
  if contentLen + 2 ≤ data.length then
    -- A negative length exceeds `max_size` as a `size_t`.
    if contentLen < 0 then .error .thrown
    else .ok (body ++ data.take contentLen.toNat, data.drop (contentLen.toNat + 2), pieces)
  else
    match readLeft buffSize rounds (contentLen + 2 - data.length).toNat pieces with
    | none => .error .null
    | some (got, pieces') =>
      let body' := body ++ data ++ got
      if body'.length < 2 then .error .thrown
      else .ok (body'.take (body'.length - 2), [], pieces')

/-- The loop over the chunks. -/
def recvChunks (buffSize : BufferSize) :
    ℕ → HttpResponseParser → Bytes → List Bytes → Bytes → ChunkLog × BodyOutcome
  | 0, _, _, _, _ => (⟨[], []⟩, .null)
  | rounds + 1, p, data, pieces, body =>
    let header := recvSizeLine buffSize rounds true p data pieces
    match header.2 with
    | .null => (header.1, .null)
    | .thrown => (header.1, .thrown)
    | .outOfRange => (header.1, .outOfRange)
    | .finished p data pieces =>
      match takeChunk buffSize rounds p.parser.contentLen data pieces body with
      | .error outcome => (header.1, outcome)
      | .ok (body, data, pieces) =>
        let log := header.1.append ⟨[data.length], []⟩
        if p.parser.chunksDone then (log, .body body)
        else
          let next := recvChunks buffSize rounds p data pieces body
          (log.append next.1, next.2)

/-! ## The response -/

/-- `getContentLength`, as the `int64_t` that `recvResponse` makes of it. -/
def HttpResponse.contentLength (lexicalCast : Bytes → Option ℕ) (r : HttpResponse) : ℤ :=
  toInt64 (((r.headers.find
    (asciiText ['c', 'o', 'n', 't', 'e', 'n', 't', '-', 'l', 'e', 'n', 'g', 't', 'h'])).bind lexicalCast).getD 0)

/-- A body of an announced length, from what is left in the buffer and from further reads. -/
def recvPlainBody (length : ℤ) (left : Bytes) (pieces : List Bytes) : BodyOutcome :=
  if length ≤ 0 then .body []
  else if length.toNat > stringMaxSize then .thrown
  else if length.toNat ≤ left.length then .body (left.take length.toNat)
  else
    match readFixSize (length.toNat - left.length) pieces with
    | none => .null
    | some (got, _) => if toInt32 (length.toNat - left.length) ≤ 0 then .null else .body (left ++ got)

/-- What surrounds the code of `recvResponse`: the conversion of the content length and the decoders
behind `ZlibStream`. -/
structure Codecs where
  lexicalCast : Bytes → Option ℕ
  gunzip : Bytes → Bytes
  inflate : Bytes → Bytes

/-- The name of the header that announces an encoding. -/
def contentEncoding : Bytes :=
  asciiText ['c', 'o', 'n', 't', 'e', 'n', 't', '-', 'e', 'n', 'c', 'o', 'd', 'i', 'n', 'g']

/-- Decode a body by the `content-encoding` of its response. -/
def decodeBody (codecs : Codecs) (r : HttpResponse) (body : Bytes) : Bytes :=
  let encoding := caseKey (r.getHeader contentEncoding)
  if encoding = caseKey (asciiText ['g', 'z', 'i', 'p']) then codecs.gunzip body
  else if encoding = caseKey (asciiText ['d', 'e', 'f', 'l', 'a', 't', 'e']) then codecs.inflate body
  else body

/-- What `recvResponse` returns, or how it fails. -/
inductive ResponseOutcome where
  | null
  | thrown
  | outOfRange
  | response (r : HttpResponse)

/-- Store a received body, if it is not empty. -/
def BodyOutcome.toResponse (codecs : Codecs) (r : HttpResponse) : BodyOutcome → ResponseOutcome
  | .null => .null
  | .thrown => .thrown
  | .outOfRange => .outOfRange
  | .body b => .response (if b = [] then r else { r with body := decodeBody codecs r b })

/-- `HttpConnection::recvResponse`, with the log of the loops over the chunks. Each of its loops is cut
off after a number of rounds. -/
def recvResponse (codecs : Codecs) (buffSize : BufferSize) (rounds : ℕ) (pieces : List Bytes) :
    ChunkLog × ResponseOutcome :=
  match recvResponseHead buffSize rounds .fresh [] pieces with
  | .null => (⟨[], []⟩, .null)
  | .thrown => (⟨[], []⟩, .thrown)
  | .finished p left pieces =>
    if p.parser.chunked then
      let chunks := recvChunks buffSize rounds p left pieces []
      -- The first value of `len` is what the head has left in the buffer.
      ((⟨[left.length], []⟩ : ChunkLog).append chunks.1, chunks.2.toResponse codecs p.data)
    else
      (⟨[], []⟩, (recvPlainBody (p.data.contentLength codecs.lexicalCast) left pieces).toResponse codecs p.data)

end Bobliew.Http
