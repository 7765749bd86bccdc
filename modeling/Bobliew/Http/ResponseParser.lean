import Bobliew.Http.RequestParser
import Bobliew.Http.ResponseGrammar

/-!
# The response parser

`httpclient_parser_execute` drives the response machine over a buffer that ends in NUL. Its actions
record offsets into that buffer, convert numbers at a recorded offset with `strtol`, and hand ranges to
the callbacks of `HttpResponseParser`. The same machine reads the size line of a chunk: `execute` with
`chunck` set initialises the parser again before it runs.

Unlike the request machine, which is finished in every final state, the response machine is finished in
its first final state only, the one in which no byte may follow.
-/

namespace Bobliew.Http

open Ragel

/-! ## Numbers -/

/-- `isspace`. -/
def isSpace (c : UInt8) : Bool :=
  space.has c

/-- The value of a digit or letter in a numeral. -/
def digitValue (c : UInt8) : Option ℕ :=
  if digit.has c then some (c.toNat - 48)
  else if upper.has c then some (c.toNat - 55)
  else if alpha.has c then some (c.toNat - 87)
  else none

/-- The number that the leading digits of a base continue. -/
def digitsFrom (base : ℕ) : ℕ → Bytes → ℕ
  | n, [] => n
  | n, c :: cs =>
    match digitValue c with
    | some d => if d < base then digitsFrom base (n * base + d) cs else n
    | none => n

/-- What follows the optional `0x` in front of hexadecimal digits. -/
def dropHexMark : Bytes → Bytes
  | 48 :: x :: c :: cs =>
    if (x = 120 ∨ x = 88) ∧ xdigit.has c = true then c :: cs else 48 :: x :: c :: cs
  | cs => cs

/-- `strtol` on memory that ends in NUL, saturated to a `long`. -/
def strtol (base : ℕ) (memory : Bytes) : ℤ :=
  let text := memory.dropWhile isSpace
  let negative := text.head? = some 45
  let unsigned := if negative ∨ text.head? = some 43 then text.tail else text
  let n := digitsFrom base 0 (if base = 16 then dropHexMark unsigned else unsigned)
  if negative then max (-n) (-2 ^ 63) else min n (2 ^ 63 - 1)

/-- A `long` converted to `int`. -/
def toInt (n : ℤ) : ℤ :=
  n.bmod (2 ^ 32)

/-! ## The parser state -/

/-- `httpclient_parser`, without the callbacks, `nread` and `status`. -/
structure HttpclientParser where
  cs : Option (List (Thread ResponseAction))
  bodyStart : ℕ
  contentLen : ℤ
  chunked : Bool
  chunksDone : Bool
  close : Bool
  mark : ℕ
  fieldStart : ℕ
  fieldLen : ℕ

/-- `httpclient_parser_init`. -/
def httpclientParserInit : HttpclientParser where
  cs := some httpclientParserStart
  bodyStart := 0
  contentLen := -1
  chunked := false
  chunksDone := false
  close := false
  mark := 0
  fieldStart := 0
  fieldLen := 0

/-- The fields of `HttpResponse` that receiving a response sets. -/
structure HttpResponse where
  status : ℤ
  version : ℕ
  close : Bool
  body : Bytes
  reason : Bytes
  headers : HeaderMap
  deriving DecidableEq

/-- `HttpResponse::HttpResponse` with its default arguments. -/
def HttpResponse.fresh : HttpResponse where
  status := 200
  version := 0x11
  close := false
  body := []
  reason := []
  headers := []

/-- `getHeader` with the empty default. -/
def HttpResponse.getHeader (key : Bytes) (r : HttpResponse) : Bytes :=
  (r.headers.find key).getD []

/-- The state of `HttpResponseParser`. -/
structure HttpResponseParser where
  parser : HttpclientParser
  data : HttpResponse
  error : ℕ

/-- `HttpResponseParser::HttpResponseParser`. -/
def HttpResponseParser.fresh : HttpResponseParser where
  parser := httpclientParserInit
  data := .fresh
  error := 0

/-! ## The actions -/

/-- What the actions of one call work on: the response parser, and whether a callback has thrown. -/
structure ResponseHandling where
  self : HttpResponseParser
  thrown : Bool

namespace ResponseHandling

/-- Change the parser state. -/
def update (s : ResponseHandling) (f : HttpclientParser → HttpclientParser) : ResponseHandling :=
  { s with self := { s.self with parser := f s.self.parser } }

/-- Change the response, if there is a string to do so. -/
def store (s : ResponseHandling) (text : Option Bytes) (f : Bytes → HttpResponse → HttpResponse) :
    ResponseHandling :=
  match text with
  | none => { s with thrown := true }
  | some t => { s with self := { s.self with data := f t s.self.data } }

/-- `on_response_version`. -/
def onResponseVersion (s : ResponseHandling) (memory : Bytes) (length : ℕ) : ResponseHandling :=
  match requestVersion memory length with
  | none => { s with self := { s.self with error := 1001 } }
  | some v => { s with self := { s.self with data := { s.self.data with version := v } } }

/-- `on_response_http_field`. -/
def onResponseHttpField (s : ResponseHandling) (buffer : Bytes) (field flen value vlen : ℕ) :
    ResponseHandling :=
  if flen = 0 then s
  else
    match stringAt buffer field flen with
    | none => { s with thrown := true }
    | some key =>
      s.store (stringAt buffer value vlen) fun val r => { r with headers := r.headers.set key val }

/-- The actions of the response machine at the offset `p` of the buffer. -/
def perform (buffer : Bytes) (p : ℕ) (a : ResponseAction) (s : ResponseHandling) : ResponseHandling :=
  if s.thrown then s
  else
    let parser := s.self.parser
    match a with
    | .mark => s.update fun q => { q with mark := p }
    | .startField => s.update fun q => { q with fieldStart := p }
    | .writeField => s.update fun q => { q with fieldLen := lenFrom q.fieldStart p }
    | .startValue => s.update fun q => { q with mark := p }
    | .writeContentLen => s.update fun q => { q with contentLen := toInt (strtol 10 (buffer.drop q.mark)) }
    | .writeConnectionClose => s.update fun q => { q with close := true }
    | .writeValue =>
      s.onResponseHttpField buffer parser.fieldStart parser.fieldLen parser.mark (lenFrom parser.mark p)
    | .reasonPhrase =>
      s.store (stringAt buffer parser.mark (lenFrom parser.mark p)) fun t r => { r with reason := t }
    | .statusCode =>
      s.store (some (buffer.drop parser.mark)) fun t r => { r with status := toInt (strtol 10 t) }
    | .httpVersion => s.onResponseVersion (buffer.drop parser.mark) (lenFrom parser.mark p)
    | .chunkSize =>
      let contentLen := toInt (strtol 16 (buffer.drop parser.mark))
      s.update fun q =>
        { q with chunked := true, contentLen := contentLen, chunksDone := decide (contentLen ≤ 0) }
    | .transChunked => s.update fun q => { q with chunked := true }
    | .done => s.update fun q => { q with bodyStart := p + 1 }

end ResponseHandling

/-- The action that breaks out of the loop. -/
def ResponseAction.breaks : ResponseAction → Bool
  | .done => true
  | _ => false

namespace HttpResponseParser

/-- The state in which `httpclient_parser_execute` enters its loop. -/
def entered (p : HttpResponseParser) : Exec ResponseAction ResponseHandling where
  cs := p.parser.cs
  p := 0
  st :=
    { self := { p with parser := { p.parser with mark := 0, fieldLen := 0, fieldStart := 0 } }
      thrown := false }
  stopped := false

/-- The outcome of `execute`: the new state, whether a callback has thrown, and the result, a `size_t`. -/
structure Executed where
  self : HttpResponseParser
  thrown : Bool
  nparse : ℕ

/-- The checks at the end of `httpclient_parser_execute`. -/
def checks (q : HttpclientParser) (len : ℕ) : Bool :=
  decide (q.mark < len) && decide (q.fieldLen ≤ len) && decide (q.fieldStart < len)

/-- `HttpResponseParser::execute`. Moving the rest to the front of the buffer is left to the caller. -/
def execute (p : HttpResponseParser) (data : Bytes) (chunck : Bool) : Executed :=
  let p := if chunck then { p with parser := httpclientParserInit } else p
  let e := exec (ResponseHandling.perform data) ResponseAction.breaks data p.entered
  { self := { e.st.self with parser := { e.st.self.parser with cs := e.cs } }
    thrown := e.st.thrown
    nparse := if checks e.st.self.parser data.length then e.p else 2 ^ 64 - 1 }

/-- `hasError`. -/
def hasError (p : HttpResponseParser) : Bool :=
  !decide (p.error = 0) || p.parser.cs.isNone

/-- `isFinished`, where there is no error: the first final state. -/
def isFinished (p : HttpResponseParser) : Bool :=
  p.parser.cs.elim false fun ts => isFinal ts && ts.all Rx.spent

end HttpResponseParser

end Bobliew.Http
