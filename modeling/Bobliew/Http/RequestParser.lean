import Bobliew.Http.Request
import Bobliew.Http.RequestGrammar

/-!
# The request parser

`http_parser_execute` drives the request machine over a buffer. Its actions record offsets into that
buffer and hand pairs of a pointer and a length to the callbacks of `HttpRequestParser`, which store
what they find there. Every call starts with `mark`, `field_start` and `field_len` at zero, while
`query_start` keeps its value and is never initialised.

A callback is recorded with the offsets and lengths it is given. A length is a `size_t`, so the
difference of two offsets wraps around when it is negative; building a string from such a length
throws, and what follows the exception is not performed.
-/

namespace Bobliew.Http

open Ragel

/-! ## The parser state -/

/-- `http_parser`, without the callbacks and `nread`. -/
structure HttpParser where
  cs : Option (List (Thread RequestAction))
  bodyStart : ℕ
  contentLen : ℤ
  mark : ℕ
  fieldStart : ℕ
  fieldLen : ℕ
  queryStart : ℕ
  xmlSent : Bool
  jsonSent : Bool

/-- `http_parser_init`. The fields it does not set have the values the memory holds. -/
def httpParserInit (uriRelaxed : Bool) (queryStart : ℕ) : HttpParser where
  cs := some (httpParserStart uriRelaxed)
  bodyStart := 0
  contentLen := 0
  mark := 0
  fieldStart := 0
  fieldLen := 0
  queryStart := queryStart
  xmlSent := false
  jsonSent := false

/-- `LEN(AT, FPC)`, a difference of offsets as a `size_t`. -/
def lenFrom (start fpc : ℕ) : ℕ :=
  if start ≤ fpc then fpc - start else 2 ^ 64 - (start - fpc)

/-- A call of a callback, with the offsets of its pointers and its lengths. -/
inductive Callback where
  | requestMethod (start length : ℕ)
  | requestUri (start length : ℕ)
  | fragment (start length : ℕ)
  | requestPath (start length : ℕ)
  | queryString (start length : ℕ)
  | httpVersion (start length : ℕ)
  | headerDone (start length : ℕ)
  | httpField (field flen value vlen : ℕ)
  deriving DecidableEq

/-- The ranges that a callback is given. -/
def Callback.ranges : Callback → List (ℕ × ℕ)
  | .requestMethod start length => [(start, length)]
  | .requestUri start length => [(start, length)]
  | .fragment start length => [(start, length)]
  | .requestPath start length => [(start, length)]
  | .queryString start length => [(start, length)]
  | .httpVersion start length => [(start, length)]
  | .headerDone start length => [(start, length)]
  | .httpField field flen value vlen => [(field, flen), (value, vlen)]

/-! ## The callbacks -/

/-- The state of `HttpRequestParser`. -/
structure HttpRequestParser where
  parser : HttpParser
  data : HttpRequest
  error : ℕ

/-- `HttpRequestParser::HttpRequestParser`. -/
def HttpRequestParser.fresh (uriRelaxed : Bool) (queryStart : ℕ) : HttpRequestParser where
  parser := httpParserInit uriRelaxed queryStart
  data := .fresh
  error := 0

/-- `std::string(at, length)` of a range of the buffer. A range that is not inside the buffer does not
yield a string: the length of a negative difference exceeds `max_size` and throws. -/
def stringAt (buffer : Bytes) (start length : ℕ) : Option Bytes :=
  if start + length ≤ buffer.length then some ((buffer.drop start).take length) else none

/-- `strncmp(at, s, n) == 0` for a string `s` that ends in NUL. -/
def strncmpEq : ℕ → Bytes → Bytes → Bool
  | 0, _, _ => true
  | _ + 1, [], _ => false
  | _ + 1, a :: _, [] => a == 0
  | n + 1, a :: as, b :: bs => a == b && strncmpEq n as bs

/-- The version that `on_request_version` reads from a pointer and a length. -/
def requestVersion (memory : Bytes) (length : ℕ) : Option ℕ :=
  if strncmpEq length memory (asciiText ['H', 'T', 'T', 'P', '/', '1', '.', '1']) then some 0x11
  else if strncmpEq length memory (asciiText ['H', 'T', 'T', 'P', '/', '1', '.', '0']) then some 0x10
  else none

namespace HttpRequestParser

/-- `on_request_method`. -/
def onRequestMethod (memory : Bytes) (p : HttpRequestParser) : HttpRequestParser :=
  match charsToHttpMethod memory with
  | none => { p with error := 1000 }
  | some m => { p with data := { p.data with method := m } }

/-- `on_request_version`. -/
def onRequestVersion (memory : Bytes) (length : ℕ) (p : HttpRequestParser) : HttpRequestParser :=
  match requestVersion memory length with
  | none => { p with error := 1001 }
  | some v => { p with data := { p.data with version := v } }

/-- `on_request_http_field`. -/
def onRequestHttpField (buffer : Bytes) (field flen value vlen : ℕ) (p : HttpRequestParser) :
    Option HttpRequestParser :=
  if flen = 0 then some p
  else
    match stringAt buffer field flen, stringAt buffer value vlen with
    | some key, some val => some { p with data := p.data.setHeader key val }
    | _, _ => none

/-- The callbacks of the request parser; `none` when one of them throws. -/
def handle (buffer : Bytes) (p : HttpRequestParser) : Callback → Option HttpRequestParser
  | .requestMethod start _ => some (p.onRequestMethod (buffer.drop start))
  | .requestUri _ _ => some p
  | .fragment start length =>
    (stringAt buffer start length).map fun s => { p with data := { p.data with fragment := s } }
  | .requestPath start length =>
    (stringAt buffer start length).map fun s => { p with data := { p.data with path := s } }
  | .queryString start length =>
    (stringAt buffer start length).map fun s => { p with data := { p.data with query := s } }
  | .httpVersion start length => some (p.onRequestVersion (buffer.drop start) length)
  | .headerDone _ _ => some p
  | .httpField field flen value vlen => p.onRequestHttpField buffer field flen value vlen

/-- A callback leaves the offsets and the body alone. -/
theorem handle_frame {self self' : HttpRequestParser} {buffer : Bytes} {cb : Callback}
    (h : self.handle buffer cb = some self') :
    self'.parser = self.parser ∧ self'.data.body = self.data.body := by
  cases cb with
  | requestMethod start length =>
    cases h
    unfold onRequestMethod
    split <;> exact ⟨rfl, rfl⟩
  | httpVersion start length =>
    cases h
    unfold onRequestVersion
    split <;> exact ⟨rfl, rfl⟩
  | httpField field flen value vlen =>
    simp only [handle, onRequestHttpField] at h
    split at h
    · cases h
      exact ⟨rfl, rfl⟩
    · split at h
      · cases h
        exact ⟨rfl, rfl⟩
      · cases h
  | requestUri start length =>
    cases h
    exact ⟨rfl, rfl⟩
  | headerDone start length =>
    cases h
    exact ⟨rfl, rfl⟩
  | fragment start length =>
    obtain ⟨_, _, rfl⟩ := Option.map_eq_some_iff.mp h
    exact ⟨rfl, rfl⟩
  | requestPath start length =>
    obtain ⟨_, _, rfl⟩ := Option.map_eq_some_iff.mp h
    exact ⟨rfl, rfl⟩
  | queryString start length =>
    obtain ⟨_, _, rfl⟩ := Option.map_eq_some_iff.mp h
    exact ⟨rfl, rfl⟩

end HttpRequestParser

/-! ## The actions -/

/-- What the actions of one call work on: the request parser, the callbacks made so far, and whether
one of them has thrown. -/
structure Handling where
  self : HttpRequestParser
  calls : List Callback
  thrown : Bool

namespace Handling

/-- Change the parser state. -/
def update (s : Handling) (f : HttpParser → HttpParser) : Handling :=
  { s with self := { s.self with parser := f s.self.parser } }

/-- Make a callback. -/
def call (buffer : Bytes) (s : Handling) (cb : Callback) : Handling :=
  match s.self.handle buffer cb with
  | none => { s with calls := s.calls ++ [cb], thrown := true }
  | some self => { s with self := self, calls := s.calls ++ [cb] }

/-- The actions of the request machine at the offset `p` of the buffer. -/
def perform (buffer : Bytes) (p : ℕ) (a : RequestAction) (s : Handling) : Handling :=
  if s.thrown then s
  else
    let parser := s.self.parser
    match a with
    | .mark => s.update fun q => { q with mark := p }
    | .startField => s.update fun q => { q with fieldStart := p }
    | .writeField => s.update fun q => { q with fieldLen := lenFrom q.fieldStart p }
    | .startValue => s.update fun q => { q with mark := p }
    | .writeValue =>
      s.call buffer (.httpField parser.fieldStart parser.fieldLen parser.mark (lenFrom parser.mark p))
    | .requestMethod => s.call buffer (.requestMethod parser.mark (lenFrom parser.mark p))
    | .requestUri => s.call buffer (.requestUri parser.mark (lenFrom parser.mark p))
    | .fragment => s.call buffer (.fragment parser.mark (lenFrom parser.mark p))
    | .startQuery => s.update fun q => { q with queryStart := p }
    | .queryString => s.call buffer (.queryString parser.queryStart (lenFrom parser.queryStart p))
    | .httpVersion => s.call buffer (.httpVersion parser.mark (lenFrom parser.mark p))
    | .requestPath => s.call buffer (.requestPath parser.mark (lenFrom parser.mark p))
    | .done =>
      if parser.xmlSent || parser.jsonSent then
        s.update fun q => { q with bodyStart := q.mark, contentLen := p - q.mark + 1 }
      else
        (s.update fun q => { q with bodyStart := p + 1 }).call buffer
          (.headerDone (p + 1) (buffer.length - p - 1))
    | .xml => s.update fun q => { q with xmlSent := true }
    | .json => s.update fun q => { q with jsonSent := true }

end Handling

/-- The action that breaks out of the loop. -/
def RequestAction.breaks : RequestAction → Bool
  | .done => true
  | _ => false

namespace HttpRequestParser

/-- The state in which `http_parser_execute` enters its loop. -/
def entered (p : HttpRequestParser) : Exec RequestAction Handling where
  cs := p.parser.cs
  p := 0
  st :=
    { self := { p with parser := { p.parser with mark := 0, fieldLen := 0, fieldStart := 0 } }
      calls := []
      thrown := false }
  stopped := false

/-- The outcome of `execute`: the new state, the callbacks made, whether one of them has thrown, and
the number of bytes consumed. -/
structure Executed where
  self : HttpRequestParser
  calls : List Callback
  thrown : Bool
  nparse : ℕ

/-- `HttpRequestParser::execute`. Moving the rest to the front of the buffer is left to the caller. -/
def execute (p : HttpRequestParser) (data : Bytes) : Executed :=
  if data = [] then { self := p, calls := [], thrown := false, nparse := 0 }
  else
    let e := exec (Handling.perform data) RequestAction.breaks data p.entered
    { self := { e.st.self with parser := { e.st.self.parser with cs := e.cs } }
      calls := e.st.calls
      thrown := e.st.thrown
      nparse := e.p }

/-- `hasError`. -/
def hasError (p : HttpRequestParser) : Bool :=
  !decide (p.error = 0) || p.parser.cs.isNone

/-- `isFinished`, where there is no error. -/
def isFinished (p : HttpRequestParser) : Bool :=
  p.parser.cs.elim false isFinal

end HttpRequestParser

end Bobliew.Http
