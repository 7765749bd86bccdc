import Mathlib

/-!
# Requests and their header maps

The part of `HttpRequest` that receiving a request fills in, with the method table and the header map.
`CharsToHttpMethod` compares the memory at a pointer with the names of the table in their order and
takes the first name found there, without regard to where the token ends. Headers are kept in a
`std::map` ordered by `CaseInsensitiveLess`: storing under a name that differs in case only keeps the
name already in the map and replaces its value.
-/

namespace Bobliew.Http

/-- The contents of a buffer or a string. -/
abbrev Bytes := List UInt8

/-- The bytes of a text of ASCII characters. -/
def asciiText (cs : List Char) : Bytes :=
  cs.map fun c => UInt8.ofNat c.toNat

/-! ## Methods -/

/-- `HttpMethod`, without `INVALID_METHOD`. -/
inductive HttpMethod where
  | delete | get | head | post | put
  | connect | options | trace
  | copy | lock | mkcol | move | propfind | proppatch | search | unlock | bind | rebind | unbind | acl
  | report | mkactivity | checkout | merge
  | msearch | notify | subscribe | unsubscribe
  | patch | purge
  | mkcalendar
  | link | unlink
  | source
  deriving DecidableEq

/-- `HTTP_METHOD_MAP`. -/
def httpMethodMap : List (HttpMethod × Bytes) :=
  [(.delete, asciiText ['D', 'E', 'L', 'E', 'T', 'E']), (.get, asciiText ['G', 'E', 'T']),
    (.head, asciiText ['H', 'E', 'A', 'D']), (.post, asciiText ['P', 'O', 'S', 'T']),
    (.put, asciiText ['P', 'U', 'T']), (.connect, asciiText ['C', 'O', 'N', 'N', 'E', 'C', 'T']),
    (.options, asciiText ['O', 'P', 'T', 'I', 'O', 'N', 'S']), (.trace, asciiText ['T', 'R', 'A', 'C', 'E']),
    (.copy, asciiText ['C', 'O', 'P', 'Y']), (.lock, asciiText ['L', 'O', 'C', 'K']),
    (.mkcol, asciiText ['M', 'K', 'C', 'O', 'L']), (.move, asciiText ['M', 'O', 'V', 'E']),
    (.propfind, asciiText ['P', 'R', 'O', 'P', 'F', 'I', 'N', 'D']),
    (.proppatch, asciiText ['P', 'R', 'O', 'P', 'P', 'A', 'T', 'C', 'H']),
    (.search, asciiText ['S', 'E', 'A', 'R', 'C', 'H']), (.unlock, asciiText ['U', 'N', 'L', 'O', 'C', 'K']),
    (.bind, asciiText ['B', 'I', 'N', 'D']), (.rebind, asciiText ['R', 'E', 'B', 'I', 'N', 'D']),
    (.unbind, asciiText ['U', 'N', 'B', 'I', 'N', 'D']), (.acl, asciiText ['A', 'C', 'L']),
    (.report, asciiText ['R', 'E', 'P', 'O', 'R', 'T']),
    (.mkactivity, asciiText ['M', 'K', 'A', 'C', 'T', 'I', 'V', 'I', 'T', 'Y']),
    (.checkout, asciiText ['C', 'H', 'E', 'C', 'K', 'O', 'U', 'T']), (.merge, asciiText ['M', 'E', 'R', 'G', 'E']),
    (.msearch, asciiText ['M', '-', 'S', 'E', 'A', 'R', 'C', 'H']),
    (.notify, asciiText ['N', 'O', 'T', 'I', 'F', 'Y']),
    (.subscribe, asciiText ['S', 'U', 'B', 'S', 'C', 'R', 'I', 'B', 'E']),
    (.unsubscribe, asciiText ['U', 'N', 'S', 'U', 'B', 'S', 'C', 'R', 'I', 'B', 'E']),
    (.patch, asciiText ['P', 'A', 'T', 'C', 'H']), (.purge, asciiText ['P', 'U', 'R', 'G', 'E']),
    (.mkcalendar, asciiText ['M', 'K', 'C', 'A', 'L', 'E', 'N', 'D', 'A', 'R']),
    (.link, asciiText ['L', 'I', 'N', 'K']), (.unlink, asciiText ['U', 'N', 'L', 'I', 'N', 'K']),
    (.source, asciiText ['S', 'O', 'U', 'R', 'C', 'E'])]

/-- `CharsToHttpMethod` on the memory at its argument; `none` is `INVALID_METHOD`. -/
def charsToHttpMethod (memory : Bytes) : Option HttpMethod :=
  (httpMethodMap.find? fun entry => entry.2.isPrefixOf memory).map (·.1)

/-! ## Header maps -/

/-- `tolower` of a byte. -/
def toLower (c : UInt8) : UInt8 :=
  if 65 ≤ c.toNat ∧ c.toNat ≤ 90 then c + 32 else c

/-- What `strcasecmp` compares of a string: its bytes up to the first NUL, in lower case. -/
def caseKey (s : Bytes) : List ℕ :=
  (s.takeWhile fun c => !decide (c = 0)).map fun c => (toLower c).toNat

/-- The order of two strings that end in NUL, byte by byte. -/
def lexLess : List ℕ → List ℕ → Bool
  | _, [] => false
  | [], _ :: _ => true
  | a :: as, b :: bs => Nat.blt a b || (a == b && lexLess as bs)

/-- `CaseInsensitiveLess`. -/
def caseInsensitiveLess (lhs rhs : Bytes) : Bool :=
  lexLess (caseKey lhs) (caseKey rhs)

/-- A header map in the order of its keys. -/
abbrev HeaderMap := List (Bytes × Bytes)

/-- `m_headers[key] = val`. -/
def HeaderMap.set (key val : Bytes) : HeaderMap → HeaderMap
  | [] => [(key, val)]
  | (k, v) :: m =>
    if caseInsensitiveLess key k then (key, val) :: (k, v) :: m
    else if caseInsensitiveLess k key then (k, v) :: HeaderMap.set key val m
    else (k, val) :: m

/-- `m_headers.find(key)`. -/
def HeaderMap.find (key : Bytes) (m : HeaderMap) : Option Bytes :=
  (List.find? (fun entry => !caseInsensitiveLess key entry.1 && !caseInsensitiveLess entry.1 key) m).map
    (·.2)

/-! ## Requests -/

/-- The fields of `HttpRequest` that receiving a request sets. -/
structure HttpRequest where
  method : HttpMethod
  version : ℕ
  close : Bool
  path : Bytes
  query : Bytes
  fragment : Bytes
  body : Bytes
  headers : HeaderMap
  deriving DecidableEq

/-- `HttpRequest::HttpRequest` with its default arguments. -/
def HttpRequest.fresh : HttpRequest where
  method := .get
  version := 0x11
  close := true
  path := asciiText ['/']
  query := []
  fragment := []
  body := []
  headers := []

namespace HttpRequest

variable (request : HttpRequest)

/-- `setHeader`. -/
def setHeader (key val : Bytes) : HttpRequest :=
  { request with headers := request.headers.set key val }

/-- `getHeader` with the empty default. -/
def getHeader (key : Bytes) : Bytes :=
  (request.headers.find key).getD []

/-- `init`: the close flag follows the `Connection` header. -/
def init : HttpRequest :=
  let conn := request.getHeader (asciiText ['C', 'o', 'n', 'n', 'e', 'c', 't', 'i', 'o', 'n'])
  if conn = [] then request
  else { request with
    close := !decide (caseKey conn = caseKey (asciiText ['k', 'e', 'e', 'p', '-', 'a', 'l', 'i', 'v', 'e'])) }

end HttpRequest

end Bobliew.Http
