import Bobliew.Http.Dump
import Bobliew.Http.ResponseParser
import Bobliew.Lib.RagelActions
import Bobliew.Uri.Grammar

/-!
# URIs

`Uri::Create` drives the URI machine over a string. Its actions keep a pointer `mark` into the string and
store the bytes between the pointer and the position of the machine. A string that is made from a null
pointer throws, and what follows the exception is not performed.
-/

namespace Bobliew

open Ragel Http

/-- `Uri`. -/
structure Uri where
  scheme : Bytes
  userinfo : Bytes
  host : Bytes
  path : Bytes
  query : Bytes
  fragment : Bytes
  port : ℤ
  deriving DecidableEq

namespace Uri

/-- `Uri::Uri`. -/
def fresh : Uri where
  scheme := []
  userinfo := []
  host := []
  path := []
  query := []
  fragment := []
  port := 0

/-! ## Parsing -/

/-- What goes wrong in an action. -/
inductive Fault where
  /-- `std::string` is made from a null pointer. -/
  | nullString
  /-- `std::string` is made with a length outside the string. -/
  | length
  /-- `atoi` is called with a null pointer. -/
  | nullNumber
  deriving DecidableEq

/-- The variables that the actions work on: the offset of `mark`, and the object. -/
structure Parsing where
  mark : Option ℕ
  uri : Uri
  deriving DecidableEq

/-- `std::string(mark, fpc - mark)`. -/
def marked (uristr : Bytes) (p : ℕ) (mark : Option ℕ) : Except Fault Bytes :=
  match mark with
  | none => .error .nullString
  | some start =>
    match stringAt uristr start (lenFrom start p) with
    | none => .error .length
    | some text => .ok text

/-- `atoi(mark)`. -/
def atoi (uristr : Bytes) (mark : Option ℕ) : Except Fault ℤ :=
  match mark with
  | none => .error .nullNumber
  | some start => .ok (toInt (strtol 10 (uristr.drop start)))

/-- The actions of the grammar at position `p`. -/
def perform (uristr : Bytes) (p : ℕ) (a : UriAction) (s : Parsing) : Except Fault Parsing :=
  match a with
  | .marku => .ok { s with mark := some p }
  | .markh => .ok { s with mark := some p }
  | .saveScheme => (marked uristr p s.mark).map fun text => ⟨none, { s.uri with scheme := text }⟩
  | .savePort =>
    if s.mark = some p then .ok ⟨none, s.uri⟩
    else (atoi uristr s.mark).map fun n => ⟨none, { s.uri with port := n }⟩
  | .saveUserinfo =>
    if s.mark.isSome then (marked uristr p s.mark).map fun text => ⟨none, { s.uri with userinfo := text }⟩
    else .ok ⟨none, s.uri⟩
  | .saveHost =>
    if s.mark.isSome then (marked uristr p s.mark).map fun text => { s with uri := { s.uri with host := text } }
    else .ok s
  | .savePath => (marked uristr p s.mark).map fun text => ⟨none, { s.uri with path := text }⟩
  | .saveQuery => (marked uristr p s.mark).map fun text => ⟨none, { s.uri with query := text }⟩
  | .saveFragment => (marked uristr p s.mark).map fun text => ⟨none, { s.uri with fragment := text }⟩

/-- An action, unless one before it has thrown. -/
def performNext (uristr : Bytes) (p : ℕ) (a : UriAction) (s : Except Fault Parsing) : Except Fault Parsing :=
  s.bind (perform uristr p a)

/-- `Uri::Create`. -/
def create (uristr : Bytes) : Except Fault (Option Uri) :=
  let e := execEof (performNext uristr) uristr ⟨some [uriParserStart], 0, .ok ⟨none, fresh⟩, false⟩
  e.st.map fun s =>
    match e.cs with
    | none => none
    | some ts => if isFinal ts then some s.uri else none

/-! ## Reading and printing -/

variable (uri : Uri)

/-- The schemes with the default port 80. -/
def isHttp (scheme : Bytes) : Bool :=
  scheme == asciiText ['h', 't', 't', 'p'] || scheme == asciiText ['w', 's']

/-- The schemes with the default port 443. -/
def isHttps (scheme : Bytes) : Bool :=
  scheme == asciiText ['h', 't', 't', 'p', 's'] || scheme == asciiText ['w', 's', 's']

/-- `isDefaultPort`. -/
def isDefaultPort : Bool :=
  if uri.port = 0 then true
  else if isHttp uri.scheme then decide (uri.port = 80)
  else if isHttps uri.scheme then decide (uri.port = 443)
  else false

/-- `getPath`. -/
def getPath : Bytes :=
  if uri.path = [] then asciiText ['/'] else uri.path

/-- `getPort`. -/
def getPort : ℤ :=
  if uri.port ≠ 0 then uri.port
  else if isHttp uri.scheme then 80
  else if isHttps uri.scheme then 443
  else uri.port

/-- `std::to_string` of an `int32_t`. -/
def numberText (n : ℤ) : Bytes :=
  if n < 0 then asciiText ['-'] ++ decimal n.natAbs else decimal n.natAbs

/-- `dump` into an empty stream, which is what `toString` returns. -/
def toString : Bytes :=
  uri.scheme ++ asciiText [':', '/', '/'] ++
    uri.userinfo ++ (if uri.userinfo = [] then [] else asciiText ['@']) ++
    uri.host ++ (if uri.isDefaultPort then [] else asciiText [':'] ++ numberText uri.port) ++
    uri.getPath ++
    (if uri.query = [] then [] else asciiText ['?']) ++ uri.query ++
    (if uri.fragment = [] then [] else asciiText ['#']) ++ uri.fragment

end Uri

end Bobliew
