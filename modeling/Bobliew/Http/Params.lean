import Bobliew.Http.Dump

/-!
# Request parameters and cookies

`HttpRequest` parses its query, its body and its `cookie` header into maps of parameters and cookies when
one of them is first looked up; a flag for each of the three remembers that it has been done. Setting and
deleting act on the maps at once. Parsing inserts, so that an entry that is there already stays.
-/

namespace Bobliew.Http

/-! ## Texts -/

/-- `isxdigit` with the value of the digit from `xdigit_chars`. -/
def xdigitValue (c : UInt8) : Option UInt8 :=
  if 48 ≤ c.toNat ∧ c.toNat ≤ 57 then some (c - 48)
  else if 65 ≤ c.toNat ∧ c.toNat ≤ 70 then some (c - 55)
  else if 97 ≤ c.toNat ∧ c.toNat ≤ 102 then some (c - 87)
  else none

/-- `StringUtil::UrlDecode` with a plus for a space. -/
def urlDecode : Bytes → Bytes
  | [] => []
  | 43 :: str => 32 :: urlDecode str
  | 37 :: a :: b :: str =>
    match xdigitValue a, xdigitValue b with
    | some high, some low => (high <<< 4 ||| low) :: urlDecode str
    | _, _ => 37 :: urlDecode (a :: b :: str)
  | c :: str => c :: urlDecode str

/-- The default delimiters of `StringUtil::Trim`. -/
def isTrimmed (c : UInt8) : Bool := c = 32 || c = 9 || c = 13 || c = 10

/-- `StringUtil::Trim`. -/
def trim (str : Bytes) : Bytes :=
  (((str.dropWhile isTrimmed).reverse).dropWhile isTrimmed).reverse

/-- The entries `PARSE_PARAM` inserts, in their order: what stands in front of the next `=` under what
stands between it and the next separator. -/
def parseParam (flag : UInt8) (trim : Bytes → Bytes) (str : Bytes) : List (Bytes × Bytes) :=
  match _hrest : str.dropWhile (fun c => !decide (c = 61)) with
  | [] => []
  | _ :: rest =>
    let entry := (trim (str.takeWhile fun c => !decide (c = 61)),
      urlDecode (rest.takeWhile fun c => !decide (c = flag)))
    match _hbehind : rest.dropWhile (fun c => !decide (c = flag)) with
    | [] => [entry]
    | _ :: behind => entry :: parseParam flag trim behind
termination_by str.length
decreasing_by
  have hfirst := (List.dropWhile_sublist (l := str) fun c => !decide (c = 61)).length_le
  have hsecond := (List.dropWhile_sublist (l := rest) fun c => !decide (c = flag)).length_le
  rw [_hrest, List.length_cons] at hfirst
  rw [_hbehind, List.length_cons] at hsecond
  omega

namespace HeaderMap

/-- `insert`: an entry of that name stays as it is. -/
def insert (entry : Bytes × Bytes) (m : HeaderMap) : HeaderMap :=
  if (HeaderMap.find entry.1 m).isSome then m else HeaderMap.set entry.1 entry.2 m

/-- `erase`. -/
def erase (key : Bytes) (m : HeaderMap) : HeaderMap :=
  m.filter fun entry => !decide (caseKey entry.1 = caseKey key)

/-- Insert entries one after the other. -/
def insertAll (entries : List (Bytes × Bytes)) (m : HeaderMap) : HeaderMap :=
  entries.foldl (fun m entry => HeaderMap.insert entry m) m

end HeaderMap

/-! ## Requests with parameters -/

/-- A request with `m_params`, `m_cookies` and the three bits of `m_parserParamFlag`. -/
structure ParamRequest where
  request : HttpRequest
  params : HeaderMap
  cookies : HeaderMap
  queryParsed : Bool
  bodyParsed : Bool
  cookiesParsed : Bool

namespace ParamRequest

/-- A request of which nothing has been parsed yet. -/
def unparsed (request : HttpRequest) (params cookies : HeaderMap) : ParamRequest :=
  ⟨request, params, cookies, false, false, false⟩

variable (r : ParamRequest)

/-- The entries in the query. -/
def queryEntries : List (Bytes × Bytes) := parseParam 38 id r.request.query

/-- The entries in the body, if its content type says that it has any. -/
def bodyEntries : List (Bytes × Bytes) :=
  let contentType := r.request.getHeader
    (asciiText ['c', 'o', 'n', 't', 'e', 'n', 't', '-', 't', 'y', 'p', 'e'])
  if caseKey (asciiText ['a', 'p', 'p', 'l', 'i', 'c', 'a', 't', 'i', 'o', 'n', '/', 'x', '-', 'w', 'w', 'w', '-',
    'f', 'o', 'r', 'm', '-', 'u', 'r', 'l', 'e', 'n', 'c', 'o', 'd', 'e', 'd']) <:+: caseKey contentType then
    parseParam 38 id r.request.body
  else []

/-- The entries in the `cookie` header. -/
def cookieEntries : List (Bytes × Bytes) :=
  parseParam 59 trim (r.request.getHeader (asciiText ['c', 'o', 'o', 'k', 'i', 'e']))

/-- `initQueryParam`. -/
def initQueryParam : ParamRequest :=
  if r.queryParsed then r
  else { r with params := HeaderMap.insertAll r.queryEntries r.params, queryParsed := true }

/-- `initBodyParam`. -/
def initBodyParam : ParamRequest :=
  if r.bodyParsed then r
  else { r with params := HeaderMap.insertAll r.bodyEntries r.params, bodyParsed := true }

/-- `initCookies`. -/
def initCookies : ParamRequest :=
  if r.cookiesParsed then r
  else { r with cookies := HeaderMap.insertAll r.cookieEntries r.cookies, cookiesParsed := true }

/-- `initParam`. -/
def initParam : ParamRequest := r.initQueryParam.initBodyParam.initCookies

/-- `getParam`. -/
def getParam (key default : Bytes) : Bytes × ParamRequest :=
  let parsed := r.initQueryParam.initBodyParam
  ((parsed.params.find key).getD default, parsed)

/-- `hasParam`: whether the parameter is there, and its value if there is a place for it. -/
def hasParam (key : Bytes) (val : Bool) : (Bool × Option Bytes) × ParamRequest :=
  let parsed := r.initQueryParam.initBodyParam
  (((parsed.params.find key).isSome, if val then parsed.params.find key else none), parsed)

/-- `setParam`. -/
def setParam (key val : Bytes) : ParamRequest := { r with params := r.params.set key val }

/-- `delParam`. -/
def delParam (key : Bytes) : ParamRequest := { r with params := r.params.erase key }

/-- `getCookie`. -/
def getCookie (key default : Bytes) : Bytes × ParamRequest :=
  let parsed := r.initCookies
  ((parsed.cookies.find key).getD default, parsed)

/-- `hasCookie`: whether the cookie is there, and its value if there is a place for it. -/
def hasCookie (key : Bytes) (val : Bool) : (Bool × Option Bytes) × ParamRequest :=
  let parsed := r.initCookies
  (((parsed.cookies.find key).isSome, if val then parsed.cookies.find key else none), parsed)

/-- `setCookie`. -/
def setCookie (key val : Bytes) : ParamRequest := { r with cookies := r.cookies.set key val }

/-- `delCookie`. -/
def delCookie (key : Bytes) : ParamRequest := { r with cookies := r.cookies.erase key }

end ParamRequest

/-- A call on one of the two maps. -/
inductive MapCall where
  | get (key default : Bytes)
  | has (key : Bytes) (val : Bool)
  | set (key val : Bytes)
  | del (key : Bytes)

/-- A call of one of the eight accessors. -/
inductive ParamCall where
  | param (call : MapCall)
  | cookie (call : MapCall)

/-- What an accessor returns. -/
inductive ParamResult where
  | value (val : Bytes)
  | found (present : Bool) (val : Option Bytes)
  | done
deriving DecidableEq

namespace ParamRequest

/-- Perform one call. -/
def call (r : ParamRequest) : ParamCall → ParamResult × ParamRequest
  | .param (.get key default) => (.value (r.getParam key default).1, (r.getParam key default).2)
  | .param (.has key val) => (.found (r.hasParam key val).1.1 (r.hasParam key val).1.2, (r.hasParam key val).2)
  | .param (.set key val) => (.done, r.setParam key val)
  | .param (.del key) => (.done, r.delParam key)
  | .cookie (.get key default) => (.value (r.getCookie key default).1, (r.getCookie key default).2)
  | .cookie (.has key val) => (.found (r.hasCookie key val).1.1 (r.hasCookie key val).1.2, (r.hasCookie key val).2)
  | .cookie (.set key val) => (.done, r.setCookie key val)
  | .cookie (.del key) => (.done, r.delCookie key)

/-- The results of a sequence of calls. -/
def results (r : ParamRequest) : List ParamCall → List ParamResult
  | [] => []
  | c :: calls => (r.call c).1 :: (r.call c).2.results calls

end ParamRequest

end Bobliew.Http
