import Bobliew.Http.Dump

/-!
# The requests of the HTTP client

`HttpConnection::DoGet` and `DoPost` build a request for a URI and send it over a connection of its own;
`HttpConnectionPool::doGet` and `doPost` build one for a connection of the pool. The headers of the caller
are stored by the same loop in both, but the former starts from a request that asks to close and gives path,
query and fragment one by one, the latter from one that does not and gives them joined.

The two hand the same bytes to `sendRequest`, with the method of the function's name and the `Connection`
header of the caller, exactly for `DoGet` with a `Connection` header of `keep-alive` and none of `close`.
-/

namespace Bobliew.Http

/-- `"keep-alive"`. -/
def keepAlive : Bytes := asciiText ['k', 'e', 'e', 'p', '-', 'a', 'l', 'i', 'v', 'e']

/-- `"host"`. -/
def hostName : Bytes := asciiText ['h', 'o', 's', 't']

/-- The components of a `Uri` that a request is made from. -/
structure Uri where
  host : Bytes
  path : Bytes
  query : Bytes
  fragment : Bytes

/-- `Uri::getPath`. -/
def Uri.getPath (uri : Uri) : Bytes := if uri.path = [] then asciiText ['/'] else uri.path

/-- The path, the query and the fragment in one text, as the pool joins them. -/
def Uri.joined (uri : Uri) : Bytes :=
  uri.getPath ++ (if uri.query = [] then [] else asciiText ['?']) ++ uri.query ++
    (if uri.fragment = [] then [] else asciiText ['#']) ++ uri.fragment

/-- What the loop over the caller's headers fills in: the headers and the close flag of the request, and
whether a `Host` and a `Connection` header have been seen. -/
structure Filled where
  headers : HeaderMap
  close : Bool
  hasHost : Bool
  hasConn : Bool

/-- The body of the loop. -/
def Filled.store (filled : Filled) (i : Bytes × Bytes) : Filled :=
  if caseKey i.1 = caseKey connectionName then
    { filled with
      hasConn := !i.2.isEmpty
      headers := filled.headers.set i.1 i.2
      close := if caseKey i.2 = caseKey keepAlive then false else filled.close }
  else
    { filled with
      hasHost := if !filled.hasHost && decide (caseKey i.1 = caseKey hostName) then !i.2.isEmpty
        else filled.hasHost
      headers := filled.headers.set i.1 i.2 }

/-- The loop over the caller's headers, which come in the order of their map. -/
def fill (close : Bool) (headers : List (Bytes × Bytes)) : Filled :=
  headers.foldl Filled.store ⟨[], close, false, false⟩

/-- What follows the loop: the headers the caller left out. -/
def Filled.complete (filled : Filled) (host : Bytes) : HeaderMap :=
  let headers := if filled.hasConn then filled.headers
    else filled.headers.set (asciiText ['C', 'o', 'n', 'n', 'e', 'c', 't', 'i', 'o', 'n']) keepAlive
  if filled.hasHost then headers else headers.set (asciiText ['H', 'o', 's', 't']) host

namespace HttpConnection

/-- `HttpConnection::DoRequest` up to the request it sends. -/
def doRequest (method : HttpMethod) (uri : Uri) (headers : List (Bytes × Bytes)) (body : Bytes) : HttpRequest :=
  let filled := fill HttpRequest.fresh.close headers
  { HttpRequest.fresh with
    method := method
    path := uri.getPath
    query := uri.query
    fragment := uri.fragment
    close := filled.close
    headers := filled.complete uri.host
    body := body }

/-- `HttpConnection::DoGet`. -/
def doGet (uri : Uri) (headers : List (Bytes × Bytes)) (body : Bytes) : HttpRequest :=
  doRequest .get uri headers body

/-- `HttpConnection::DoPost`. -/
def doPost (uri : Uri) (headers : List (Bytes × Bytes)) (body : Bytes) : HttpRequest :=
  doRequest .get uri headers body

end HttpConnection

/-- What a pool puts into the requests: `m_host` and `m_vhost`. -/
structure PoolHost where
  host : Bytes
  vhost : Bytes

namespace PoolHost

variable (pool : PoolHost)

/-- `HttpConnectionPool::doRequest` up to the request it sends. -/
def doRequest (method : HttpMethod) (url : Bytes) (headers : List (Bytes × Bytes)) (body : Bytes) : HttpRequest :=
  let filled := fill false headers
  { HttpRequest.fresh with
    method := method
    path := url
    close := filled.close
    headers := filled.complete (if pool.vhost = [] then pool.host else pool.vhost)
    body := body }

/-- `HttpConnectionPool::doGet`. -/
def doGet (uri : Uri) (headers : List (Bytes × Bytes)) (body : Bytes) : HttpRequest :=
  pool.doRequest .get uri.joined headers body

/-- `HttpConnectionPool::doPost`. -/
def doPost (uri : Uri) (headers : List (Bytes × Bytes)) (body : Bytes) : HttpRequest :=
  pool.doRequest .post uri.joined headers body

end PoolHost

/-- The functions of a name in both places. -/
inductive ClientCall where
  | get
  | post
deriving DecidableEq

namespace ClientCall

/-- The method of the name. -/
def method : ClientCall → HttpMethod
  | .get => .get
  | .post => .post

/-- The request of `DoGet` or `DoPost`. -/
def direct : ClientCall → Uri → List (Bytes × Bytes) → Bytes → HttpRequest
  | .get => HttpConnection.doGet
  | .post => HttpConnection.doPost

/-- The request of `doGet` or `doPost`. -/
def pooled (pool : PoolHost) : ClientCall → Uri → List (Bytes × Bytes) → Bytes → HttpRequest
  | .get => pool.doGet
  | .post => pool.doPost

end ClientCall

/-- A header of the caller that asks for a connection to be kept or closed. -/
def asksFor (close : Bool) (i : Bytes × Bytes) : Prop :=
  caseKey i.1 = caseKey connectionName ∧ caseKey i.2 = caseKey (connectionValue close)

/-- The two functions of a name send the same bytes, with the method of the name, and the `connection` header
they send is the one the caller supplied. -/
structure RequestsAgree (call : ClientCall) (pool : PoolHost) (uri : Uri) (headers : List (Bytes × Bytes))
    (body : Bytes) : Prop where
  bytes : (call.direct uri headers body).dump false = (call.pooled pool uri headers body).dump false
  methods : (call.direct uri headers body).method = call.method ∧
    (call.pooled pool uri headers body).method = call.method
  connections : ∀ i ∈ headers, ∀ close, asksFor close i →
    (call.direct uri headers body).close = close ∧ (call.pooled pool uri headers body).close = close

/-! ## The loop over the headers -/

variable {headers : List (Bytes × Bytes)} {uri : Uri} {body : Bytes}

/-- The headers and the two marks do not depend on the close flag. -/
theorem fill_close (close close' : Bool) (headers : List (Bytes × Bytes)) :
    fill close headers = { fill close' headers with close := (fill close headers).close } := by
  have hfold : ∀ (headers : List (Bytes × Bytes)) (filled : Filled) (close : Bool),
      headers.foldl Filled.store { filled with close := close } =
        { headers.foldl Filled.store filled with
          close := (headers.foldl Filled.store { filled with close := close }).close } := by
    intro headers
    induction headers with
    | nil => exact fun _ _ => rfl
    | cons i headers ih =>
      intro filled close
      have hstore : ∃ close', Filled.store { filled with close := close } i =
          { filled.store i with close := close' } := by
        unfold Filled.store
        by_cases hname : caseKey i.1 = caseKey connectionName
        · rw [if_pos hname, if_pos hname]
          exact ⟨_, rfl⟩
        · rw [if_neg hname, if_neg hname]
          exact ⟨_, rfl⟩
      obtain ⟨close', hstore⟩ := hstore
      rw [List.foldl_cons, List.foldl_cons, hstore]
      exact ih (filled.store i) close'
  exact hfold headers ⟨[], close', false, false⟩ close

/-- The close flag is cleared by a `Connection` header of `keep-alive` and by nothing else. -/
theorem fill_close_eq_false_iff (close : Bool) (headers : List (Bytes × Bytes)) :
    (fill close headers).close = false ↔ close = false ∨ ∃ i ∈ headers, asksFor false i := by
  have hfold : ∀ (headers : List (Bytes × Bytes)) (filled : Filled),
      (headers.foldl Filled.store filled).close = false ↔
        filled.close = false ∨ ∃ i ∈ headers, asksFor false i := by
    intro headers
    induction headers with
    | nil => simp
    | cons i headers ih =>
      intro filled
      have hstore : (filled.store i).close = false ↔ filled.close = false ∨ asksFor false i := by
        unfold Filled.store asksFor
        by_cases hname : caseKey i.1 = caseKey connectionName
        · by_cases hvalue : caseKey i.2 = caseKey keepAlive
          · simp [hname, hvalue, connectionValue, keepAlive]
          · have hother : caseKey i.2 ≠ caseKey (connectionValue false) := hvalue
            simp [hname, hvalue, hother]
        · simp [hname]
      rw [List.foldl_cons, ih, hstore, List.exists_mem_cons_iff, or_assoc]
  exact hfold headers ⟨[], close, false, false⟩

/-! ## The bytes -/

namespace HttpRequest

/-- The bytes in front of the value of the `connection` header and those behind it. -/
theorem dump_around (r : HttpRequest) : ∃ before after, ∀ close,
    ({ r with close := close } : HttpRequest).dump false = before ++ (connectionValue close ++ after) := by
  refine ⟨httpMethodToString r.method ++ asciiText [' '] ++ r.path ++
    (if r.query = [] then [] else asciiText ['?']) ++ r.query ++
    (if r.fragment = [] then [] else asciiText ['#']) ++ r.fragment ++
    asciiText [' ', 'H', 'T', 'T', 'P', '/'] ++ decimal (r.version >>> 4) ++ asciiText ['.'] ++
    decimal (r.version &&& 0x0F) ++ lineEnd ++ (connectionName ++ asciiText [':']),
    lineEnd ++ (r.headers.flatMap fun i =>
      if !false && decide (caseKey i.1 = caseKey connectionName) then []
      else i.1 ++ asciiText [':'] ++ i.2 ++ lineEnd) ++
    (if r.body ≠ [] then
      contentLengthName ++ asciiText [':', ' '] ++ decimal r.body.length ++ lineEnd ++ lineEnd ++ r.body
    else lineEnd), fun close => ?_⟩
  simp only [dump, Bool.false_eq_true, if_false, List.append_assoc]

/-- Requests that differ in the close flag have different bytes. -/
theorem dump_close_inj {r : HttpRequest} {close close' : Bool}
    (h : ({ r with close := close } : HttpRequest).dump false =
      ({ r with close := close' } : HttpRequest).dump false) :
    close = close' := by
  obtain ⟨before, after, hdump⟩ := r.dump_around
  rw [hdump, hdump, List.append_cancel_left_eq] at h
  have hfirst := congrArg List.head? h
  cases close with
  | false =>
    cases close' with
    | false => rfl
    | true => simp [connectionValue, asciiText] at hfirst
  | true =>
    cases close' with
    | false => simp [connectionValue, asciiText] at hfirst
    | true => rfl

/-- A path, a query and a fragment, and the three of them joined as the path. -/
theorem dump_joined (r : HttpRequest) (uri : Uri) :
    ({ r with path := uri.getPath, query := uri.query, fragment := uri.fragment } : HttpRequest).dump false =
      ({ r with path := uri.joined, query := [], fragment := [] } : HttpRequest).dump false := by
  simp only [dump, Uri.joined, List.append_assoc, if_true, List.nil_append]

end HttpRequest

/-- `DoGet` sends what `doGet` sends but for the close flag. -/
theorem doGet_eq (uri : Uri) (headers : List (Bytes × Bytes)) (body : Bytes) :
    (HttpConnection.doGet uri headers body).dump false =
      ({ PoolHost.doGet ⟨uri.host, []⟩ uri headers body with close := (fill true headers).close } :
        HttpRequest).dump false := by
  have hfill := fill_close true false headers
  have hcomplete : (fill true headers).complete uri.host = (fill false headers).complete uri.host := by
    rw [hfill]
    rfl
  have hjoined := HttpRequest.dump_joined
    { HttpRequest.fresh with
      close := (fill true headers).close
      headers := (fill true headers).complete uri.host
      body := body } uri
  refine hjoined.trans ?_
  rw [hcomplete]
  rfl

/-- `DoPost` sends another method than `doPost`. -/
theorem doPost_ne (pool : PoolHost) (uri : Uri) (headers : List (Bytes × Bytes)) (body : Bytes) :
    (HttpConnection.doPost uri headers body).dump false ≠ (pool.doPost uri headers body).dump false := by
  intro h
  have hfirst := congrArg List.head? h
  have hget : ((HttpConnection.doPost uri headers body).dump false).head? = some 71 := by
    simp [HttpRequest.dump, HttpConnection.doPost, HttpConnection.doRequest, httpMethodToString, httpMethodMap,
      asciiText]
  have hpost : ((pool.doPost uri headers body).dump false).head? = some 80 := by
    simp [HttpRequest.dump, PoolHost.doPost, PoolHost.doRequest, httpMethodToString, httpMethodMap, asciiText]
  rw [hget, hpost] at hfirst
  cases hfirst

/-- The bytes of `DoGet` and `doGet` agree if a `Connection` header asks for `keep-alive`. -/
theorem doGet_same_iff (uri : Uri) (headers : List (Bytes × Bytes)) (body : Bytes) :
    (HttpConnection.doGet uri headers body).dump false =
        (PoolHost.doGet ⟨uri.host, []⟩ uri headers body).dump false ↔ ∃ i ∈ headers, asksFor false i := by
  have hpool : (fill false headers).close = false := (fill_close_eq_false_iff false headers).mpr (Or.inl rfl)
  have hdirect := fill_close_eq_false_iff true headers
  simp only [Bool.true_eq_false, false_or] at hdirect
  rw [doGet_eq, ← hdirect]
  constructor
  · intro h
    have hclose : (fill true headers).close = (fill false headers).close :=
      HttpRequest.dump_close_inj (r := PoolHost.doGet ⟨uri.host, []⟩ uri headers body) h
    rw [hclose, hpool]
  · intro h
    rw [h, ← hpool]
    rfl

/-- For every URI, header map and body, with no vhost and a pool for the host of the URI: the direct and the
pooled function agree exactly for `DoGet` with a `Connection` header of `keep-alive` and none of `close`. -/
theorem requests_agree_iff (call : ClientCall) (uri : Uri) (headers : List (Bytes × Bytes)) (body : Bytes) :
    RequestsAgree call ⟨uri.host, []⟩ uri headers body ↔
      call = .get ∧ (∃ i ∈ headers, asksFor false i) ∧ ∀ i ∈ headers, ¬ asksFor true i := by
  have hpool : (fill false headers).close = false := (fill_close_eq_false_iff false headers).mpr (Or.inl rfl)
  constructor
  · intro h
    cases call with
    | post => exact absurd h.bytes (doPost_ne ⟨uri.host, []⟩ uri headers body)
    | get =>
      refine ⟨rfl, (doGet_same_iff uri headers body).mp h.bytes, fun i hi hasks => ?_⟩
      have hclose : (fill false headers).close = true := (h.connections i hi true hasks).2
      rw [hpool] at hclose
      cases hclose
  · rintro ⟨rfl, hkeep, hnone⟩
    have hdirect : (fill true headers).close = false :=
      (fill_close_eq_false_iff true headers).mpr (Or.inr hkeep)
    refine ⟨(doGet_same_iff uri headers body).mpr hkeep, ⟨rfl, rfl⟩, fun i hi close hasks => ?_⟩
    cases close with
    | false => exact ⟨hdirect, hpool⟩
    | true => exact absurd hasks (hnone i hi)

/-- The direct `DoPost` sends a `GET`, and without headers the direct `DoGet` asks to close the connection
where the pooled one asks to keep it. -/
theorem post_sent_as_get :
    ¬ RequestsAgree .post ⟨hostName, []⟩ ⟨hostName, asciiText ['/'], [], []⟩ [(connectionName, keepAlive)] [] ∧
      ¬ RequestsAgree .get ⟨hostName, []⟩ ⟨hostName, asciiText ['/'], [], []⟩ [] [] := by
  constructor
  · intro h
    have hmethod : HttpMethod.get = .post := h.methods.1
    cases hmethod
  · intro h
    obtain ⟨i, hi, -⟩ := (doGet_same_iff _ [] []).mp h.bytes
    cases hi

end Bobliew.Http
