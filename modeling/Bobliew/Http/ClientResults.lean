import Bobliew.Http.ClientRequests
import Bobliew.Http.Connection
import Bobliew.Http.ConnectionPool
import Bobliew.Uri.Uri

/-!
# The results of the HTTP client

`HttpConnection::DoGet`, `DoPost` and `DoRequest` create a URI from a string, look up its host, open a socket,
connect it, send a request and wait for the response. Where a step fails they return a result with its code and a
text. The text for a host without an address is made with the address that was not found, and the null pointer is
followed; nor is an exception of `Uri::Create` or of `recvResponse` caught. `HttpConnectionPool::Create` logs that
there is no URI and goes on with the null pointer.
-/

namespace Bobliew.Http

/-- `HttpResult::Error`. -/
inductive ResultCode where
  | ok
  | invalidUrl
  | invalidHost
  | connectFail
  | sendCloseByPeer
  | sendSocketError
  | timeout
  | createSocketError
  | poolGetConnection
  | poolInvalidConnection
  deriving DecidableEq, Repr

/-- The number of a code. -/
def ResultCode.toInt : ResultCode → ℤ
  | .ok => 0
  | .invalidUrl => 1
  | .invalidHost => 2
  | .connectFail => 3
  | .sendCloseByPeer => 4
  | .sendSocketError => 5
  | .timeout => 6
  | .createSocketError => 7
  | .poolGetConnection => 8
  | .poolInvalidConnection => 9

/-- `HttpResult`. -/
structure HttpResult where
  result : ℤ
  response : Option HttpResponse
  error : Bytes
  deriving DecidableEq

/-- Why a function does not return: an exception of `Uri::Create` or of `recvResponse`, a read in front of the
buffer of the latter, or a null pointer that is followed. -/
inductive ClientFault where
  | uri (fault : Bobliew.Uri.Fault)
  | recvThrown
  | recvOutOfRange
  | nullAddress
  | nullUri
  deriving DecidableEq

/-- The network, with its addresses and sockets: what the steps come out at, and what the texts are made of. -/
structure Network (Addr Sock : Type) where
  lookupAnyIPAddress : Bytes → Option Addr
  setPort : Addr → ℤ → Addr
  toString : Addr → Bytes
  createTCP : Bool → Addr → Option Sock
  createErrno : Addr → ℤ
  connect : Sock → Addr → Bool
  sendRequest : Sock → HttpRequest → ℤ
  sendErrno : Sock → ℤ
  recvResponse : Sock → ℕ → ResponseOutcome
  strerror : ℤ → Bytes

/-- `uri->getScheme() == "https"`. -/
def overSsl (uri : Bobliew.Uri) : Bool := decide (uri.scheme = asciiText ['h', 't', 't', 'p', 's'])

namespace Network

variable {Addr Sock : Type} (network : Network Addr Sock)

/-- `Uri::createAddress`. -/
def createAddress (uri : Bobliew.Uri) : Option Addr :=
  (network.lookupAnyIPAddress uri.host).map fun addr => network.setPort addr uri.getPort

/-- `addr->toString()`. -/
def addressText : Option Addr → Except ClientFault Bytes
  | none => .error .nullAddress
  | some addr => .ok (network.toString addr)

/-- `DoRequest` with a request. -/
def doRequestSend (req : HttpRequest) (uri : Bobliew.Uri) (timeoutMs : ℕ) : Except ClientFault HttpResult :=
  let isSsl := overSsl uri
  let addr := network.createAddress uri
  match addr with
  | none => do
    return ⟨ResultCode.invalidHost.toInt, none, asciiText "invalid host:".toList ++ (← network.addressText addr)⟩
  | some address =>
    match network.createTCP isSsl address with
    | none => do
      let errno := network.createErrno address
      return ⟨ResultCode.createSocketError.toInt, none,
        asciiText "create socket fail".toList ++ (← network.addressText addr) ++
          asciiText " errno=".toList ++ Uri.numberText errno ++
          asciiText " errstr=".toList ++ network.strerror errno⟩
    | some sock =>
      if network.connect sock address = false then do
        return ⟨ResultCode.connectFail.toInt, none,
          asciiText "connect fail: ".toList ++ (← network.addressText addr)⟩
      else
        let rt := network.sendRequest sock req
        if rt = 0 then do
          return ⟨ResultCode.sendCloseByPeer.toInt, none,
            asciiText "send request closed by peer: ".toList ++ (← network.addressText addr)⟩
        else if rt < 0 then
          let errno := network.sendErrno sock
          return ⟨ResultCode.sendSocketError.toInt, none,
            asciiText "send request socket error errno=".toList ++ Uri.numberText errno ++
              asciiText " errstr=".toList ++ network.strerror errno⟩
        else
          match network.recvResponse sock timeoutMs with
          | .thrown => .error .recvThrown
          | .outOfRange => .error .recvOutOfRange
          | .null => do
            return ⟨ResultCode.timeout.toInt, none,
              asciiText "recv response timeout: ".toList ++ (← network.addressText addr) ++
                asciiText " timeout_ms".toList ++ decimal timeoutMs⟩
          | .response rsp => return ⟨ResultCode.ok.toInt, some rsp, asciiText "ok".toList⟩

/-- What a request is made from. -/
def components (uri : Bobliew.Uri) : Uri := ⟨uri.host, uri.path, uri.query, uri.fragment⟩

/-- `DoRequest` with a URI. -/
def doRequestUri (method : HttpMethod) (uri : Bobliew.Uri) (timeoutMs : ℕ) (headers : List (Bytes × Bytes))
    (body : Bytes) : Except ClientFault HttpResult :=
  network.doRequestSend (HttpConnection.doRequest method (components uri) headers body) uri timeoutMs

/-- `DoGet` with a URI. -/
def doGetUri (uri : Bobliew.Uri) (timeoutMs : ℕ) (headers : List (Bytes × Bytes)) (body : Bytes) :
    Except ClientFault HttpResult :=
  network.doRequestUri .get uri timeoutMs headers body

/-- `DoPost` with a URI. -/
def doPostUri (uri : Bobliew.Uri) (timeoutMs : ℕ) (headers : List (Bytes × Bytes)) (body : Bytes) :
    Except ClientFault HttpResult :=
  network.doRequestUri .get uri timeoutMs headers body

/-- What the functions with a string do first, with the function for the URI. -/
def withUri (url : Bytes) (next : Bobliew.Uri → Except ClientFault HttpResult) : Except ClientFault HttpResult :=
  match Bobliew.Uri.create url with
  | .error fault => .error (.uri fault)
  | .ok none => .ok ⟨ResultCode.invalidUrl.toInt, none, asciiText "invalid url: ".toList ++ url⟩
  | .ok (some uri) => next uri

/-- `DoGet` with a string. -/
def doGet (url : Bytes) (timeoutMs : ℕ) (headers : List (Bytes × Bytes)) (body : Bytes) :
    Except ClientFault HttpResult :=
  withUri url fun uri => network.doGetUri uri timeoutMs headers body

/-- `DoPost` with a string. -/
def doPost (url : Bytes) (timeoutMs : ℕ) (headers : List (Bytes × Bytes)) (body : Bytes) :
    Except ClientFault HttpResult :=
  withUri url fun uri => network.doPostUri uri timeoutMs headers body

/-- `DoRequest` with a string. -/
def doRequest (method : HttpMethod) (url : Bytes) (timeoutMs : ℕ) (headers : List (Bytes × Bytes)) (body : Bytes) :
    Except ClientFault HttpResult :=
  withUri url fun uri => network.doRequestUri method uri timeoutMs headers body

end Network

/-- What an `HttpConnectionPool` is constructed with. -/
structure PoolSettings where
  names : PoolHost
  port : ℕ
  isHttps : Bool
  limits : PoolLimits

namespace PoolSettings

/-- `HttpConnectionPool::HttpConnectionPool`. -/
def new (host vhost : Bytes) (port : ℕ) (isHttps : Bool) (limits : PoolLimits) : PoolSettings where
  names := ⟨host, vhost⟩
  port := if port ≠ 0 then port else if isHttps then 443 else 80
  isHttps := isHttps
  limits := limits

/-- `HttpConnectionPool::Create`, with the port as a `uint32_t`; none for a null pointer. -/
def create (uri vhost : Bytes) (limits : PoolLimits) : Except ClientFault (Option PoolSettings) :=
  match Bobliew.Uri.create uri with
  | .error fault => .error (.uri fault)
  | .ok none => .error .nullUri
  | .ok (some turi) =>
    .ok (some (new turi.host vhost (turi.getPort % 2 ^ 32).toNat (overSsl turi) limits))

end PoolSettings

/-! ## What the functions are for -/

variable {Addr Sock : Type}

/-- How a request ends: with the code of the step that fails behind those that succeed, or with a response. -/
inductive Ends (network : Network Addr Sock) (request : Bobliew.Uri → HttpRequest) (timeoutMs : ℕ) (url : Bytes) :
    ResultCode → Option HttpResponse → Prop where
  | invalidUrl (huri : Bobliew.Uri.create url = .ok none) : Ends network request timeoutMs url .invalidUrl none
  | invalidHost {uri} (huri : Bobliew.Uri.create url = .ok (some uri)) (haddr : network.createAddress uri = none) :
      Ends network request timeoutMs url .invalidHost none
  | createSocketError {uri addr} (huri : Bobliew.Uri.create url = .ok (some uri))
      (haddr : network.createAddress uri = some addr)
      (hsock : network.createTCP (overSsl uri) addr = none) :
      Ends network request timeoutMs url .createSocketError none
  | connectFail {uri addr sock} (huri : Bobliew.Uri.create url = .ok (some uri))
      (haddr : network.createAddress uri = some addr)
      (hsock : network.createTCP (overSsl uri) addr = some sock)
      (hconnect : network.connect sock addr = false) :
      Ends network request timeoutMs url .connectFail none
  | sendCloseByPeer {uri addr sock} (huri : Bobliew.Uri.create url = .ok (some uri))
      (haddr : network.createAddress uri = some addr)
      (hsock : network.createTCP (overSsl uri) addr = some sock)
      (hconnect : network.connect sock addr = true) (hsend : network.sendRequest sock (request uri) = 0) :
      Ends network request timeoutMs url .sendCloseByPeer none
  | sendSocketError {uri addr sock} (huri : Bobliew.Uri.create url = .ok (some uri))
      (haddr : network.createAddress uri = some addr)
      (hsock : network.createTCP (overSsl uri) addr = some sock)
      (hconnect : network.connect sock addr = true) (hsend : network.sendRequest sock (request uri) < 0) :
      Ends network request timeoutMs url .sendSocketError none
  | timeout {uri addr sock} (huri : Bobliew.Uri.create url = .ok (some uri))
      (haddr : network.createAddress uri = some addr)
      (hsock : network.createTCP (overSsl uri) addr = some sock)
      (hconnect : network.connect sock addr = true) (hsend : 0 < network.sendRequest sock (request uri))
      (hrecv : ∀ rsp, network.recvResponse sock timeoutMs ≠ .response rsp) :
      Ends network request timeoutMs url .timeout none
  | ok {uri addr sock rsp} (huri : Bobliew.Uri.create url = .ok (some uri))
      (haddr : network.createAddress uri = some addr)
      (hsock : network.createTCP (overSsl uri) addr = some sock)
      (hconnect : network.connect sock addr = true) (hsend : 0 < network.sendRequest sock (request uri))
      (hrecv : network.recvResponse sock timeoutMs = .response rsp) :
      Ends network request timeoutMs url .ok (some rsp)

/-- A function returns a result, which is how the request ends and the only way it does. -/
def Reports (network : Network Addr Sock) (request : Bobliew.Uri → HttpRequest) (timeoutMs : ℕ) (url : Bytes)
    (run : Except ClientFault HttpResult) : Prop :=
  ∃ result code, run = .ok result ∧ result.result = ResultCode.toInt code ∧
    ∀ other response, Ends network request timeoutMs url other response ↔
      other = code ∧ response = result.response

/-- What is received after a request was sent is a response, or there is none; nothing is thrown. -/
def Receivable (network : Network Addr Sock) (req : HttpRequest) (uri : Bobliew.Uri) (timeoutMs : ℕ) : Prop :=
  ∀ addr sock, network.createAddress uri = some addr → network.createTCP (overSsl uri) addr = some sock →
    network.connect sock addr = true → 0 < network.sendRequest sock req →
    network.recvResponse sock timeoutMs = .null ∨ ∃ rsp, network.recvResponse sock timeoutMs = .response rsp

/-- No exception is thrown for a string, and if the string is a URI, the host has an address and no exception is
thrown for what is received. -/
def Reportable (network : Network Addr Sock) (request : Bobliew.Uri → HttpRequest) (timeoutMs : ℕ) (url : Bytes) :
    Prop :=
  Bobliew.Uri.create url = .ok none ∨
    ∃ uri, Bobliew.Uri.create url = .ok (some uri) ∧ network.lookupAnyIPAddress uri.host ≠ none ∧
      Receivable network (request uri) uri timeoutMs

/-- `HttpConnectionPool::Create` returns, with a pool or a null pointer. -/
def CreatesPool (uri vhost : Bytes) (limits : PoolLimits) : Prop :=
  ∃ pool, PoolSettings.create uri vhost limits = .ok pool

variable {network : Network Addr Sock} {request : Bobliew.Uri → HttpRequest} {timeoutMs : ℕ} {url : Bytes}
  {code other : ResultCode} {response : Option HttpResponse}

/-! ## How a request ends -/

/-- The codes have different numbers. -/
theorem ResultCode.toInt_injective : Function.Injective ResultCode.toInt := by
  intro code other h
  cases code <;> cases other <;> first | rfl | simp [ResultCode.toInt] at h

/-- What the functions with a string do, whatever request they make. -/
def runRequest (network : Network Addr Sock) (request : Bobliew.Uri → HttpRequest) (timeoutMs : ℕ) (url : Bytes) :
    Except ClientFault HttpResult :=
  Network.withUri url fun uri => network.doRequestSend (request uri) uri timeoutMs

/-- A host without an address is not reported. -/
theorem runRequest_of_no_address {uri : Bobliew.Uri} (huri : Bobliew.Uri.create url = .ok (some uri))
    (haddr : network.createAddress uri = none) :
    runRequest network request timeoutMs url = .error .nullAddress := by
  simp only [runRequest, Network.withUri, huri, Network.doRequestSend, haddr]
  rfl

/-- An exception of `recvResponse` is not caught. -/
theorem runRequest_of_not_receivable {uri : Bobliew.Uri} (huri : Bobliew.Uri.create url = .ok (some uri))
    (h : ¬Receivable network (request uri) uri timeoutMs) :
    ∃ fault, runRequest network request timeoutMs url = .error fault := by
  unfold Receivable at h
  push Not at h
  obtain ⟨addr, sock, haddr, hsock, hconnect, hsend, hnull, hresponse⟩ := h
  unfold runRequest Network.withUri
  cases hrecv : network.recvResponse sock timeoutMs with
  | null => exact absurd hrecv hnull
  | response rsp => exact absurd hrecv (hresponse rsp)
  | thrown =>
    simp only [huri, Network.doRequestSend, haddr, hsock, hconnect, if_neg hsend.ne', if_neg hsend.asymm, hrecv]
    exact ⟨_, rfl⟩
  | outOfRange =>
    simp only [huri, Network.doRequestSend, haddr, hsock, hconnect, if_neg hsend.ne', if_neg hsend.asymm, hrecv]
    exact ⟨_, rfl⟩

/-- What is known of the URI of a string for which a request is reported. -/
theorem Reportable.of_create {uri : Bobliew.Uri} (h : Reportable network request timeoutMs url)
    (huri : Bobliew.Uri.create url = .ok (some uri)) :
    network.createAddress uri ≠ none ∧ Receivable network (request uri) uri timeoutMs := by
  rcases h with hnone | ⟨uri', huri', hfound, hreceivable⟩
  · rw [huri] at hnone
    cases hnone
  · rw [huri] at huri'
    cases huri'
    exact ⟨fun hnone => hfound (Option.map_eq_none_iff.mp hnone), hreceivable⟩

/-- The end of a request is reported when nothing is thrown and the host has an address. -/
theorem Ends.run_eq (h : Ends network request timeoutMs url code response)
    (hreportable : Reportable network request timeoutMs url) :
    ∃ text, runRequest network request timeoutMs url = .ok ⟨code.toInt, response, text⟩ := by
  unfold runRequest Network.withUri
  cases h with
  | invalidUrl huri => exact ⟨_, by rw [huri]⟩
  | invalidHost huri haddr => exact ((hreportable.of_create huri).1 haddr).elim
  | createSocketError huri haddr hsock =>
    simp only [huri, Network.doRequestSend, haddr, hsock]
    exact ⟨_, rfl⟩
  | connectFail huri haddr hsock hconnect =>
    simp only [huri, Network.doRequestSend, haddr, hsock, hconnect]
    exact ⟨_, rfl⟩
  | sendCloseByPeer huri haddr hsock hconnect hsend =>
    simp only [huri, Network.doRequestSend, haddr, hsock, hconnect, hsend]
    exact ⟨_, rfl⟩
  | sendSocketError huri haddr hsock hconnect hsend =>
    simp only [huri, Network.doRequestSend, haddr, hsock, hconnect, if_neg hsend.ne, if_pos hsend]
    exact ⟨_, rfl⟩
  | timeout huri haddr hsock hconnect hsend hrecv =>
    rcases (hreportable.of_create huri).2 _ _ haddr hsock hconnect hsend with hnull | ⟨rsp, hrsp⟩
    · simp only [huri, Network.doRequestSend, haddr, hsock, hconnect, if_neg hsend.ne', if_neg hsend.asymm, hnull]
      exact ⟨_, rfl⟩
    · exact (hrecv rsp hrsp).elim
  | ok huri haddr hsock hconnect hsend hrecv =>
    simp only [huri, Network.doRequestSend, haddr, hsock, hconnect, if_neg hsend.ne', if_neg hsend.asymm, hrecv]
    exact ⟨_, rfl⟩

/-- Every request ends, unless an exception is thrown for its string. -/
theorem exists_ends (network : Network Addr Sock) (request : Bobliew.Uri → HttpRequest) (timeoutMs : ℕ)
    {created : Option Bobliew.Uri} (huri : Bobliew.Uri.create url = .ok created) :
    ∃ code response, Ends network request timeoutMs url code response := by
  cases created with
  | none => exact ⟨_, _, .invalidUrl huri⟩
  | some uri =>
    cases haddr : network.createAddress uri with
    | none => exact ⟨_, _, .invalidHost huri haddr⟩
    | some addr =>
      cases hsock : network.createTCP (overSsl uri) addr with
      | none => exact ⟨_, _, .createSocketError huri haddr hsock⟩
      | some sock =>
        cases hconnect : network.connect sock addr with
        | false => exact ⟨_, _, .connectFail huri haddr hsock hconnect⟩
        | true =>
          rcases lt_trichotomy (network.sendRequest sock (request uri)) 0 with hsend | hsend | hsend
          · exact ⟨_, _, .sendSocketError huri haddr hsock hconnect hsend⟩
          · exact ⟨_, _, .sendCloseByPeer huri haddr hsock hconnect hsend⟩
          · by_cases hrecv : ∃ rsp, network.recvResponse sock timeoutMs = .response rsp
            · obtain ⟨rsp, hrsp⟩ := hrecv
              exact ⟨_, _, .ok huri haddr hsock hconnect hsend hrsp⟩
            · exact ⟨_, _, .timeout huri haddr hsock hconnect hsend (not_exists.mp hrecv)⟩

/-- A reported request is reportable. -/
theorem reportable_of_run_eq {result : HttpResult} (hrun : runRequest network request timeoutMs url = .ok result) :
    Reportable network request timeoutMs url := by
  cases huri : Bobliew.Uri.create url with
  | error fault =>
    rw [runRequest, Network.withUri, huri] at hrun
    cases hrun
  | ok created =>
    cases created with
    | none => exact .inl huri
    | some uri =>
      refine .inr ⟨uri, huri, fun hnone => ?_, ?_⟩
      · have haddr : network.createAddress uri = none := by rw [Network.createAddress, hnone, Option.map_none]
        rw [runRequest_of_no_address huri haddr] at hrun
        cases hrun
      · by_contra hthrows
        obtain ⟨fault, hfault⟩ := runRequest_of_not_receivable huri hthrows
        rw [hfault] at hrun
        cases hrun

/-- **When the end of a request is reported.** When no exception is thrown for the string, the host of its URI has
an address, and no exception is thrown for what is received. -/
theorem reports_runRequest_iff :
    Reports network request timeoutMs url (runRequest network request timeoutMs url) ↔
      Reportable network request timeoutMs url := by
  constructor
  · rintro ⟨result, code, hrun, _, _⟩
    exact reportable_of_run_eq hrun
  · intro h
    obtain ⟨created, huri⟩ : ∃ created, Bobliew.Uri.create url = .ok created := by
      rcases h with hnone | ⟨uri, huri, _⟩
      · exact ⟨_, hnone⟩
      · exact ⟨_, huri⟩
    obtain ⟨code, response, hends⟩ := exists_ends network request timeoutMs huri
    obtain ⟨text, hrun⟩ := hends.run_eq h
    refine ⟨_, code, hrun, rfl, fun other response' => ⟨fun hother => ?_, ?_⟩⟩
    · obtain ⟨text', hrun'⟩ := hother.run_eq h
      rw [hrun] at hrun'
      injection hrun' with hresult
      injection hresult with hint hresponse _
      exact ⟨ResultCode.toInt_injective hint.symm, hresponse.symm⟩
    · rintro ⟨rfl, rfl⟩
      exact hends

/-- A pool is created exactly from a URI. -/
theorem createsPool_iff (uri vhost : Bytes) (limits : PoolLimits) :
    CreatesPool uri vhost limits ↔ ∃ turi, Bobliew.Uri.create uri = .ok (some turi) := by
  unfold CreatesPool PoolSettings.create
  cases huri : Bobliew.Uri.create uri with
  | error fault => simp
  | ok created =>
    cases created with
    | none => simp
    | some turi => simp

/-- **When the functions return what they are for.** For every network, string, headers and body: `DoGet`, `DoPost`
and `DoRequest` exactly when `Uri::Create` does not throw, the host has an address and `recvResponse` does not throw
on what the server sends, and `HttpConnectionPool::Create` exactly for URIs. -/
theorem client_reports_iff (network : Network Addr Sock) (method : HttpMethod) (url : Bytes) (timeoutMs : ℕ)
    (headers : List (Bytes × Bytes)) (body : Bytes) (uri vhost : Bytes) (limits : PoolLimits) :
    (Reports network (fun uri => HttpConnection.doGet (Network.components uri) headers body) timeoutMs url
        (network.doGet url timeoutMs headers body) ↔
          Reportable network (fun uri => HttpConnection.doGet (Network.components uri) headers body) timeoutMs url) ∧
      (Reports network (fun uri => HttpConnection.doPost (Network.components uri) headers body) timeoutMs url
        (network.doPost url timeoutMs headers body) ↔
          Reportable network (fun uri => HttpConnection.doPost (Network.components uri) headers body) timeoutMs url) ∧
      (Reports network (fun uri => HttpConnection.doRequest method (Network.components uri) headers body) timeoutMs url
        (network.doRequest method url timeoutMs headers body) ↔
          Reportable network (fun uri => HttpConnection.doRequest method (Network.components uri) headers body)
            timeoutMs url) ∧
      (CreatesPool uri vhost limits ↔ ∃ turi, Bobliew.Uri.create uri = .ok (some turi)) :=
  ⟨reports_runRequest_iff, reports_runRequest_iff, reports_runRequest_iff, createsPool_iff uri vhost limits⟩

/-- A network in which no host has an address. -/
def noNetwork : Network Unit Unit where
  lookupAnyIPAddress _ := none
  setPort addr _ := addr
  toString _ := []
  createTCP _ _ := none
  createErrno _ := 0
  connect _ _ := false
  sendRequest _ _ := 0
  sendErrno _ := 0
  recvResponse _ _ := .null
  strerror _ := []

/-- `http://h/`. -/
def hostUrl : Bytes := asciiText ['h', 't', 't', 'p', ':', '/', '/', 'h', '/']

/-- The address of `http://h/` that was not found is printed all the same, and a pool takes its host from no URI. -/
theorem not_client_reports :
    ¬Reports noNetwork (fun uri => HttpConnection.doGet (Network.components uri) [] []) 0 hostUrl
        (noNetwork.doGet hostUrl 0 [] []) ∧
      ¬CreatesPool (asciiText [' ']) [] ⟨10, 1000, 5⟩ := by
  constructor
  · rintro ⟨result, _, hrun, _, _⟩
    have huri : Bobliew.Uri.create hostUrl =
        .ok (some ⟨asciiText ['h', 't', 't', 'p'], [], asciiText ['h'], asciiText ['/'], [], [], 0⟩) := by
      decide +kernel
    have hfault : noNetwork.doGet hostUrl 0 [] [] = .error .nullAddress := by
      rw [Network.doGet, Network.withUri, huri]
      rfl
    rw [hfault] at hrun
    cases hrun
  · rw [createsPool_iff]
    rintro ⟨turi, huri⟩
    have hnone : Bobliew.Uri.create (asciiText [' ']) = .ok none := by decide +kernel
    rw [hnone] at huri
    cases huri

end Bobliew.Http
