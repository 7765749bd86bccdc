import Bobliew.Http.KeepAlive
import Bobliew.Http.Dump
import Bobliew.Http.ResponseParser

/-!
# The loop of the HTTP server

`HttpServer::handleClient` receives a request, makes a response for it, lets a servlet fill it in and sends
it, until a request cannot be received, keeping connections is switched off, or the request asks to close.
The decision to close is passed to the constructor of the response as well, which ignores it: every response
announces `keep-alive`.

So the `connection` header is right exactly while the connection is kept.
-/

namespace Bobliew.Http

/-! ## Responses -/

/-- A response that a server sends: with the websocket flag and the cookies. -/
structure ServerResponse extends HttpResponse where
  websocket : Bool
  cookies : List Bytes

/-- `HTTP_STATUS_MAP`. -/
def httpStatusMap : List (ℤ × String) :=
  [(100, "Continue"), (101, "Switching Protocols"), (102, "Processing"), (200, "OK"), (201, "Created"),
    (202, "Accepted"), (203, "Non-Authoritative Information"), (204, "No Content"), (205, "Reset Content"),
    (206, "Partial Content"), (207, "Multi-Status"), (208, "Already Reported"), (226, "IM Used"),
    (300, "Multiple Choices"), (301, "Moved Permanently"), (302, "Found"), (303, "See Other"),
    (304, "Not Modified"), (305, "Use Proxy"), (307, "Temporary Redicrect"), (308, "Permanent Redirect"),
    (400, "Bad Request"), (401, "Unauthorized"), (402, "Payment Required"), (403, "Forbidden"),
    (404, "Not Found"), (405, "Method Not Allowed"), (406, "Not Acceptable"),
    (408, "Proxy Authentication Required"), (409, "Conflict"), (410, "Gone"), (411, "Length Required"),
    (412, "Precondition Failed"), (413, "Payload Too Large"), (414, "URI Too Long"),
    (415, "Unsupported Media Type"), (416, "Range Not Satisfiable"), (417, "Expectation Failed"),
    (421, "Misdirected Request"), (422, "Unprocessable Entity"), (423, "Locked"),
    (424, "Failed Dependency"), (426, "Upgrade Required"), (428, "Precondition Required"),
    (429, "Too Many Requests"), (431, "Request Header Fields Too Large"),
    (451, "Unavailable For Legal Reason"), (500, "Internal Server Error"), (501, "Not Implemented"),
    (502, "Bad Gateway"), (503, "Service Unavailable"), (504, "Gateway Timeout"),
    (505, "Http Version Not Supported"), (506, "Variant Also Negotiates"), (507, "Insufficient Storage"),
    (508, "Loop Detected"), (510, "Not Extended"), (511, "Network Authentication required")]

/-- `HttpStatusToString`. -/
def httpStatusToString (status : ℤ) : Bytes :=
  let text := ((httpStatusMap.find? fun entry => decide (entry.1 = status)).map (·.2)).getD "<unknown>"
  asciiText text.toList

namespace ServerResponse

variable (rsp : ServerResponse)

/-- `HttpResponse::HttpResponse`: the second argument is not used. -/
def new (version : ℕ) (_close : Bool) : ServerResponse where
  status := 200
  version := version
  close := false
  websocket := false
  body := []
  reason := []
  headers := []
  cookies := []

/-- `setHeader`. -/
def setHeader (key val : Bytes) : ServerResponse :=
  { rsp with headers := rsp.headers.set key val }

/-- The headers `dump` writes, apart from the length of the body. -/
def emitted : List (Bytes × Bytes) :=
  (rsp.headers.filter fun i => !(!rsp.websocket && decide (caseKey i.1 = caseKey connectionName))) ++
    (rsp.cookies.map fun i => (asciiText ['S', 'e', 't', '_', 'C', 'o', 'o', 'k', 'i', 'e'], i)) ++
    (if rsp.websocket then [] else [(connectionName, connectionValue rsp.close)])

/-- `dump`. -/
def dump : Bytes :=
  asciiText ['H', 'T', 'T', 'P', '/'] ++ decimal (rsp.version >>> 4) ++ asciiText ['.'] ++
    decimal (rsp.version &&& 0x0F) ++ asciiText [' '] ++ decimal (rsp.status % 2 ^ 32).toNat ++ asciiText [' '] ++
    (if rsp.reason = [] then httpStatusToString rsp.status else rsp.reason) ++ lineEnd ++
    (rsp.emitted.flatMap fun i => i.1 ++ asciiText [':', ' '] ++ i.2 ++ lineEnd) ++
    (if rsp.body ≠ [] then
      contentLengthName ++ asciiText [':', ' '] ++ decimal rsp.body.length ++ lineEnd ++ lineEnd ++ rsp.body
    else lineEnd)

/-- The values of the `connection` headers that `dump` writes. -/
def connectionHeaders : List Bytes :=
  (rsp.emitted.filter fun i => decide (caseKey i.1 = caseKey connectionName)).map (·.2)

end ServerResponse

/-! ## The loop -/

/-- A server: `m_isKeepalive` and its name. -/
structure HttpServer where
  isKeepalive : Bool
  name : Bytes

/-- What a round of the loop meets: the value that the memory of a new parser holds at `query_start`, and
what the dispatch does to the request and the response. -/
structure Round where
  queryStart : ℕ
  handle : HttpRequest → ServerResponse → HttpRequest × ServerResponse

/-- What comes of a round that receives a request: the request and the response after the servlet, the bytes
sent, and whether the connection is closed then. -/
structure Exchange where
  request : HttpRequest
  response : ServerResponse
  sent : Bytes
  closes : Bool

/-- The servlet changes neither the close flag nor the websocket flag of the response. -/
def Round.KeepsFlags (round : Round) : Prop :=
  ∀ req rsp, (round.handle req rsp).2.close = rsp.close ∧ (round.handle req rsp).2.websocket = rsp.websocket

section Server

variable (lexicalCast : Bytes → Option ℕ) (uriRelaxed : Bool) (buffSize : BufferSize) (server : HttpServer)

/-- One request and its response. -/
def HttpServer.exchange (round : Round) (req : HttpRequest) : Exchange :=
  let rsp := (ServerResponse.new req.version (req.close || !server.isKeepalive)).setHeader
    (asciiText ['S', 'e', 'r', 'v', 'e', 'r']) server.name
  let handled := round.handle req rsp
  ⟨handled.1, handled.2, handled.2.dump, !server.isKeepalive || handled.1.close⟩

/-- `handleClient`, for as many rounds as are given. -/
def HttpServer.handleClient : List Round → List Bytes → List Exchange
  | [], _ => []
  | round :: rounds, pieces =>
    match recvNext lexicalCast uriRelaxed buffSize round.queryStart pieces with
    | (.request req, pieces') =>
      let exchange := server.exchange round req
      exchange :: (if exchange.closes then [] else HttpServer.handleClient rounds pieces')
    | _ => []

/-- The `connection` header of the response announces what becomes of the connection. -/
def Exchange.Agrees (exchange : Exchange) : Prop :=
  exchange.response.connectionHeaders = [connectionValue exchange.closes]

variable {lexicalCast uriRelaxed buffSize server}

/-- Without the websocket flag the close flag gives the one `connection` header there is. -/
theorem ServerResponse.connectionHeaders_eq {rsp : ServerResponse} (h : rsp.websocket = false) :
    rsp.connectionHeaders = [connectionValue rsp.close] := by
  have hheaders : (rsp.headers.filter fun i =>
      !(!rsp.websocket && decide (caseKey i.1 = caseKey connectionName))).filter
        (fun i => decide (caseKey i.1 = caseKey connectionName)) = [] := by
    refine List.filter_eq_nil_iff.mpr fun i hi => ?_
    have hother := (List.mem_filter.mp hi).2
    rw [h] at hother
    simpa using hother
  have hcookies : (rsp.cookies.map fun i => (asciiText ['S', 'e', 't', '_', 'C', 'o', 'o', 'k', 'i', 'e'], i)).filter
      (fun i => decide (caseKey i.1 = caseKey connectionName)) = [] := by
    refine List.filter_eq_nil_iff.mpr fun i hi => ?_
    obtain ⟨cookie, -, rfl⟩ := List.mem_map.mp hi
    have hne : caseKey (asciiText ['S', 'e', 't', '_', 'C', 'o', 'o', 'k', 'i', 'e']) ≠ caseKey connectionName := by
      decide
    simpa using hne
  rw [connectionHeaders, emitted, List.filter_append, List.filter_append, hheaders, hcookies, h]
  simp

/-- Every exchange of a run is one of a round with a request. -/
theorem HttpServer.mem_handleClient {rounds : List Round} {pieces : List Bytes} {exchange : Exchange}
    (h : exchange ∈ server.handleClient lexicalCast uriRelaxed buffSize rounds pieces) :
    ∃ round ∈ rounds, ∃ req, exchange = server.exchange round req := by
  induction rounds generalizing pieces with
  | nil => cases h
  | cons round rounds ih =>
    rw [handleClient] at h
    split at h
    · rename_i req pieces' hreceived
      rcases List.mem_cons.mp h with hfirst | hlater
      · exact ⟨round, List.mem_cons_self, req, hfirst⟩
      · split_ifs at hlater with hcloses
        · cases hlater
        · obtain ⟨round', hround', req', heq⟩ := ih hlater
          exact ⟨round', List.mem_cons_of_mem _ hround', req', heq⟩
    · cases h

/-- An exchange announces what becomes of the connection exactly if the connection is kept. -/
theorem HttpServer.exchange_agrees_iff {round : Round} (hround : round.KeepsFlags) (req : HttpRequest) :
    (server.exchange round req).Agrees ↔
      server.isKeepalive = true ∧ (server.exchange round req).request.close = false := by
  obtain ⟨hclose, hwebsocket⟩ := hround req
    ((ServerResponse.new req.version (req.close || !server.isKeepalive)).setHeader
      (asciiText ['S', 'e', 'r', 'v', 'e', 'r']) server.name)
  have hkept : (server.exchange round req).response.close = false := hclose
  have hplain : (server.exchange round req).response.websocket = false := hwebsocket
  have hcloses : (server.exchange round req).closes =
      (!server.isKeepalive || (server.exchange round req).request.close) := rfl
  rw [Exchange.Agrees, ServerResponse.connectionHeaders_eq hplain, hkept, hcloses]
  cases server.isKeepalive <;> cases (server.exchange round req).request.close <;>
    simp [connectionValue, asciiText]

/-- For every server, every sequence of requests and all servlets that leave the flags of the response alone:
every `connection` header sent is right exactly if the server keeps connections and no request asks, after
its servlet, for the connection to be closed. -/
theorem connection_header_agrees_iff {rounds : List Round} (hrounds : ∀ round ∈ rounds, round.KeepsFlags)
    (pieces : List Bytes) :
    (∀ exchange ∈ server.handleClient lexicalCast uriRelaxed buffSize rounds pieces, exchange.Agrees) ↔
      ∀ exchange ∈ server.handleClient lexicalCast uriRelaxed buffSize rounds pieces,
        server.isKeepalive = true ∧ exchange.request.close = false := by
  refine forall₂_congr fun exchange hexchange => ?_
  obtain ⟨round, hround, req, rfl⟩ := HttpServer.mem_handleClient hexchange
  exact HttpServer.exchange_agrees_iff (hrounds round hround) req

end Server

/-- One request that asks for the connection to be kept, answered by a servlet that does nothing. -/
theorem handleClient_rootKept (server : HttpServer) :
    server.handleClient (fun _ => none) false ⟨4096, by decide, by decide⟩ [⟨7, fun req rsp => (req, rsp)⟩]
        [delivered [rootKept]] =
      [server.exchange ⟨7, fun req rsp => (req, rsp)⟩ rootKept.request] := by
  have hreceived : recvNext (fun _ => none) false ⟨4096, by decide, by decide⟩ 7 [delivered [rootKept]] =
      (.request rootKept.request, []) := recvNext_delivered rootKept_wellFormed (by decide) 7 []
  rw [HttpServer.handleClient, hreceived]
  dsimp only
  rw [HttpServer.handleClient]
  split_ifs <;> rfl

/-- A server that keeps connections, and a client that asks for it. -/
theorem connection_header_agrees_rootKept :
    (HttpServer.handleClient (fun _ => none) false ⟨4096, by decide, by decide⟩ ⟨true, []⟩
        [⟨7, fun req rsp => (req, rsp)⟩] [delivered [rootKept]]).length = 1 ∧
      ∀ exchange ∈ HttpServer.handleClient (fun _ => none) false ⟨4096, by decide, by decide⟩ ⟨true, []⟩
        [⟨7, fun req rsp => (req, rsp)⟩] [delivered [rootKept]], exchange.Agrees := by
  have hflags : ∀ round ∈ [(⟨7, fun req rsp => (req, rsp)⟩ : Round)], round.KeepsFlags := by
    intro round hround
    rw [List.mem_singleton.mp hround]
    exact fun _ _ => ⟨rfl, rfl⟩
  rw [connection_header_agrees_iff hflags, handleClient_rootKept]
  refine ⟨rfl, fun exchange hexchange => ?_⟩
  rw [List.mem_singleton.mp hexchange]
  exact ⟨rfl, rfl⟩

/-- A server that does not keep connections announces `keep-alive` and closes. -/
theorem closed_behind_keep_alive :
    ∃ exchange ∈ HttpServer.handleClient (fun _ => none) false ⟨4096, by decide, by decide⟩ ⟨false, []⟩
      [⟨7, fun req rsp => (req, rsp)⟩] [delivered [rootKept]],
      exchange.closes = true ∧ exchange.response.connectionHeaders = [connectionValue false] ∧
        ¬ exchange.Agrees := by
  rw [handleClient_rootKept]
  refine ⟨_, List.mem_singleton_self _, rfl, by decide, ?_⟩
  rw [Exchange.Agrees]
  decide

end Bobliew.Http
