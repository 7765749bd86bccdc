import Bobliew.Http.ResponseRoundTrip

/-!
# Requests and their responses on a connection

A client that waits for each response before it sends the next request, and the loop of the server. Since no
read of the server goes past a request, nothing of the next one is lost with the buffer of `recvRequest`, and
the loop answers the requests one after the other, each as it was sent, until it closes the connection. The
client then holds of each response what `dump` has sent.
-/

namespace Bobliew.Http

open RequestMachine

/-! ## One request -/

section Request

variable {lexicalCast : Bytes → Option ℕ} {uriRelaxed : Bool} {buffSize : BufferSize} {pieces rest : List Bytes}
  {r r' : HttpRequest} {part line more : Bytes}

/-- A read takes nothing of what comes behind the pieces. -/
theorem readSome_append_right {n : ℕ} {got : Bytes} (h : readSome n pieces = some (got, rest)) (later : List Bytes) :
    readSome n (pieces ++ later) = some (got, rest ++ later) := by
  cases pieces with
  | nil => cases h
  | cons piece pieces =>
    simp only [readSome] at h
    rw [List.cons_append]
    simp only [readSome]
    split_ifs at h ⊢ with hend hfits
    · obtain ⟨rfl, rfl⟩ := Prod.mk.inj (Option.some.inj h)
      rfl
    · obtain ⟨rfl, rfl⟩ := Prod.mk.inj (Option.some.inj h)
      rfl

/-- `readFixSize` for exactly the bytes of some pieces. -/
theorem readFixSize_flatten (hpieces : ∀ piece ∈ pieces, piece ≠ []) (later : List Bytes) :
    readFixSize pieces.flatten.length (pieces ++ later) = some (pieces.flatten, later) := by
  induction pieces with
  | nil => simp [readFixSize]
  | cons piece pieces ih =>
    have hpiece := hpieces piece List.mem_cons_self
    have hrest := ih fun x hx => hpieces x (List.mem_cons_of_mem piece hx)
    have hlength : (piece :: pieces).flatten.length = piece.length + pieces.flatten.length := by
      rw [List.flatten_cons, List.length_append]
    obtain ⟨n, hn⟩ : ∃ n, piece.length + pieces.flatten.length = n + 1 :=
      Nat.exists_eq_add_one_of_ne_zero fun h => hpiece (List.length_eq_zero_iff.mp (by omega))
    have hleft : n + 1 - piece.length = pieces.flatten.length := by omega
    rw [hlength, hn, List.cons_append, readFixSize, if_neg hpiece, if_pos (by omega), hleft, hrest]
    rfl

/-- A serialised request is received, and the pieces behind it are left. -/
theorem recvNext_dump (hcast : ReadsDecimal lexicalCast) (hr : r.Dumpable uriRelaxed)
    (harrives : r.Arrives buffSize pieces) (hreceivable : r.Receivable buffSize pieces) (queryStart : ℕ)
    (later : List Bytes) :
    recvNext lexicalCast uriRelaxed buffSize queryStart (pieces ++ later) = (.request r.withEmitted, later) := by
  have hothers : ∀ x ∈ r.headers, caseKey x.1 ≠ caseKey connectionName := fun x hx => (hr.others x hx).1
  have hne : r.dumpHead false ≠ [] := by
    rw [dumpHead_eq hothers]
    exact List.append_ne_nil_of_right_ne_nil _ (List.cons_ne_nil 13 [10])
  obtain ⟨more, rest, hread, hgot, hbytes⟩ := readSome_head hne harrives.head
    (by rw [harrives.bytes, dumpHead_append hothers])
  have hrest : ∀ piece ∈ rest, piece ≠ [] := ne_nil_of_readSome hread harrives.goesOn
  have hempty : rest.flatten = [] → rest = [] := by
    intro hnil
    refine List.eq_nil_iff_forall_not_mem.mpr fun piece hpiece => hrest piece hpiece ?_
    exact List.flatten_eq_nil_iff.mp hnil piece hpiece
  have hfits := hreceivable.body
  rw [hgot, ← dumpHead_append hothers, List.length_append, List.length_append, Nat.add_le_add_iff_left,
    Nat.add_sub_add_left] at hfits
  have hread' := readSome_append_right hread later
  rw [dumpHead_eq hothers] at hread'
  rw [recvNext_of_stores lexicalCast (stores_head hr hreceivable.method hreceivable.names) List.mem_cons_self hread',
    contentLength_withEmitted hcast hr, Int.toNat_natCast]
  have hinit := init_storedHead r
  have hlength := congrArg List.length hbytes
  rw [List.length_append] at hlength
  split
  · rw [recvBodyFrom, if_neg (Nat.not_lt.mpr hr.body)]
    by_cases hall : r.body.length ≤ more.length
    · have hnil : rest.flatten = [] := List.length_eq_zero_iff.mp (by omega)
      rw [hnil, List.append_nil] at hbytes
      rw [if_pos hall, List.take_of_length_le (by omega), hbytes, hinit, hempty hnil, List.nil_append]
    · have hleft : r.body.length - more.length = rest.flatten.length := by omega
      have hpositive := hfits.resolve_left hall
      rw [if_neg hall, hleft, readFixSize_flatten hrest later]
      rw [hleft] at hpositive
      dsimp only
      rw [if_neg (not_le.mpr hpositive), hbytes, hinit]
  · rename_i hzero
    have hbody : r.body = [] := List.length_eq_zero_iff.mp (by omega)
    have hnil : rest.flatten = [] := (List.append_eq_nil_iff.mp (hbytes.trans hbody)).2
    have hcomplete : (storedHead r r.withEmitted.headers).init = r.withEmitted := by
      conv_rhs => rw [← hinit, hbody]
      rfl
    rw [hcomplete, hempty hnil, List.nil_append]

end Request

/-! ## A connection -/

/-- A request on a connection: what the round of the server meets, the request, and the pieces in which it
arrives. -/
structure Turn where
  round : Round
  request : HttpRequest
  pieces : List Bytes

/-- The request can be serialised, arrives with its head in the first read, and can be received. -/
structure Turn.Delivered (uriRelaxed : Bool) (buffSize : BufferSize) (turn : Turn) : Prop where
  dumpable : turn.request.Dumpable uriRelaxed
  arrives : turn.request.Arrives buffSize turn.pieces
  receivable : turn.request.Receivable buffSize turn.pieces

/-- The exchanges for requests that all arrive, up to the first one that closes the connection. -/
def HttpServer.answers (server : HttpServer) : List Turn → List Exchange
  | [] => []
  | turn :: turns =>
    let exchange := server.exchange turn.round turn.request.withEmitted
    exchange :: (if exchange.closes then [] else HttpServer.answers server turns)

section Connection

variable {codecs : Codecs} {uriRelaxed : Bool} {buffSize : BufferSize} {server : HttpServer} {turns : List Turn}

/-- The loop of the server answers the requests one after the other. -/
theorem handleClient_turns (hcast : ReadsDecimal codecs.lexicalCast)
    (hturns : ∀ turn ∈ turns, turn.Delivered uriRelaxed buffSize) :
    server.handleClient codecs.lexicalCast uriRelaxed buffSize (turns.map Turn.round) (turns.flatMap Turn.pieces) =
      server.answers turns := by
  induction turns with
  | nil => rfl
  | cons turn turns ih =>
    obtain ⟨hdumpable, harrives, hreceivable⟩ := hturns turn List.mem_cons_self
    have hrest := ih fun other hother => hturns other (List.mem_cons_of_mem turn hother)
    have hreceived := recvNext_dump hcast hdumpable harrives hreceivable turn.round.queryStart
      (turns.flatMap Turn.pieces)
    rw [List.map_cons, List.flatMap_cons, HttpServer.handleClient, hreceived, HttpServer.answers]
    dsimp only
    rw [hrest]

/-- Every answer is the response of a servlet, as it is sent. -/
theorem sent_of_mem_answers {exchange : Exchange} (h : exchange ∈ server.answers turns) :
    exchange.sent = exchange.response.dump := by
  induction turns with
  | nil => cases h
  | cons turn turns ih =>
    rw [HttpServer.answers] at h
    rcases List.mem_cons.mp h with rfl | hlater
    · rfl
    · split_ifs at hlater
      · cases hlater
      · exact ih hlater

/-- The requests of a client that waits for its responses are answered one after the other, each as it was sent
and up to the first answer that closes the connection, and the client receives each answer that can be sent,
however its bytes arrive behind the first read. -/
theorem conversation (hcast : ReadsDecimal codecs.lexicalCast)
    (hturns : ∀ turn ∈ turns, turn.Delivered uriRelaxed buffSize) :
    server.handleClient codecs.lexicalCast uriRelaxed buffSize (turns.map Turn.round) (turns.flatMap Turn.pieces) =
        server.answers turns ∧
      ∀ exchange ∈ server.answers turns, exchange.response.Sendable → exchange.sent.length < 2 ^ 31 →
        ∀ (pieces : List Bytes) (rounds : ℕ), pieces.flatten = exchange.sent → (∀ piece ∈ pieces, piece ≠ []) →
          exchange.response.dumpHead.length ≤ (firstRead buffSize pieces).length →
            (recvResponse codecs buffSize (rounds + 1) pieces).2 = .response (exchange.response.received codecs) := by
  refine ⟨handleClient_turns hcast hturns, ?_⟩
  intro exchange hexchange hsendable hshort pieces rounds hbytes hgoes hhead
  rw [sent_of_mem_answers hexchange] at hbytes hshort
  have harrives : exchange.response.Arrives buffSize pieces [] := ⟨by rw [hbytes, List.append_nil], hgoes, hhead⟩
  refine (response_received_iff hcast hsendable harrives rounds).mpr ?_
  by_cases hall : exchange.response.dump.length ≤ (firstRead buffSize pieces).length
  · exact .inl hall
  · refine .inr ?_
    rw [toInt32, Nat.mod_eq_of_lt (by omega), if_pos (by omega)]
    omega

end Connection

/-- A turn with a body, and a servlet that changes nothing. -/
def plainTurn : Turn where
  round := ⟨7, fun req rsp => (req, rsp)⟩
  request := plainRequest .post [104, 105]
  pieces := [(plainRequest .post [104, 105]).dumpHead false, [104, 105]]

/-- A server that keeps connections. -/
def plainServer : HttpServer := ⟨true, asciiText ['b']⟩

/-- The response that it sends. -/
def plainAnswer : ServerResponse :=
  (ServerResponse.new 0x11 false).setHeader (asciiText ['S', 'e', 'r', 'v', 'e', 'r']) (asciiText ['b'])

/-- It can be sent. -/
theorem sendable_plainAnswer : plainAnswer.Sendable where
  version := .inr rfl
  status := by decide
  plain := rfl
  reason := fun c hc => (nomatch hc)
  names := by
    intro x hx
    obtain rfl := List.mem_singleton.mp hx
    exact ⟨by decide, List.all_eq_true.mp (by decide)⟩
  others := by
    intro x hx
    obtain rfl := List.mem_singleton.mp hx
    decide
  values := by
    intro x hx
    obtain rfl := List.mem_singleton.mp hx
    simp [asciiText, IsText]
  cookies := fun x hx => (nomatch hx)
  sorted := List.pairwise_singleton _ _
  body := Nat.zero_le _

/-- Its request arrives, and the answer is received. -/
theorem conversation_plainTurn :
    plainServer.handleClient readDecimal false ⟨4096, by decide, by decide⟩ [plainTurn.round] plainTurn.pieces =
        plainServer.answers [plainTurn] ∧
      ∀ exchange ∈ plainServer.answers [plainTurn],
        (recvResponse plainCodecs ⟨4096, by decide, by decide⟩ 1 [exchange.sent]).2 =
          .response (exchange.response.received plainCodecs) := by
  obtain ⟨⟨hbytes, hne, hhead⟩, hfits⟩ :
      (plainTurn.pieces.flatten = plainTurn.request.dump false ∧ plainTurn.request.dumpHead false ≠ [] ∧
        (plainTurn.request.dumpHead false).length ≤
          (firstRead ⟨4096, by decide, by decide⟩ plainTurn.pieces).length) ∧
        0 < toInt32 ((plainTurn.request.dump false).length -
          (firstRead ⟨4096, by decide, by decide⟩ plainTurn.pieces).length) := by
    decide +kernel
  have hgoes : ∀ piece ∈ plainTurn.pieces, piece ≠ [] := by
    intro piece hpiece
    rcases List.mem_pair.mp hpiece with rfl | rfl
    · exact hne
    · exact List.cons_ne_nil _ _
  have hturns : ∀ turn ∈ [plainTurn], turn.Delivered false ⟨4096, by decide, by decide⟩ := by
    intro turn hturn
    obtain rfl := List.mem_singleton.mp hturn
    refine ⟨dumpable_plainRequest .post (by decide), ⟨hbytes, hgoes, hhead⟩, ⟨by decide, ?_, .inr hfits⟩⟩
    intro x hx
    obtain rfl := List.mem_singleton.mp hx
    decide
  obtain ⟨hserved, hreceived⟩ :=
    @conversation plainCodecs false ⟨4096, by decide, by decide⟩ plainServer [plainTurn] readsDecimal_readDecimal hturns
  refine ⟨hserved, fun exchange hexchange => ?_⟩
  have hmem := hexchange
  obtain rfl := List.mem_singleton.mp hexchange
  have hresponse : (plainServer.exchange plainTurn.round plainTurn.request.withEmitted).response = plainAnswer := rfl
  have hsent : (plainServer.exchange plainTurn.round plainTurn.request.withEmitted).sent = plainAnswer.dump := rfl
  obtain ⟨hne', hlong, hlength, hwhole⟩ :
      plainAnswer.dump ≠ [] ∧ plainAnswer.dump.length < 2 ^ 31 ∧ plainAnswer.dumpHead.length ≤ plainAnswer.dump.length ∧
        firstRead ⟨4096, by decide, by decide⟩ [plainAnswer.dump] = plainAnswer.dump := by
    decide +kernel
  refine hreceived _ hmem (hresponse ▸ sendable_plainAnswer) (hsent ▸ hlong) _ 0 (by simp) ?_ ?_
  · intro piece hpiece
    rw [List.mem_singleton.mp hpiece, hsent]
    exact hne'
  · rw [hresponse, hsent, hwhole]
    exact hlength

end Bobliew.Http
