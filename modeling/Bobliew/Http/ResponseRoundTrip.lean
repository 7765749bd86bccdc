import Bobliew.Http.ResponseHead
import Bobliew.Http.Connection

/-!
# A sent response is received

`HttpConnection::recvResponse` on the bytes of `HttpResponse::dump`, when the first read delivers the whole
head. Whatever follows the response on the connection does not matter. The client holds what the server has
sent, up to four things: a `connection` header of the map gives way to the emitted one, of the cookies the last
one remains, values come without the spaces in front of them, and a body is decoded by its `content-encoding`.

As for a request, what the first read leaves of the body must have a length that fits an `int`.
-/

namespace Bobliew.Http

open Ragel ResponseMachine ResponseAction

/-- `"Set_Cookie"`. -/
def setCookieName : Bytes := asciiText ['S', 'e', 't', '_', 'C', 'o', 'o', 'k', 'i', 'e']

namespace ServerResponse

variable (rsp : ServerResponse)

/-- The headers of the map that are sent. -/
def keptHeaders : List (Bytes × Bytes) :=
  rsp.headers.filter fun i => !decide (caseKey i.1 = caseKey connectionName)

/-- The reason that is sent. -/
def sentReason : Bytes := if rsp.reason = [] then httpStatusToString rsp.status else rsp.reason

/-- The bytes of `dump` in front of the body. -/
def dumpHead : Bytes := rsp.dump.take (rsp.dump.length - rsp.body.length)

/-- The responses to send: no websocket, the reason and the values of headers and cookies end no line, and
header names are tokens that announce neither a length nor an encoding of the transfer. -/
structure Sendable : Prop where
  version : rsp.version = 0x10 ∨ rsp.version = 0x11
  status : -2 ^ 31 ≤ rsp.status ∧ rsp.status < 2 ^ 31
  plain : rsp.websocket = false
  reason : ∀ c ∈ rsp.reason, IsText c
  names : ∀ x ∈ rsp.headers, x.1 ≠ [] ∧ ∀ c ∈ x.1, ResponseGrammar.token.has c = true
  others : ∀ x ∈ rsp.headers, caseKey x.1 ≠ caseKey contentLengthName ∧ caseKey x.1 ≠ caseKey transferEncodingName
  values : ∀ x ∈ rsp.headers, ∀ c ∈ x.2, IsText c
  cookies : ∀ cookie ∈ rsp.cookies, ∀ c ∈ cookie, IsText c
  sorted : rsp.headers.Pairwise fun x y => caseInsensitiveLess x.1 y.1 = true
  body : rsp.body.length ≤ stringMaxSize

/-- The headers that the client holds. -/
def receivedHeaders : HeaderMap :=
  let kept := rsp.keptHeaders.map fun x => (x.1, storedValue x.2)
  let cookied := rsp.cookies.getLast?.elim kept fun cookie => HeaderMap.set setCookieName (storedValue cookie) kept
  let flagged := HeaderMap.set connectionName (connectionValue rsp.close) cookied
  if rsp.body = [] then flagged else HeaderMap.set contentLengthName (decimal rsp.body.length) flagged

/-- The response that the client holds, before its body. -/
def receivedHead : HttpResponse where
  status := rsp.status
  version := rsp.version
  close := false
  body := []
  reason := rsp.sentReason
  headers := rsp.receivedHeaders

/-- The response that the client holds. -/
def received (codecs : Codecs) : HttpResponse :=
  if rsp.body = [] then rsp.receivedHead
  else { rsp.receivedHead with body := decodeBody codecs rsp.receivedHead rsp.body }

/-- The bytes of a response arrive in front of others, and its head in the first read. -/
structure Arrives (buffSize : BufferSize) (pieces : List Bytes) (more : Bytes) : Prop where
  bytes : pieces.flatten = rsp.dump ++ more
  goesOn : ∀ piece ∈ pieces, piece ≠ []
  head : rsp.dumpHead.length ≤ (firstRead buffSize pieces).length

end ServerResponse

/-! ## The parts of the dump -/

section Parts

variable {rsp : ServerResponse}

/-- The status line. -/
def statusLineText (rsp : ServerResponse) : Bytes :=
  asciiText ['H', 'T', 'T', 'P', '/'] ++ decimal (rsp.version >>> 4) ++ asciiText ['.'] ++
    decimal (rsp.version &&& 0x0F) ++ asciiText [' '] ++ (decimal (rsp.status % 2 ^ 32).toNat ++ [32]) ++
    (rsp.sentReason ++ lineEnd)

/-- The headers of the map and of the cookies. -/
def storedFields (rsp : ServerResponse) : List (Bytes × Bytes) :=
  rsp.keptHeaders ++ rsp.cookies.map fun cookie => (setCookieName, cookie)

/-- The emitted `content-length` header. -/
def bodyLengthText (rsp : ServerResponse) : Bytes :=
  if rsp.body = [] then [] else headerText (contentLengthName, decimal rsp.body.length)

/-- The text of a status ends no line, and is not empty. -/
theorem sentReason_text (h : rsp.Sendable) : rsp.sentReason ≠ [] ∧ ∀ c ∈ rsp.sentReason, IsText c := by
  unfold ServerResponse.sentReason
  by_cases hreason : rsp.reason = []
  · rw [if_pos hreason]
    have hall : (httpStatusMap.all fun entry => !entry.2.toList.isEmpty &&
        (asciiText entry.2.toList).all fun c => !decide (c = 13) && !decide (c = 10)) = true := by decide
    have htext : ∀ text : List Char, (!text.isEmpty &&
        (asciiText text).all fun c => !decide (c = 13) && !decide (c = 10)) = true →
        asciiText text ≠ [] ∧ ∀ c ∈ asciiText text, IsText c := by
      intro text h
      rw [Bool.and_eq_true, Bool.not_eq_true', List.isEmpty_eq_false_iff] at h
      refine ⟨fun hnil => h.1 (List.map_eq_nil_iff.mp hnil), fun c hc => ?_⟩
      have hc := List.all_eq_true.mp h.2 c hc
      simp only [Bool.and_eq_true, Bool.not_eq_true', decide_eq_false_iff_not] at hc
      exact hc
    unfold httpStatusToString
    cases hfind : httpStatusMap.find? fun entry => decide (entry.1 = rsp.status) with
    | none => exact htext _ (by decide)
    | some entry => exact htext _ (List.all_eq_true.mp hall entry (List.mem_of_find?_eq_some hfind))
  · rw [if_neg hreason]
    exact ⟨hreason, h.reason⟩

/-- The dump is the status line, the headers, the empty line and the body. -/
theorem dump_parts (h : rsp.Sendable) : rsp.dump = statusLineText rsp ++ (storedFields rsp).flatMap headerText ++
    headerText (connectionName, connectionValue rsp.close) ++ bodyLengthText rsp ++ lineEnd ++ rsp.body := by
  have hemitted : rsp.emitted = storedFields rsp ++ [(connectionName, connectionValue rsp.close)] := by
    rw [ServerResponse.emitted, h.plain]
    rfl
  have hbody : (if rsp.body ≠ [] then
      contentLengthName ++ asciiText [':', ' '] ++ decimal rsp.body.length ++ lineEnd ++ lineEnd ++ rsp.body
    else lineEnd) = bodyLengthText rsp ++ lineEnd ++ rsp.body := by
    unfold bodyLengthText
    by_cases hbody : rsp.body = []
    · simp [hbody]
    · simp only [hbody, ne_eq, not_false_eq_true, if_true, if_false]
      rfl
  have hblank : asciiText [' '] = ([32] : Bytes) := rfl
  have hfields : (fun i : Bytes × Bytes => i.1 ++ asciiText [':', ' '] ++ i.2 ++ lineEnd) = headerText := rfl
  unfold ServerResponse.dump
  rw [hbody, hemitted, hfields, List.flatMap_append]
  simp only [statusLineText, ServerResponse.sentReason, hblank, List.flatMap_cons, List.flatMap_nil, List.append_nil,
    List.append_assoc]

/-- What stands in front of the body. -/
theorem dumpHead_parts (h : rsp.Sendable) : rsp.dumpHead = statusLineText rsp ++
    (storedFields rsp).flatMap headerText ++ headerText (connectionName, connectionValue rsp.close) ++
      bodyLengthText rsp ++ lineEnd := by
  rw [ServerResponse.dumpHead, dump_parts h, List.length_append, Nat.add_sub_cancel, List.take_left]

/-- The key of a token, from its bytes in lower case. -/
theorem caseKey_token {name : Bytes} (hname : ∀ c ∈ name, ResponseGrammar.token.has c = true) :
    caseKey name = (name.map toLower).map (·.toNat) := by
  have hzero : ResponseGrammar.token.has 0 = false := by decide
  have hall : name.takeWhile (fun c => !decide (c = 0)) = name := by
    refine List.takeWhile_eq_self_iff.mpr fun c hc => ?_
    have hne : c ≠ 0 := by
      rintro rfl
      rw [hname 0 hc] at hzero
      cases hzero
    simp [hne]
  rw [caseKey, hall, List.map_map]
  rfl

/-- A name whose key is that of no known name is not singled out. -/
theorem not_known_of_caseKey {name : Bytes} (hname : ∀ c ∈ name, ResponseGrammar.token.has c = true)
    (hkey : ∀ known ∈ knownNames, caseKey name ≠ caseKey known) : name.map toLower ∉ knownNames := by
  have hlower : knownNames.all fun known => decide (caseKey known = known.map (·.toNat)) := by decide
  intro hmem
  refine hkey _ hmem ?_
  rw [of_decide_eq_true (List.all_eq_true.mp hlower _ hmem), caseKey_token hname]

/-- The headers of the map and of the cookies are read up to their line ends. -/
theorem plain_storedFields (h : rsp.Sendable) : ∀ x ∈ storedFields rsp, PlainHeader x := by
  intro x hx
  rcases List.mem_append.mp hx with hkept | hcookie
  · obtain ⟨hx, hother⟩ := List.mem_filter.mp hkept
    have hother : caseKey x.1 ≠ caseKey connectionName := by simpa using hother
    obtain ⟨hne, hname⟩ := h.names x hx
    refine ⟨hne, hname, not_known_of_caseKey hname ?_, h.values x hx⟩
    simp only [knownNames, List.mem_cons, List.not_mem_nil, or_false, forall_eq_or_imp, forall_eq]
    exact ⟨(h.others x hx).1, hother, (h.others x hx).2⟩
  · obtain ⟨cookie, hmem, rfl⟩ := List.mem_map.mp hcookie
    have hname : setCookieName ≠ [] ∧ (setCookieName.all ResponseGrammar.token.has = true) ∧
        setCookieName.map toLower ∉ knownNames := by decide
    exact ⟨hname.1, List.all_eq_true.mp hname.2.1, hname.2.2, h.cookies cookie hmem⟩

/-- Storing twice under one name. -/
theorem set_set_same (k v v' : Bytes) (m : HeaderMap) :
    HeaderMap.set k v (HeaderMap.set k v' m) = HeaderMap.set k v m := by
  induction m with
  | nil =>
    rw [HeaderMap.set, HeaderMap.set_cons, if_neg (lt_irrefl _), if_neg (lt_irrefl _), HeaderMap.set]
  | cons x m ih =>
    rw [HeaderMap.set_cons, HeaderMap.set_cons]
    split
    · rw [HeaderMap.set_cons, if_neg (lt_irrefl _), if_neg (lt_irrefl _)]
    · rename_i hle
      split
      · rename_i hlt
        rw [HeaderMap.set_cons, if_neg hle, if_pos hlt, ih]
      · rename_i hge
        rw [HeaderMap.set_cons, if_neg hle, if_neg hge]

/-- The cookies, stored one after the other: the last one remains. -/
theorem foldl_cookies (cookies : List Bytes) (m : HeaderMap) :
    (cookies.map fun cookie => (setCookieName, cookie)).foldl (fun m x => HeaderMap.set x.1 (storedValue x.2) m) m =
      cookies.getLast?.elim m fun cookie => HeaderMap.set setCookieName (storedValue cookie) m := by
  induction cookies generalizing m with
  | nil => rfl
  | cons cookie cookies ih =>
    rw [List.map_cons, List.foldl_cons, ih]
    cases hlast : cookies.getLast? with
    | none =>
      obtain rfl := List.getLast?_eq_none_iff.mp hlast
      rfl
    | some last =>
      rw [List.getLast?_cons, hlast]
      exact set_set_same _ _ _ m

/-- The headers of a sorted map, stored behind others. -/
theorem foldl_sorted {a m : List (Bytes × Bytes)}
    (hsorted : (a ++ m).Pairwise fun x y => caseInsensitiveLess x.1 y.1 = true) (f : Bytes → Bytes) :
    m.foldl (fun m x => HeaderMap.set x.1 (f x.2) m) (a.map fun x => (x.1, f x.2)) =
      (a ++ m).map fun x => (x.1, f x.2) := by
  induction m generalizing a with
  | nil => rw [List.append_nil, List.foldl_nil]
  | cons x m ih =>
    have hlast : ∀ y ∈ a.map fun x => (x.1, f x.2), caseKey y.1 < caseKey x.1 := by
      intro y hy
      obtain ⟨z, hz, rfl⟩ := List.mem_map.mp hy
      exact caseInsensitiveLess_iff.mp ((List.pairwise_append.mp hsorted).2.2 z hz x List.mem_cons_self)
    have happend : a ++ x :: m = a ++ [x] ++ m := (List.append_assoc a [x] m).symm
    rw [happend] at hsorted ⊢
    rw [List.foldl_cons, HeaderMap.set_last hlast, ← ih hsorted, List.map_append]
    rfl

/-- The head of a response, up to the empty line. -/
theorem stored_responseHead (h : rsp.Sendable) : ∃ close,
    Stored [] httpclientParserStart (.plain .fresh)
      (statusLineText rsp ++ (storedFields rsp).flatMap headerText ++
        headerText (connectionName, connectionValue rsp.close) ++ bodyLengthText rsp)
      (behindConnection close) (.plain rsp.receivedHead) := by
  obtain ⟨hne, htext⟩ := sentReason_text h
  have hline : Stored [] httpclientParserStart (.plain .fresh) (statusLineText rsp) atHeader
      (.plain { HttpResponse.fresh with version := rsp.version, status := rsp.status, reason := rsp.sentReason }) :=
    ((stored_version [] .fresh h.version).append (stored_status _ _ h.status.1 h.status.2)).append
      (stored_reason _ _ hne htext)
  have hkept : rsp.keptHeaders.Pairwise fun x y => caseInsensitiveLess x.1 y.1 = true := h.sorted.filter _
  have hfold : (storedFields rsp).foldl (fun m x => HeaderMap.set x.1 (storedValue x.2) m) [] =
      rsp.cookies.getLast?.elim (rsp.keptHeaders.map fun x => (x.1, storedValue x.2)) fun cookie =>
        HeaderMap.set setCookieName (storedValue cookie) (rsp.keptHeaders.map fun x => (x.1, storedValue x.2)) := by
    have hsorted : rsp.keptHeaders.foldl (fun m x => HeaderMap.set x.1 (storedValue x.2) m) [] =
        rsp.keptHeaders.map fun x => (x.1, storedValue x.2) := foldl_sorted (a := []) hkept storedValue
    rw [storedFields, List.foldl_append, hsorted, foldl_cookies]
  have hfields : Stored [] httpclientParserStart (.plain .fresh)
      (statusLineText rsp ++ (storedFields rsp).flatMap headerText) atHeader
      (.plain ⟨rsp.status, rsp.version, false, [], rsp.sentReason,
        (storedFields rsp).foldl (fun m x => HeaderMap.set x.1 (storedValue x.2) m) []⟩) :=
    hline.append (stored_headers _ _ (plain_storedFields h))
  rw [hfold] at hfields
  have hconnection := hfields.append (stored_connection _ _ rsp.close)
  unfold bodyLengthText ServerResponse.receivedHead ServerResponse.receivedHeaders
  by_cases hbody : rsp.body = []
  · refine ⟨rsp.close, ?_⟩
    simp only [hbody, if_true, List.append_nil]
    exact hconnection
  · refine ⟨false, ?_⟩
    simp only [hbody, if_false]
    exact hconnection.append (stored_length _ _ rsp.close)

/-- The length that the received headers announce. -/
theorem contentLength_receivedHead (h : rsp.Sendable) {lexicalCast : Bytes → Option ℕ}
    (hcast : ReadsDecimal lexicalCast) : rsp.receivedHead.contentLength lexicalCast = rsp.body.length := by
  have hconnection : caseKey contentLengthName ≠ caseKey connectionName := by decide
  have hcookie : caseKey contentLengthName ≠ caseKey setCookieName := by decide
  have hkept : HeaderMap.find contentLengthName (rsp.keptHeaders.map fun x => (x.1, storedValue x.2)) = none := by
    refine HeaderMap.find_eq_none fun x hx => ?_
    obtain ⟨y, hy, rfl⟩ := List.mem_map.mp hx
    exact (h.others y (List.mem_filter.mp hy).1).1
  have hcookied : HeaderMap.find contentLengthName
      (rsp.cookies.getLast?.elim (rsp.keptHeaders.map fun x => (x.1, storedValue x.2)) fun cookie =>
        HeaderMap.set setCookieName (storedValue cookie)
          (rsp.keptHeaders.map fun x => (x.1, storedValue x.2))) = none := by
    cases rsp.cookies.getLast? with
    | none => exact hkept
    | some cookie => exact (HeaderMap.find_set_of_ne hcookie).trans hkept
  have hsize := h.body
  rw [stringMaxSize] at hsize
  change toInt64 (((HeaderMap.find contentLengthName rsp.receivedHeaders).bind lexicalCast).getD 0) = _
  unfold ServerResponse.receivedHeaders
  by_cases hbody : rsp.body = []
  · simp only [hbody, if_true, HeaderMap.find_set_of_ne hconnection, hcookied]
    rfl
  · simp only [hbody, if_false, HeaderMap.find_set rfl, Option.bind_some, hcast _ (by omega : rsp.body.length < 2 ^ 64),
      Option.getD_some]
    rw [toInt64, Nat.mod_eq_of_lt (by omega), if_pos (by omega)]

end Parts

/-! ## Receiving -/

section Receiving

variable {codecs : Codecs} {buffSize : BufferSize} {pieces rest : List Bytes} {rsp : ServerResponse} {more : Bytes}

/-- A first read that is long enough delivers a head and the beginning of what is behind it. -/
theorem readSome_head {head behind : Bytes} (hne : head ≠ [])
    (hlength : head.length ≤ (firstRead buffSize pieces).length) (hbytes : pieces.flatten = head ++ behind) :
    ∃ more rest, readSome buffSize.size pieces = some (head ++ more, rest) ∧
      firstRead buffSize pieces = head ++ more ∧ more ++ rest.flatten = behind := by
  obtain ⟨got, rest, hread⟩ : ∃ got rest, readSome buffSize.size pieces = some (got, rest) := by
    cases hread : readSome buffSize.size pieces with
    | some got => exact ⟨got.1, got.2, rfl⟩
    | none =>
      rw [firstRead, hread] at hlength
      exact absurd (List.length_eq_zero_iff.mp (Nat.le_zero.mp hlength)) hne
  have hgot : firstRead buffSize pieces = got := by rw [firstRead, hread, Option.map_some, Option.getD_some]
  have hflat : got ++ rest.flatten = head ++ behind := (readSome_append hread).trans hbytes
  rw [hgot] at hlength
  obtain ⟨more, rfl⟩ := List.prefix_of_prefix_length_le (List.prefix_append head behind)
    (hflat ▸ List.prefix_append got rest.flatten) hlength
  rw [List.append_assoc] at hflat
  exact ⟨more, rest, hread, hgot, List.append_cancel_left hflat⟩

/-- The loop over the head, when the first read delivers a head and more. -/
theorem recvResponseHead_sent (h : rsp.Sendable) (rounds : ℕ)
    (hread : readSome buffSize.size pieces = some (rsp.dumpHead ++ more, rest)) :
    ∃ p, recvResponseHead buffSize (rounds + 1) .fresh [] pieces = .finished p more rest ∧
      p.parser.chunked = false ∧ p.data = rsp.receivedHead := by
  obtain ⟨close, hstored⟩ := stored_responseHead h
  obtain ⟨hthrown, herror, hfinished, hchunked, hdata, hnparse⟩ := stored_finishes hstored more
  rw [← dumpHead_parts h] at hthrown herror hfinished hchunked hdata hnparse
  obtain ⟨-, hfits⟩ := readSome_eq_some hread
  have hshort : more.length ≠ buffSize.size := by
    have hpos : 0 < rsp.dumpHead.length := by
      rw [dumpHead_parts h, List.length_append]
      exact Nat.add_pos_right _ (by decide)
    rw [List.length_append] at hfits
    omega
  refine ⟨_, ?_, hchunked, hdata⟩
  rw [recvResponseHead, List.length_nil, Nat.sub_zero, hread]
  simp only [List.nil_append, hthrown, herror, hfinished, hnparse, List.drop_left, hshort, Bool.false_eq_true,
    if_false, if_true]

/-- The body is received when what the first read leaves of it has a length that fits an `int`. -/
theorem recvPlainBody_sent {body : Bytes} (hpieces : ∀ piece ∈ rest, piece ≠ []) {after : Bytes}
    (hbytes : more ++ rest.flatten = body ++ after) (hbody : body.length ≤ stringMaxSize) :
    recvPlainBody body.length more rest =
      if body.length ≤ more.length ∨ 0 < toInt32 (body.length - more.length) then .body body else .null := by
  rw [recvPlainBody, Int.toNat_natCast, if_neg (Nat.not_lt.mpr hbody)]
  by_cases hempty : body = []
  · simp [hempty]
  · have hpos : ¬ (body.length : ℤ) ≤ 0 := by
      have := List.length_pos_iff.mpr hempty
      omega
    rw [if_neg hpos]
    by_cases hall : body.length ≤ more.length
    · have htake : more.take body.length = body := by
        have hprefix := congrArg (List.take body.length) hbytes
        rwa [List.take_append_of_le_length hall, List.take_left] at hprefix
      simp only [hall, if_true, true_or, htake]
    · have hlength : body.length - more.length ≤ rest.flatten.length := by
        have hboth := congrArg List.length hbytes
        simp only [List.length_append] at hboth
        omega
      obtain ⟨left, hleft⟩ := readFixSize_of_le hpieces hlength
      have htake : more ++ rest.flatten.take (body.length - more.length) = body := by
        have hprefix := congrArg (List.take body.length) hbytes
        rwa [List.take_append, List.take_of_length_le (by omega), List.take_left] at hprefix
      simp only [hall, if_false, false_or, hleft, htake]
      by_cases hfits : 0 < toInt32 (body.length - more.length)
      · rw [if_neg (not_le.mpr hfits), if_pos hfits]
      · rw [if_pos (not_lt.mp hfits), if_neg hfits]

/-- What a server has sent is received if and only if what the first read leaves of the body has a length that
fits an `int`. -/
theorem response_received_iff (hcast : ReadsDecimal codecs.lexicalCast) (h : rsp.Sendable)
    (harrives : rsp.Arrives buffSize pieces more) (rounds : ℕ) :
    (recvResponse codecs buffSize (rounds + 1) pieces).2 = .response (rsp.received codecs) ↔
      rsp.dump.length ≤ (firstRead buffSize pieces).length ∨
        0 < toInt32 (rsp.dump.length - (firstRead buffSize pieces).length) := by
  have hdump : rsp.dump = rsp.dumpHead ++ rsp.body := by
    rw [dumpHead_parts h, dump_parts h]
  have hne : rsp.dumpHead ≠ [] := by
    rw [dumpHead_parts h]
    exact List.append_ne_nil_of_right_ne_nil _ (List.cons_ne_nil 13 [10])
  obtain ⟨left, rest, hread, hgot, hbytes⟩ := readSome_head hne harrives.head
    (by rw [harrives.bytes, hdump, List.append_assoc])
  obtain ⟨p, hhead, hchunked, hdata⟩ := recvResponseHead_sent h rounds hread
  have hbody := recvPlainBody_sent (ne_nil_of_readSome hread harrives.goesOn) hbytes h.body
  rw [hgot, hdump, List.length_append, List.length_append, Nat.add_le_add_iff_left, Nat.add_sub_add_left]
  simp only [recvResponse, hhead, hchunked, Bool.false_eq_true, if_false, hdata, contentLength_receivedHead h hcast,
    hbody]
  by_cases hfits : rsp.body.length ≤ left.length ∨ 0 < toInt32 (rsp.body.length - left.length)
  · rw [if_pos hfits]
    exact iff_of_true (congrArg ResponseOutcome.response rfl) hfits
  · rw [if_neg hfits]
    exact iff_of_false (fun heq => by cases heq) hfits

end Receiving

/-! ## A response with a cookie and a body -/

/-- A response that sets a cookie and has a header, a cookie and a body. -/
def plainResponse : ServerResponse where
  status := 404
  version := 0x11
  close := true
  body := [104, 105]
  reason := []
  headers := [(asciiText ['k'], asciiText [' ', 'v'])]
  websocket := false
  cookies := [asciiText ['a', '=', 'b']]

/-- It can be sent. -/
theorem sendable_plainResponse : plainResponse.Sendable where
  version := .inr rfl
  status := by decide
  plain := rfl
  reason := fun c hc => (nomatch hc)
  names := by
    intro x hx
    obtain rfl := List.mem_singleton.mp hx
    exact ⟨by decide, List.all_eq_true.mp (by decide)⟩
  others := by
    intro x hx
    obtain rfl := List.mem_singleton.mp hx
    decide
  values := by
    intro x hx
    obtain rfl := List.mem_singleton.mp hx
    simp [asciiText, IsText]
  cookies := by
    intro x hx
    obtain rfl := List.mem_singleton.mp hx
    simp [asciiText, IsText]
  sorted := List.pairwise_singleton _ _
  body := by decide

/-- Decoders that are not needed. -/
def plainCodecs : Codecs := ⟨readDecimal, id, id⟩

/-- Its head arrives in the first read, and its body in the second. -/
theorem response_received_twoReads :
    (recvResponse plainCodecs ⟨4096, by decide, by decide⟩ 1 [plainResponse.dumpHead, [104, 105]]).2 =
      .response (plainResponse.received plainCodecs) := by
  obtain ⟨⟨hbytes, hne, hhead⟩, hfits⟩ :
      ([plainResponse.dumpHead, [104, 105]].flatten = plainResponse.dump ++ [] ∧ plainResponse.dumpHead ≠ [] ∧
        plainResponse.dumpHead.length ≤
          (firstRead ⟨4096, by decide, by decide⟩ [plainResponse.dumpHead, [104, 105]]).length) ∧
        0 < toInt32 (plainResponse.dump.length -
          (firstRead ⟨4096, by decide, by decide⟩ [plainResponse.dumpHead, [104, 105]]).length) := by
    decide +kernel
  refine (response_received_iff readsDecimal_readDecimal sendable_plainResponse ⟨hbytes, ?_, hhead⟩ 0).mpr (.inr hfits)
  intro piece hpiece
  rcases List.mem_pair.mp hpiece with rfl | rfl
  · exact hne
  · exact List.cons_ne_nil _ _

end Bobliew.Http
