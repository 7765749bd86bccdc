import Bobliew.Http.HeadRuns
import Bobliew.Http.KeepAlive

/-!
# A serialised request is received again

`HttpSession::recvRequest` on the bytes of `HttpRequest::dump`, when the first read delivers the whole head.
The request comes back with the emitted headers stored among its own, unless one of three things happens. The
grammar has no method with a hyphen, so `M-SEARCH` is not received. Control characters are tokens for the
grammar, so a name may begin with a line end, and the head ends there. And the length that is still to be read
of a body is converted to an `int`.
-/

namespace Bobliew.Http

open Ragel RequestMachine

/-- The bytes that the first read delivers. -/
def firstRead (buffSize : BufferSize) (pieces : List Bytes) : Bytes :=
  ((readSome buffSize.size pieces).map (·.1)).getD []

namespace HttpRequest

variable (r : HttpRequest)

/-- The bytes of a request arrive, and its head in the first read. -/
structure Arrives (buffSize : BufferSize) (pieces : List Bytes) : Prop where
  bytes : pieces.flatten = r.dump false
  goesOn : ∀ piece ∈ pieces, piece ≠ []
  head : (r.dumpHead false).length ≤ (firstRead buffSize pieces).length

/-- What the code needs of a request and of its arrival: the grammar has its method, no header name begins
with a line end, and what the first read leaves of the body has a length that fits an `int`. -/
structure Receivable (buffSize : BufferSize) (pieces : List Bytes) : Prop where
  method : r.method ≠ .msearch
  names : ∀ x ∈ r.headers, ¬EndsHead x.1
  body : (r.dump false).length ≤ (firstRead buffSize pieces).length ∨
    0 < toInt32 ((r.dump false).length - (firstRead buffSize pieces).length)

end HttpRequest

/-! ## The parts of the dump -/

section Parts

variable {r : HttpRequest} {uriRelaxed : Bool}

/-- The request line. -/
def requestLineText (r : HttpRequest) : Bytes :=
  httpMethodToString r.method ++ ([32] : Bytes) ++
    (r.path ++ (if r.query = [] then [] else ([63] : Bytes)) ++ r.query ++
      (if r.fragment = [] then [] else ([35] : Bytes)) ++ r.fragment ++ ([32] : Bytes)) ++
    (asciiText ['H', 'T', 'T', 'P', '/'] ++ decimal (r.version >>> 4) ++ asciiText ['.'] ++
      decimal (r.version &&& 0x0F) ++ lineEnd)

/-- The emitted `connection` header. -/
def connectionField (r : HttpRequest) : Bytes × Bytes := (connectionName, connectionValue r.close)

/-- The emitted `content-length` header. -/
def lengthText (r : HttpRequest) : Bytes :=
  if r.body = [] then [] else contentLengthName ++ [58, 32] ++ decimal r.body.length ++ lineEnd

/-- The dump is the request line, the headers, the empty line and the body. -/
theorem dump_eq (hothers : ∀ x ∈ r.headers, caseKey x.1 ≠ caseKey connectionName) :
    r.dump false = requestLineText r ++ fieldText (connectionField r) ++ r.headers.flatMap fieldText ++
      lengthText r ++ lineEnd ++ r.body := by
  have hheaders : (r.headers.flatMap fun i =>
      if !false && decide (caseKey i.1 = caseKey connectionName) then []
      else i.1 ++ asciiText [':'] ++ i.2 ++ lineEnd) = r.headers.flatMap fieldText := by
    refine List.flatMap_congr fun i hi => ?_
    rw [decide_eq_false (hothers i hi)]
    rfl
  have hblank :
      asciiText [' ', 'H', 'T', 'T', 'P', '/'] = ([32] : Bytes) ++ asciiText ['H', 'T', 'T', 'P', '/'] := rfl
  have hlength : (if r.body ≠ [] then
      contentLengthName ++ asciiText [':', ' '] ++ decimal r.body.length ++ lineEnd ++ lineEnd ++ r.body
    else lineEnd) = lengthText r ++ lineEnd ++ r.body := by
    unfold lengthText
    by_cases hbody : r.body = []
    · simp [hbody]
    · simp only [hbody, ne_eq, not_false_eq_true, if_true, if_false]
      rfl
  unfold HttpRequest.dump
  rw [hheaders, hlength, hblank]
  simp only [requestLineText, fieldText, connectionField, Bool.false_eq_true, if_false, List.append_assoc]
  rfl

/-- What stands in front of the body. -/
theorem dumpHead_eq (hothers : ∀ x ∈ r.headers, caseKey x.1 ≠ caseKey connectionName) :
    r.dumpHead false = requestLineText r ++ fieldText (connectionField r) ++ r.headers.flatMap fieldText ++
      lengthText r ++ lineEnd := by
  rw [HttpRequest.dumpHead, dump_eq hothers, List.length_append, Nat.add_sub_cancel, List.take_left]

/-- The head and the body are the dump. -/
theorem dumpHead_append (hothers : ∀ x ∈ r.headers, caseKey x.1 ≠ caseKey connectionName) :
    r.dumpHead false ++ r.body = r.dump false := by
  rw [dumpHead_eq hothers, dump_eq hothers]

/-- The bytes of a decimal number are digits. -/
theorem digit_of_mem_decimal {n : ℕ} {c : UInt8} (hc : c ∈ decimal n) : 48 ≤ c.toNat ∧ c.toNat ≤ 57 := by
  obtain ⟨ch, hch, rfl⟩ := List.mem_map.mp hc
  have hdigit := Nat.isDigit_of_mem_toDigits (by decide) (by decide) hch
  obtain ⟨hle, hle'⟩ := Bool.and_eq_true_iff.mp hdigit
  have hlow : 48 ≤ ch.toNat := UInt32.le_iff_toNat_le.mp (of_decide_eq_true hle)
  have hhigh : ch.toNat ≤ 57 := UInt32.le_iff_toNat_le.mp (of_decide_eq_true hle')
  rw [UInt8.toNat_ofNat']
  omega

/-- The bytes of a decimal number are digits. -/
theorem isPrintable_decimal (n : ℕ) : ∀ c ∈ decimal n, isPrintable c ∧ c ≠ 32 := by
  intro c hc
  obtain ⟨hlow, hhigh⟩ := digit_of_mem_decimal hc
  refine ⟨⟨by omega, by omega⟩, ?_⟩
  rintro rfl
  exact absurd hlow (by decide)

/-- A number is written with at least one digit. -/
theorem decimal_ne_nil (n : ℕ) : decimal n ≠ [] :=
  fun h => Nat.toDigits_ne_nil (List.map_eq_nil_iff.mp h)

/-- What is stored of the request line and of some headers. -/
def storedHead (r : HttpRequest) (m : HeaderMap) : HttpRequest :=
  { r with close := true, body := [], headers := m }

/-- A header that does not end the head is read up to its line end. -/
theorem HttpRequest.Dumpable.readable (hr : r.Dumpable uriRelaxed) {x : Bytes × Bytes} (hx : x ∈ r.headers)
    (hgoes : ¬EndsHead x.1) : ReadableField x := by
  obtain ⟨hne, htoken⟩ := Rx.mem_lang_plus_byte (hr.names x hx)
  exact ⟨hne, htoken, hgoes, (hr.values x hx).1, (hr.values x hx).2⟩

/-- The emitted names are tokens, and the values of the emitted `connection` header are printable. -/
theorem emitted_tokens : (connectionName.all RequestGrammar.token.has = true ∧
    contentLengthName.all RequestGrammar.token.has = true) ∧
      [true, false].all (fun close => (connectionValue close).all fun c => Nat.ble 33 c.toNat && Nat.ble c.toNat 126)
        = true := by
  decide +kernel

/-- The emitted `connection` header is read up to its line end. -/
theorem readable_connection (r : HttpRequest) : ReadableField (connectionField r) := by
  have hvalue : ∀ c ∈ connectionValue r.close, 33 ≤ c.toNat ∧ c.toNat ≤ 126 := by
    intro c hc
    have hone := List.all_eq_true.mp emitted_tokens.2 r.close (by cases r.close <;> decide)
    simpa using List.all_eq_true.mp hone c hc
  have hname : connectionName ≠ [] ∧ ¬EndsHead connectionName := by decide
  refine ⟨hname.1, List.all_eq_true.mp emitted_tokens.1.1, hname.2, fun c hc => ?_, ?_⟩
  · obtain ⟨hlow, hhigh⟩ := hvalue c hc
    exact ⟨by omega, by omega⟩
  · rw [connectionField]
    cases r.close <;> decide

/-- The request line, the emitted `connection` header and the first headers of the map. -/
theorem stores_firstHeaders (hr : r.Dumpable uriRelaxed) (hmethod : r.method ≠ .msearch)
    {m n : List (Bytes × Bytes)} (hm : r.headers = m ++ n) (hgoes : ∀ x ∈ m, ¬EndsHead x.1) :
    Stores [] (httpParserStart uriRelaxed) .fresh
      (requestLineText r ++ fieldText (connectionField r) ++ m.flatMap fieldText) atHeader
      (storedHead r (HeaderMap.set connectionName (connectionValue r.close) m)) := by
  have hsubset : ∀ x ∈ m, x ∈ r.headers := fun x hx => hm ▸ List.mem_append_left n hx
  have hsorted := hr.sorted
  rw [hm] at hsorted
  have hfold := HeaderMap.foldl_set (a := []) (k := connectionName) (v := connectionValue r.close)
    (List.pairwise_append.mp hsorted).1 fun x hx => ((hr.others x (hsubset x hx)).1).symm
  have hline := ((stores_method uriRelaxed [] .fresh hmethod).append
    (stores_reference _ _ hr.path hr.query hr.fragment rfl rfl)).append (stores_version _ _ hr.version)
  have hall := (hline.append (stores_header _ _ (readable_connection r))).append
    (stores_headers _ _ fun x hx => hr.readable (hsubset x hx) (hgoes x hx))
  have hstored : ∀ h : HeaderMap, storedHead r h =
      { HttpRequest.fresh with
        method := r.method, version := r.version, path := r.path, query := r.query, fragment := r.fragment,
        headers := h } := fun _ => rfl
  rw [List.nil_append] at hfold
  rw [hstored, ← hfold]
  exact hall

/-- The whole head, up to the empty line. -/
theorem stores_head (hr : r.Dumpable uriRelaxed) (hmethod : r.method ≠ .msearch)
    (hgoes : ∀ x ∈ r.headers, ¬EndsHead x.1) :
    Stores [] (httpParserStart uriRelaxed) .fresh
      (requestLineText r ++ fieldText (connectionField r) ++ r.headers.flatMap fieldText ++ lengthText r) atHeader
      (storedHead r r.withEmitted.headers) := by
  have hfirst := stores_firstHeaders hr hmethod (n := []) (List.append_nil _).symm hgoes
  unfold lengthText HttpRequest.withEmitted
  by_cases hbody : r.body = []
  · simpa [hbody] using hfirst
  · have hreadable : ReadableField (contentLengthName, decimal r.body.length) := by
      have hname : contentLengthName ≠ [] ∧ ¬EndsHead contentLengthName := by decide
      refine ⟨hname.1, List.all_eq_true.mp emitted_tokens.1.2, hname.2,
        fun c hc => (isPrintable_decimal _ c hc).1, fun hhead => ?_⟩
      exact (isPrintable_decimal _ 32 (List.mem_of_mem_head? hhead)).2 rfl
    have hboth := hfirst.append (stores_headerBehindBlank _ _ hreadable (decimal_ne_nil _))
    simp only [hbody, if_false]
    exact hboth

end Parts

/-! ## Receiving -/

section Receiving

variable {lexicalCast : Bytes → Option ℕ} {uriRelaxed : Bool} {buffSize : BufferSize} {pieces rest : List Bytes}
  {r r' : HttpRequest} {part line more : Bytes}

/-- What a call returns, and leaves, when the first read delivers a head and more. -/
theorem recvNext_of_stores (lexicalCast : Bytes → Option ℕ)
    (h : Stores [] (httpParserStart uriRelaxed) .fresh part atHeader r')
    (hline : line ∈ [([13, 10] : Bytes), [10]])
    (hread : readSome buffSize.size pieces = some (part ++ line ++ more, rest)) (queryStart : ℕ) :
    recvNext lexicalCast uriRelaxed buffSize queryStart pieces =
      if r'.contentLength lexicalCast > 0 then recvBodyFrom (r'.contentLength lexicalCast).toNat more rest r'
      else (.request r'.init, rest) := by
  obtain ⟨haccepts, hdata⟩ := h.execute hline queryStart
  have hends : EndsLine (part ++ line) := by
    refine endsLine_of_getLast? ?_
    rcases List.mem_pair.mp hline with rfl | rfl <;> simp
  obtain ⟨hne, hfits⟩ := readSome_eq_some hread
  obtain ⟨p, hhead, hp⟩ := recvHead_oneRead haccepts hends queryStart ((pieces.map (·.length)).sum) hfits rest
  unfold recvNext
  rw [recvHead_of_read hread, hhead]
  dsimp only
  rw [hp, hdata]

/-- What `recvRequest` returns then. -/
theorem recvRequest_of_stores (lexicalCast : Bytes → Option ℕ)
    (h : Stores [] (httpParserStart uriRelaxed) .fresh part atHeader r')
    (hline : line ∈ [([13, 10] : Bytes), [10]])
    (hread : readSome buffSize.size pieces = some (part ++ line ++ more, rest)) (queryStart : ℕ) :
    (recvRequest lexicalCast uriRelaxed queryStart buffSize pieces).2 =
      if r'.contentLength lexicalCast > 0 then recvBody (r'.contentLength lexicalCast).toNat more rest r'
      else .request r'.init := by
  rw [← recvNext_fst, recvNext_of_stores lexicalCast h hline hread]
  split
  · exact recvBodyFrom_fst _ _ _ _
  · rfl

/-- The bytes that further reads bring: an empty piece ends the connection. -/
def arriving (pieces : List Bytes) : Bytes := (pieces.takeWhile fun piece => !piece.isEmpty).flatten

/-- Nothing arrives behind an empty piece. -/
theorem arriving_cons_nil (pieces : List Bytes) : arriving ([] :: pieces) = [] := rfl

/-- Any other piece arrives in front of what follows. -/
theorem arriving_cons {piece : Bytes} (hpiece : piece ≠ []) (pieces : List Bytes) :
    arriving (piece :: pieces) = piece ++ arriving pieces := by
  simp [arriving, hpiece]

/-- Pieces of which none is empty arrive. -/
theorem arriving_of_forall (hpieces : ∀ piece ∈ pieces, piece ≠ []) : arriving pieces = pieces.flatten := by
  rw [arriving, List.takeWhile_eq_self_iff.mpr fun piece hpiece => by simp [hpieces piece hpiece]]

/-- `readFixSize` gets its bytes exactly if enough of them arrive. -/
theorem readFixSize_arriving (n : ℕ) (pieces : List Bytes) :
    (n ≤ (arriving pieces).length → ∃ left, readFixSize n pieces = some ((arriving pieces).take n, left)) ∧
      ((arriving pieces).length < n → readFixSize n pieces = none) := by
  induction pieces generalizing n with
  | nil =>
    cases n with
    | zero => exact ⟨fun _ => ⟨[], rfl⟩, fun h => absurd h (Nat.not_lt_zero _)⟩
    | succ n => exact ⟨fun h => absurd h (Nat.not_succ_le_zero n), fun _ => rfl⟩
  | cons piece pieces ih =>
    cases n with
    | zero => exact ⟨fun _ => ⟨_, rfl⟩, fun h => absurd h (Nat.not_lt_zero _)⟩
    | succ n =>
      by_cases hpiece : piece = []
      · rw [hpiece, arriving_cons_nil, readFixSize, if_pos rfl]
        exact ⟨fun h => absurd h (Nat.not_succ_le_zero n), fun _ => rfl⟩
      · obtain ⟨henough, hfew⟩ := ih (n + 1 - piece.length)
        rw [arriving_cons hpiece, readFixSize, if_neg hpiece, List.length_append]
        split
        · rename_i hle
          refine ⟨fun h => ?_, fun h => ?_⟩
          · obtain ⟨left, hgot⟩ := henough (by omega)
            refine ⟨left, ?_⟩
            rw [hgot, List.take_append, List.take_of_length_le hle]
            rfl
          · rw [hfew (by omega)]
            rfl
        · rename_i hlt
          refine ⟨fun _ => ⟨piece.drop (n + 1) :: pieces, ?_⟩, fun h => by omega⟩
          rw [List.take_append_of_le_length (by omega)]

/-- Enough bytes for a body. -/
theorem readFixSize_of_le {n : ℕ} (hpieces : ∀ piece ∈ pieces, piece ≠ []) (hn : n ≤ pieces.flatten.length) :
    ∃ left, readFixSize n pieces = some (pieces.flatten.take n, left) := by
  rw [← arriving_of_forall hpieces] at hn ⊢
  exact (readFixSize_arriving n pieces).1 hn

/-- The conversion reads the decimal numbers of 64 bits. -/
def ReadsDecimal (lexicalCast : Bytes → Option ℕ) : Prop :=
  ∀ n < 2 ^ 64, lexicalCast (decimal n) = some n

/-- The length that the map of a serialised request announces. -/
theorem contentLength_withEmitted (hcast : ReadsDecimal lexicalCast) (hr : r.Dumpable uriRelaxed) :
    (storedHead r r.withEmitted.headers).contentLength lexicalCast = r.body.length := by
  have hother : caseKey contentLengthName ≠ caseKey connectionName := by decide
  have hnone : HeaderMap.find contentLengthName r.headers = none :=
    HeaderMap.find_eq_none fun x hx => (hr.others x hx).2
  have hsize := hr.body
  rw [stringMaxSize] at hsize
  change toInt64 (((HeaderMap.find contentLengthName r.withEmitted.headers).bind lexicalCast).getD 0) = _
  unfold HttpRequest.withEmitted
  by_cases hbody : r.body = []
  · simp only [hbody, if_true, HeaderMap.find_set_of_ne hother, hnone]
    rfl
  · simp only [hbody, if_false, HeaderMap.find_set rfl, Option.bind_some, hcast _ (by omega : r.body.length < 2 ^ 64),
      Option.getD_some]
    rw [toInt64, Nat.mod_eq_of_lt (by omega), if_pos (by omega)]

/-- `init` restores the close flag, and the body completes the request. -/
theorem init_storedHead (r : HttpRequest) :
    { storedHead r r.withEmitted.headers with body := r.body }.init = r.withEmitted := by
  have hname : caseKey (asciiText ['C', 'o', 'n', 'n', 'e', 'c', 't', 'i', 'o', 'n']) = caseKey connectionName := by
    decide
  have hother :
      caseKey (asciiText ['C', 'o', 'n', 'n', 'e', 'c', 't', 'i', 'o', 'n']) ≠ caseKey contentLengthName := by
    decide
  have hfind : HeaderMap.find (asciiText ['C', 'o', 'n', 'n', 'e', 'c', 't', 'i', 'o', 'n']) r.withEmitted.headers =
      some (connectionValue r.close) := by
    unfold HttpRequest.withEmitted
    by_cases hbody : r.body = []
    · simp only [hbody, if_true, HeaderMap.find_set hname]
    · simp only [hbody, if_false, HeaderMap.find_set_of_ne hother, HeaderMap.find_set hname]
  have hflag : connectionValue r.close ≠ [] ∧
      (!decide (caseKey (connectionValue r.close) =
        caseKey (asciiText ['k', 'e', 'e', 'p', '-', 'a', 'l', 'i', 'v', 'e']))) = r.close := by
    cases r.close <;> decide
  simp only [HttpRequest.init, HttpRequest.getHeader, storedHead, hfind, Option.getD_some, if_neg hflag.1, hflag.2]
  rfl

/-- The body of a serialised request is received when what the first read leaves of it has a length that fits
an `int`. -/
theorem recvBody_iff (hpieces : ∀ piece ∈ rest, piece ≠ []) (hbytes : more ++ rest.flatten = r.body)
    (hbody : r.body.length ≤ stringMaxSize) :
    recvBody r.body.length more rest (storedHead r r.withEmitted.headers) = .request r.withEmitted ↔
      r.body.length ≤ more.length ∨ 0 < toInt32 (r.body.length - more.length) := by
  have hlength : r.body.length = more.length + rest.flatten.length := by rw [← hbytes, List.length_append]
  have hinit := init_storedHead r
  rw [recvBody, if_neg (Nat.not_lt.mpr hbody)]
  by_cases hall : r.body.length ≤ more.length
  · have hmore : more.take r.body.length = r.body := by
      have hempty : rest.flatten = [] := List.length_eq_zero_iff.mp (by omega)
      rw [List.take_of_length_le (by omega), ← hbytes, hempty, List.append_nil]
    simp only [hall, if_true, hmore, hinit, true_or]
  · obtain ⟨left, hleft⟩ := readFixSize_of_le hpieces (by omega : r.body.length - more.length ≤ rest.flatten.length)
    have htake : more ++ rest.flatten.take (r.body.length - more.length) = r.body := by
      rw [List.take_of_length_le (by omega), hbytes]
    simp only [hall, if_false, hleft, false_or, htake, hinit]
    by_cases hpositive : 0 < toInt32 (r.body.length - more.length)
    · simp [hpositive, not_le.mpr hpositive]
    · simp [hpositive, not_lt.mp hpositive]

/-- The pieces that a read leaves are not empty either. -/
theorem ne_nil_of_readSome {n : ℕ} {got : Bytes} (hread : readSome n pieces = some (got, rest))
    (hpieces : ∀ piece ∈ pieces, piece ≠ []) : ∀ piece ∈ rest, piece ≠ [] := by
  cases pieces with
  | nil => cases hread
  | cons piece pieces =>
    have hrest : ∀ x ∈ pieces, x ≠ [] := fun x hx => hpieces x (List.mem_cons_of_mem piece hx)
    simp only [readSome] at hread
    split at hread
    · cases hread
    · split at hread
      · obtain ⟨-, rfl⟩ := Prod.mk.inj (Option.some.inj hread)
        exact hrest
      · rename_i hlong
        obtain ⟨-, rfl⟩ := Prod.mk.inj (Option.some.inj hread)
        refine List.forall_mem_cons.mpr ⟨fun hnil => hlong (List.drop_eq_nil_iff.mp hnil), hrest⟩

/-- The grammar has no method with a hyphen. -/
theorem not_request_of_hyphen {got : Bytes} (hread : readSome buffSize.size pieces = some ([77, 45] ++ got, rest))
    (queryStart : ℕ) : (recvRequest lexicalCast uriRelaxed queryStart buffSize pieces).2 ≠ .request r := by
  obtain ⟨hstopped, hnone⟩ :
      let e := scan RequestAction.breaks [77, 45] (some (httpParserStart uriRelaxed))
      e.stopped = true ∧ e.cs.isNone = true := by
    cases uriRelaxed <;> decide +kernel
  have hcs : ((HttpRequestParser.fresh uriRelaxed queryStart).execute ([77, 45] ++ got)).self.hasError = true := by
    rw [HttpRequestParser.execute_eq _ (List.append_ne_nil_of_left_ne_nil (List.cons_ne_nil _ _) got)]
    have hscan := scan_append_of_stopped hstopped got
    have hstart :
        (HttpRequestParser.fresh uriRelaxed queryStart).parser.cs = some (httpParserStart uriRelaxed) := rfl
    simp only [HttpRequestParser.hasError, hstart, hscan, hnone, Bool.or_true]
  have hhead : ∀ rounds, (recvHead buffSize (rounds + 1) (.fresh uriRelaxed queryStart) [] pieces).2 = .thrown ∨
      (recvHead buffSize (rounds + 1) (.fresh uriRelaxed queryStart) [] pieces).2 = .null := by
    intro rounds
    rw [recvHead, List.length_nil, Nat.sub_zero, hread]
    simp only [List.nil_append, hcs, if_true]
    split
    · exact .inl rfl
    · exact .inr rfl
  unfold recvRequest
  rcases hhead ((pieces.map (·.length)).sum) with hthrown | hnull
  · simp [hthrown]
  · simp [hnull]

/-- A head that a name ends early announces no length, and fewer headers are stored. -/
theorem ne_of_endsHead (hr : r.Dumpable uriRelaxed) (hmethod : r.method ≠ .msearch) {got : Bytes}
    (hread : readSome buffSize.size pieces = some (r.dumpHead false ++ got, rest))
    {x : Bytes × Bytes} (hx : x ∈ r.headers) (hends : EndsHead x.1) (queryStart : ℕ) :
    (recvRequest lexicalCast uriRelaxed queryStart buffSize pieces).2 ≠ .request r.withEmitted := by
  obtain ⟨y, hy⟩ := Option.isSome_iff_exists.mp
    (List.find?_isSome.mpr ⟨x, hx, decide_eq_true hends⟩ : (r.headers.find? fun y => decide (EndsHead y.1)).isSome)
  obtain ⟨hyends, m, m', hm, hgoes⟩ := List.find?_eq_some_iff_append.mp hy
  have hgoes' : ∀ z ∈ m, ¬EndsHead z.1 := fun z hz => by simpa using hgoes z hz
  obtain ⟨line, hline, tail, htail⟩ : ∃ line ∈ [([13, 10] : Bytes), [10]], ∃ tail, y.1 = line ++ tail := by
    rcases of_decide_eq_true hyends with hfeed | hreturn
    · obtain ⟨tail, htail⟩ := List.head?_eq_some_iff.mp hfeed
      exact ⟨[10], by simp, tail, htail⟩
    · exact ⟨[13, 10], by simp, y.1.drop 2, by rw [← hreturn, List.take_append_drop]⟩
  have hstores := stores_firstHeaders hr hmethod hm hgoes'
  have hbytes : r.dumpHead false ++ got = requestLineText r ++ fieldText (connectionField r) ++ m.flatMap fieldText ++
      line ++ (tail ++ [58] ++ y.2 ++ lineEnd ++ m'.flatMap fieldText ++ lengthText r ++ lineEnd ++ got) := by
    rw [dumpHead_eq fun z hz => (hr.others z hz).1, hm, List.flatMap_append, List.flatMap_cons]
    have hy : fieldText y = line ++ tail ++ [58] ++ y.2 ++ lineEnd := by rw [fieldText, htail]
    rw [hy]
    simp only [List.append_assoc]
  rw [hbytes] at hread
  have hresult := recvRequest_of_stores lexicalCast hstores hline hread queryStart
  have hnone :
      HeaderMap.find contentLengthName (HeaderMap.set connectionName (connectionValue r.close) m) = none := by
    rw [HeaderMap.find_set_of_ne (by decide)]
    exact HeaderMap.find_eq_none fun z hz => (hr.others z (hm ▸ List.mem_append_left _ hz)).2
  have hzero :
      (storedHead r (HeaderMap.set connectionName (connectionValue r.close) m)).contentLength lexicalCast = 0 := by
    change toInt64 (((HeaderMap.find contentLengthName
      (HeaderMap.set connectionName (connectionValue r.close) m)).bind lexicalCast).getD 0) = 0
    rw [hnone]
    rfl
  rw [hresult, hzero, if_neg (lt_irrefl 0)]
  intro hsame
  have hinit : ∀ q : HttpRequest, q.init.headers = q.headers := by
    intro q
    unfold HttpRequest.init
    dsimp only
    split <;> rfl
  have hheaders : HeaderMap.set connectionName (connectionValue r.close) m = r.withEmitted.headers := by
    have hone := congrArg HttpRequest.headers (Received.request.inj hsame)
    rwa [hinit] at hone
  have hfew := HeaderMap.length_set (k := connectionName) (v := connectionValue r.close) (m := m)
    fun z hz => (hr.others z (hm ▸ List.mem_append_left _ hz)).1
  have hmany : r.headers.length + 1 ≤ r.withEmitted.headers.length := by
    have hset := HeaderMap.length_set (k := connectionName) (v := connectionValue r.close) (m := r.headers)
      fun z hz => (hr.others z hz).1
    unfold HttpRequest.withEmitted
    dsimp only
    split
    · exact hset.ge
    · exact hset.ge.trans HeaderMap.length_le_set
  rw [← hheaders, hfew, hm, List.length_append, List.length_cons] at hmany
  omega

/-- A serialised request is received with the emitted headers if and only if the grammar has its method, no
name of a header ends the head, and what the first read leaves of the body has a length that fits an `int`. -/
theorem dump_received_iff (hcast : ReadsDecimal lexicalCast) (hr : r.Dumpable uriRelaxed)
    (harrives : r.Arrives buffSize pieces) (queryStart : ℕ) :
    (recvRequest lexicalCast uriRelaxed queryStart buffSize pieces).2 = .request r.withEmitted ↔
      r.Receivable buffSize pieces := by
  have hothers : ∀ x ∈ r.headers, caseKey x.1 ≠ caseKey connectionName := fun x hx => (hr.others x hx).1
  have hdump := dumpHead_append hothers
  obtain ⟨got, rest, hread⟩ : ∃ got rest, readSome buffSize.size pieces = some (got, rest) := by
    cases hread : readSome buffSize.size pieces with
    | some got => exact ⟨got.1, got.2, rfl⟩
    | none =>
      have hlength := harrives.head
      rw [firstRead, hread, dumpHead_eq hothers] at hlength
      simp [lineEnd] at hlength
  have hgot : firstRead buffSize pieces = got := by rw [firstRead, hread, Option.map_some, Option.getD_some]
  have hflat : got ++ rest.flatten = r.dumpHead false ++ r.body := by
    rw [readSome_append hread, harrives.bytes, hdump]
  obtain ⟨more, rfl⟩ : ∃ more, got = r.dumpHead false ++ more := by
    have hlength := harrives.head
    rw [hgot] at hlength
    obtain ⟨more, hmore⟩ := List.prefix_of_prefix_length_le (List.prefix_append _ _)
      (hflat ▸ List.prefix_append got rest.flatten) hlength
    exact ⟨more, hmore.symm⟩
  have hbytes : more ++ rest.flatten = r.body := by
    rw [List.append_assoc] at hflat
    exact List.append_cancel_left hflat
  have hbody : ((r.dump false).length ≤ (firstRead buffSize pieces).length ∨
      0 < toInt32 ((r.dump false).length - (firstRead buffSize pieces).length)) ↔
        (r.body.length ≤ more.length ∨ 0 < toInt32 (r.body.length - more.length)) := by
    rw [hgot, ← hdump, List.length_append, List.length_append, Nat.add_le_add_iff_left, Nat.add_sub_add_left]
  have hcome : r.method ≠ .msearch → (∀ x ∈ r.headers, ¬EndsHead x.1) →
      ((recvRequest lexicalCast uriRelaxed queryStart buffSize pieces).2 = .request r.withEmitted ↔
        (r.body.length ≤ more.length ∨ 0 < toInt32 (r.body.length - more.length))) := by
    intro hmethod hgoes
    rw [dumpHead_eq hothers] at hread
    rw [recvRequest_of_stores lexicalCast (stores_head hr hmethod hgoes) List.mem_cons_self hread,
      contentLength_withEmitted hcast hr]
    have hiff := recvBody_iff (ne_nil_of_readSome hread harrives.goesOn) hbytes hr.body
    split
    · exact hiff
    · rename_i hzero
      have hempty : r.body = [] := List.length_eq_zero_iff.mp (by omega)
      have hinit := init_storedHead r
      have hcomplete : (storedHead r r.withEmitted.headers).init = r.withEmitted := by
        conv_rhs => rw [← hinit, hempty]
        rfl
      refine iff_of_true (congrArg Received.request hcomplete) (.inl ?_)
      rw [hempty]
      exact Nat.zero_le _
  constructor
  · intro hsame
    have hmethod : r.method ≠ .msearch := by
      intro hmethod
      have hhyphen : r.dumpHead false ++ more = [77, 45] ++ ((r.dumpHead false ++ more).drop 2) := by
        rw [dumpHead_eq hothers, requestLineText, hmethod]
        rfl
      rw [hhyphen] at hread
      exact not_request_of_hyphen hread queryStart hsame
    have hgoes : ∀ x ∈ r.headers, ¬EndsHead x.1 :=
      fun x hx hends => ne_of_endsHead hr hmethod hread hx hends queryStart hsame
    exact ⟨hmethod, hgoes, hbody.mpr ((hcome hmethod hgoes).mp hsame)⟩
  · rintro ⟨hmethod, hgoes, hfits⟩
    exact (hcome hmethod hgoes).mpr (hbody.mp hfits)

end Receiving

/-! ## Requests that come back, and one that does not -/

/-- A conversion that reads decimal digits. -/
def readDecimal (text : Bytes) : Option ℕ :=
  text.foldl (fun acc c => acc.bind fun n =>
    if 48 ≤ c.toNat ∧ c.toNat ≤ 57 then some (10 * n + (c.toNat - 48)) else none) (some 0)

/-- It reads the decimal numbers. -/
theorem readsDecimal_readDecimal : ReadsDecimal readDecimal := by
  have hdigit : ∀ d < 10, (UInt8.ofNat d.digitChar.toNat).toNat = 48 + d := by decide
  have hall : ∀ n, readDecimal (decimal n) = some n := by
    intro n
    induction n using Nat.strong_induction_on with
    | _ n ih =>
      have hmod := hdigit (n % 10) (Nat.mod_lt n (by decide))
      by_cases hn : n < 10
      · rw [Nat.mod_eq_of_lt hn] at hmod
        rw [decimal, Nat.toDigits_of_lt_base hn]
        simp only [asciiText, List.map_cons, List.map_nil, readDecimal, List.foldl_cons, List.foldl_nil,
          Option.bind_some, hmod]
        rw [if_pos (by omega)]
        simp
      · have hrest := ih (n / 10) (by omega)
        rw [decimal, asciiText, readDecimal] at hrest
        rw [decimal, Nat.toDigits_of_base_le (by decide) (not_lt.mp hn), asciiText, List.map_append, readDecimal,
          List.foldl_append, hrest]
        simp only [List.map_cons, List.map_nil, List.foldl_cons, List.foldl_nil, Option.bind_some, hmod]
        rw [if_pos (by omega)]
        congr 1
        omega
  exact fun n _ => hall n

/-- A request for the path `/`, with one header and a body. -/
def plainRequest (m : HttpMethod) (body : Bytes) : HttpRequest where
  method := m
  version := 0x11
  close := false
  path := asciiText ['/']
  query := []
  fragment := []
  body := body
  headers := [(asciiText ['k'], asciiText ['v'])]

/-- It can be serialised. -/
theorem dumpable_plainRequest (m : HttpMethod) {body : Bytes} (hbody : body.length ≤ stringMaxSize) :
    (plainRequest m body).Dumpable false where
  version := .inr rfl
  path := Rx.mem_lang_cat.mpr ⟨asciiText ['/'], (Rx.mem_lang_chr (by decide)).mpr rfl, [],
    Rx.mem_lang_alt.mpr (.inr (Rx.mem_lang_empty.mpr rfl)), rfl⟩
  query := Rx.mem_lang_star.mpr ⟨[], rfl, by simp⟩
  fragment := Rx.mem_lang_star.mpr ⟨[], rfl, by simp⟩
  names := by
    intro x hx
    obtain rfl := List.mem_singleton.mp hx
    exact Rx.mem_lang_cat.mpr
      ⟨asciiText ['k'], ⟨107, by decide, rfl⟩, [], Rx.mem_lang_star.mpr ⟨[], rfl, by simp⟩, rfl⟩
  others := by
    intro x hx
    obtain rfl := List.mem_singleton.mp hx
    decide
  values := by
    intro x hx
    obtain rfl := List.mem_singleton.mp hx
    simp [asciiText, isPrintable]
  sorted := List.pairwise_singleton _ _
  body := hbody

/-- A request whose head arrives in the first read and whose body in the second. -/
theorem dump_received_twoReads :
    (recvRequest readDecimal false 7 ⟨4096, by decide, by decide⟩
      [(plainRequest .post [104, 105]).dumpHead false, [104, 105]]).2 =
        .request (plainRequest .post [104, 105]).withEmitted := by
  obtain ⟨harrives, hfits⟩ :
      (([(plainRequest .post [104, 105]).dumpHead false, [104, 105]].flatten =
          (plainRequest .post [104, 105]).dump false ∧
        (plainRequest .post [104, 105]).dumpHead false ≠ [] ∧
        ((plainRequest .post [104, 105]).dumpHead false).length ≤
          (firstRead ⟨4096, by decide, by decide⟩ [(plainRequest .post [104, 105]).dumpHead false, [104, 105]]).length) ∧
        0 < toInt32 (((plainRequest .post [104, 105]).dump false).length -
          (firstRead ⟨4096, by decide, by decide⟩ [(plainRequest .post [104, 105]).dumpHead false, [104, 105]]).length)) := by
    decide +kernel
  refine (dump_received_iff readsDecimal_readDecimal (dumpable_plainRequest .post (by decide))
    ⟨harrives.1, ?_, harrives.2.2⟩ 7).mpr ⟨by decide, ?_, .inr hfits⟩
  · intro piece hpiece
    rcases List.mem_pair.mp hpiece with rfl | rfl
    · exact harrives.2.1
    · exact List.cons_ne_nil _ _
  · intro x hx
    obtain rfl := List.mem_singleton.mp hx
    decide

/-- A request with the method `M-SEARCH` is not received. -/
theorem msearch_not_received :
    (plainRequest .msearch []).Dumpable false ∧
      (plainRequest .msearch []).Arrives ⟨4096, by decide, by decide⟩ [(plainRequest .msearch []).dump false] ∧
      (recvRequest readDecimal false 0 ⟨4096, by decide, by decide⟩ [(plainRequest .msearch []).dump false]).2 ≠
        .request (plainRequest .msearch []).withEmitted := by
  obtain ⟨⟨hne, hhead⟩, hread⟩ :
      ((plainRequest .msearch []).dump false ≠ [] ∧ ((plainRequest .msearch []).dumpHead false).length ≤
        (firstRead ⟨4096, by decide, by decide⟩ [(plainRequest .msearch []).dump false]).length) ∧
      readSome 4096 [(plainRequest .msearch []).dump false] =
        some ([77, 45] ++ ((plainRequest .msearch []).dump false).drop 2, []) := by
    decide +kernel
  refine ⟨dumpable_plainRequest .msearch (Nat.zero_le _), ⟨by simp, by simpa using hne, hhead⟩, ?_⟩
  exact not_request_of_hyphen hread 0

end Bobliew.Http
