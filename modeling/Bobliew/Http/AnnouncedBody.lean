import Bobliew.Http.KeepAlive
import Bobliew.Http.RoundTrip

/-!
# A body of an announced length

When one read delivers a head, and perhaps more, the body is assembled from what the read holds behind the
head and from further reads, however the connection cuts the rest of the stream. No read asks for more than is
missing of the body, so nothing behind it is taken from the connection unless the first read has brought it.

The announced length is the value of the header of that name, compared without regard to case. Of several such
headers the last one counts.
-/

namespace Bobliew.Http

section Headers

variable {r : Bytes} {fields : List (Bytes × Bytes)} {m : HeaderMap} {k : Bytes}

/-- The headers of a head, by the callbacks that the parser makes for them. -/
def headerFields (uriRelaxed : Bool) (head : Bytes) : List (Bytes × Bytes) :=
  (((HttpRequestParser.fresh uriRelaxed 0).execute head).calls.filterMap Callback.field?).map fun x =>
    (slice head x.name.1 x.name.2, slice head x.value.1 x.value.2)

/-- The values of the headers with the name of the content length. -/
def announcedLengths (uriRelaxed : Bool) (head : Bytes) : List Bytes :=
  ((headerFields uriRelaxed head).filter fun x => decide (caseKey x.1 = caseKey contentLengthName)).map Prod.snd

/-- What a header map holds under a name after storing fields: the last value of that name. -/
theorem find_storedHeaders (hk : caseKey k ≠ []) :
    HeaderMap.find k (storedHeaders fields m) =
      ((fields.filter fun x => decide (caseKey x.1 = caseKey k)).map Prod.snd).getLast?.or (HeaderMap.find k m) := by
  induction fields generalizing m with
  | nil => rfl
  | cons x fields ih =>
    have hstep : storedHeaders (x :: fields) m =
        storedHeaders fields (if x.1 = [] then m else m.set x.1 x.2) := rfl
    rw [hstep, ih]
    by_cases hx : caseKey x.1 = caseKey k
    · have hne : x.1 ≠ [] := by
        rintro hnil
        rw [hnil] at hx
        exact hk hx.symm
      rw [if_neg hne, HeaderMap.find_set hx.symm, List.filter_cons_of_pos (by simpa using hx), List.map_cons,
        List.getLast?_cons]
      cases ((fields.filter fun x => decide (caseKey x.1 = caseKey k)).map Prod.snd).getLast? <;> rfl
    · rw [List.filter_cons_of_neg (by simpa using hx)]
      split
      · rfl
      · rw [HeaderMap.find_set_of_ne (Ne.symm hx)]

/-- The fields found in a head that is read at once. -/
theorem foundField_whole {x : FieldToken} (hx : x.value.2 < r.length) :
    foundField r [r] x = (slice r x.name.1 x.name.2, slice r x.value.1 x.value.2) := by
  rw [foundField, foundText, foundFrom, readStart_singleton hx, Nat.max_zero, Nat.max_zero, Nat.max_zero]

/-- The header map of an accepted head is made of its headers. -/
theorem Accepts.headers_eq {uriRelaxed : Bool} {head : Bytes}
    (h : Accepts ((HttpRequestParser.fresh uriRelaxed 0).execute head) head) (hfits : head.length < 2 ^ 64) :
    ((HttpRequestParser.fresh uriRelaxed 0).execute head).self.data.headers =
      storedHeaders (headerFields uriRelaxed head) [] := by
  obtain ⟨hplaced, hstored⟩ := stored_execute uriRelaxed 0 h.ne_nil hfits
  rw [h.returns, if_neg Bool.false_ne_true] at hstored
  have hheaders := (assembled_of_foldlM hstored).headers
  refine hheaders.trans ?_
  congr 1
  refine List.map_congr_left fun x hx => foundField_whole ?_
  obtain ⟨cb, hcb, hfield⟩ := List.mem_filterMap.mp hx
  have hcb' := hplaced cb hcb
  cases cb with
  | httpField field flen value vlen =>
    cases hfield
    exact hcb' (value, vlen) (List.mem_cons_of_mem _ List.mem_cons_self)
  | _ => cases hfield

/-- The length that a head with one header of that name announces. -/
theorem Accepts.contentLength_eq {uriRelaxed : Bool} {head : Bytes} {lexicalCast : Bytes → Option ℕ} {L : ℕ}
    (h : Accepts ((HttpRequestParser.fresh uriRelaxed 0).execute head) head) (hfits : head.length < 2 ^ 64)
    (hcast : ReadsDecimal lexicalCast) (hone : announcedLengths uriRelaxed head = [decimal L])
    (hL : L < 2 ^ 31) :
    ((HttpRequestParser.fresh uriRelaxed 0).execute head).self.data.contentLength lexicalCast = L := by
  have hfind : HeaderMap.find contentLengthName
      ((HttpRequestParser.fresh uriRelaxed 0).execute head).self.data.headers = some (decimal L) := by
    rw [h.headers_eq hfits, find_storedHeaders (by decide)]
    change (announcedLengths uriRelaxed head).getLast?.or _ = _
    rw [hone]
    rfl
  change toInt64 (((HeaderMap.find contentLengthName _).bind lexicalCast).getD 0) = _
  rw [hfind, Option.bind_some, hcast L (by omega), Option.getD_some, toInt64, Nat.mod_eq_of_lt (by omega),
    if_pos (by omega)]

end Headers

section Body

variable {lexicalCast : Bytes → Option ℕ} {uriRelaxed : Bool} {buffSize : BufferSize} {head more : Bytes}
  {pieces rest : List Bytes} {L : ℕ}

/-- `init` keeps the body. -/
theorem HttpRequest.body_init (r : HttpRequest) : r.init.body = r.body := by
  unfold HttpRequest.init
  simp only
  split <;> rfl

/-- The body is what follows the head, if as much arrives, and nothing behind it is taken. -/
theorem recvBodyFrom_arriving (hL : L < 2 ^ 31) (left : Bytes) (pieces : List Bytes) (r : HttpRequest) :
    (L ≤ (left ++ arriving pieces).length → ∃ taken remaining,
      recvBodyFrom L left pieces r =
          (.request { r with body := (left ++ arriving pieces).take L }.init, remaining) ∧
        pieces.flatten = taken ++ remaining.flatten ∧ taken.length = L - left.length) ∧
      ((left ++ arriving pieces).length < L → recvBodyFrom L left pieces r = (.null, [])) := by
  obtain ⟨henough, hfew⟩ := readFixSize_arriving (L - left.length) pieces
  have hsize : ¬ L > stringMaxSize := by
    rw [stringMaxSize]
    omega
  rw [List.length_append, recvBodyFrom, if_neg hsize]
  by_cases hall : L ≤ left.length
  · rw [if_pos hall, List.take_append_of_le_length hall]
    refine ⟨fun _ => ⟨[], pieces, rfl, rfl, ?_⟩, fun h => by omega⟩
    rw [List.length_nil]
    omega
  · rw [if_neg hall]
    refine ⟨fun h => ?_, fun h => by rw [hfew (by omega)]⟩
    obtain ⟨remaining, hgot⟩ := henough (by omega)
    obtain ⟨hlength, happend⟩ := readFixSize_append hgot
    have hint : ¬ toInt32 (L - left.length) ≤ 0 := by
      rw [toInt32, Nat.mod_eq_of_lt (by omega), if_pos (by omega)]
      omega
    refine ⟨(arriving pieces).take (L - left.length), remaining, ?_, happend.symm, hlength⟩
    rw [hgot]
    dsimp only
    rw [if_neg hint, List.take_append, List.take_of_length_le (Nat.le_of_not_le hall)]

/-- A request whose head arrives in one read, with one header that announces a body of `L` bytes: if as many
bytes follow the final line end of the head, they are the body of the request that is returned, and what has
been taken from the connection are the bytes of the first read and those up to the end of the body; if the
stream ends before, the connection is closed. -/
theorem announced_body_received (hcast : ReadsDecimal lexicalCast)
    (haccepts : Accepts ((HttpRequestParser.fresh uriRelaxed 0).execute head) head)
    (hend : head.getLast? = some 10) (hone : announcedLengths uriRelaxed head = [decimal L]) (hpos : 0 < L)
    (hL : L < 2 ^ 31) (hread : readSome buffSize.size pieces = some (head ++ more, rest)) (queryStart : ℕ) :
    (L ≤ (more ++ arriving rest).length → ∃ request consumed remaining,
      recvNext lexicalCast uriRelaxed buffSize queryStart pieces = (.request request, remaining) ∧
        request = { ((HttpRequestParser.fresh uriRelaxed 0).execute head).self.data with
          body := (more ++ arriving rest).take L }.init ∧
        request.body = (more ++ arriving rest).take L ∧
        pieces.flatten = consumed ++ remaining.flatten ∧
        consumed.length = max (head ++ more).length (head.length + L)) ∧
      ((more ++ arriving rest).length < L →
        recvNext lexicalCast uriRelaxed buffSize queryStart pieces = (.null, [])) := by
  obtain ⟨hne, hfits⟩ := readSome_eq_some hread
  have hbuff := buffSize.fits
  have hhead := hfits
  rw [List.length_append] at hhead
  obtain ⟨p, hloop, hdata⟩ := recvHead_oneRead haccepts (endsLine_of_getLast? hend) queryStart
    ((pieces.map (·.length)).sum) hfits rest
  have hlength := haccepts.contentLength_eq (by omega) hcast hone hL
  rw [← hdata] at hlength ⊢
  obtain ⟨henough, hfew⟩ := recvBodyFrom_arriving hL more rest p.data
  have hnext : recvNext lexicalCast uriRelaxed buffSize queryStart pieces = recvBodyFrom L more rest p.data := by
    rw [recvNext, recvHead_of_read hread, hloop]
    dsimp only
    rw [hlength, if_pos (by omega), Int.toNat_natCast]
  rw [hnext]
  refine ⟨fun h => ?_, hfew⟩
  obtain ⟨taken, remaining, hbody, hflat, htaken⟩ := henough h
  refine ⟨_, head ++ more ++ taken, remaining, hbody, rfl, ?_, ?_, ?_⟩
  · exact HttpRequest.body_init _
  · rw [← readSome_append hread, hflat, List.append_assoc (head ++ more)]
  · rw [List.length_append, htaken, List.length_append]
    omega

end Body

/-- The head of a request with a body of three bytes. -/
def postedHead : Bytes :=
  asciiText ['P', 'O', 'S', 'T', ' ', '/', ' ', 'H', 'T', 'T', 'P', '/', '1', '.', '1', '\r', '\n',
    'C', 'O', 'N', 'T', 'E', 'N', 'T', '-', 'l', 'e', 'n', 'g', 't', 'h', ':', ' ', '3', '\r', '\n', '\r', '\n']

/-- It arrives with the first byte of the body, and the others follow in two reads. -/
theorem announced_body_received_threeBytes : ∃ request remaining,
    recvNext readDecimal false ⟨4096, by decide, by decide⟩ 7 [postedHead ++ [97], [98], [99, 100]] =
      (.request request, remaining) ∧ request.body = [97, 98, 99] := by
  obtain ⟨hreturns, hvalid, hfinished, hwhole, hend, hone, hread⟩ :
      let one := (HttpRequestParser.fresh false 0).execute postedHead
      one.thrown = false ∧ one.self.hasError = false ∧ one.self.isFinished = true ∧
        one.nparse = postedHead.length ∧ postedHead.getLast? = some 10 ∧
        announcedLengths false postedHead = [decimal 3] ∧
        readSome (BufferSize.size ⟨4096, by decide, by decide⟩) [postedHead ++ [97], [98], [99, 100]] =
          some (postedHead ++ [97], [[98], [99, 100]]) := by
    decide +kernel
  obtain ⟨request, consumed, remaining, hnext, _, hbody, _⟩ :=
    (announced_body_received readsDecimal_readDecimal
      ⟨hreturns, hvalid, hfinished, hwhole⟩ hend hone (by decide) (by decide) hread 7).1 (by decide)
  exact ⟨request, remaining, hnext, hbody⟩

end Bobliew.Http
