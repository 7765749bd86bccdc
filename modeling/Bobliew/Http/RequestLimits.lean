import Bobliew.Http.HeadVerdict

/-!
# The limits of a request

Two limits are configured for a request: the size of the buffer for its head, and a greatest size of its body.
The receipt of a call of `recvRequest` says, next to what is returned, how many bytes the parser has taken for
the head, how many bytes have been taken from the connection, and to which size the body was set.

The loop over the head keeps nothing between two reads, because a parser that is not done has consumed all it
was given. So the buffer limits a read and not a head, and the greatest size of a body is not looked at. What the
parser finds of the announced length may also be cut by the reads, and then a body that is too long is not even
asked for.
-/

namespace Bobliew.Http

open Ragel

/-! ## What a call does -/

/-- How the loop over the head ends, how many bytes it has taken from the connection, and how many of them the
parser has consumed. -/
structure HeadReceipt where
  outcome : HeadOutcome
  taken : ℕ
  parsed : ℕ

/-- `recvHead` with its counts. -/
def receiveHead (buffSize : BufferSize) : ℕ → HttpRequestParser → Bytes → List Bytes → HeadReceipt
  | 0, _, _, _ => ⟨.null, 0, 0⟩
  | rounds + 1, p, left, pieces =>
    match readSome (buffSize.size - left.length) pieces with
    | none => ⟨.null, 0, 0⟩
    | some (got, pieces') =>
      let data := left ++ got
      let e := p.execute data
      if e.thrown then ⟨.thrown, got.length, 0⟩
      else if e.self.hasError then ⟨.null, got.length, e.nparse⟩
      else
        let left' := data.drop e.nparse
        if left'.length = buffSize.size then ⟨.null, got.length, e.nparse⟩
        else if e.self.isFinished then ⟨.finished e.self left' pieces', got.length, e.nparse⟩
        else
          let next := receiveHead buffSize rounds e.self left' pieces'
          ⟨next.outcome, got.length + next.taken, e.nparse + next.parsed⟩

/-- The bytes that `readFixSize` takes from the connection, also where they are too few. -/
def fixSizeTaken : ℕ → List Bytes → ℕ
  | 0, _ => 0
  | _ + 1, [] => 0
  | n + 1, piece :: pieces =>
    if piece = [] then 0
    else if piece.length ≤ n + 1 then piece.length + fixSizeTaken (n + 1 - piece.length) pieces
    else n + 1

/-- `getContentLength`, a `uint64_t`. -/
def HttpRequest.getContentLength (lexicalCast : Bytes → Option ℕ) (r : HttpRequest) : ℕ :=
  ((r.headers.find contentLengthName).bind lexicalCast).getD 0 % 2 ^ 64

/-- What a call of `recvRequest` returns, how many bytes the parser has consumed, how many bytes have been
taken from the connection, and the size that the body was set to. -/
structure Receipt where
  returns : Received
  head : ℕ
  taken : ℕ
  sized : Option ℕ

/-- What a call makes of a head, with its counts. -/
def receiveBehind (lexicalCast : Bytes → Option ℕ) (head : HeadReceipt) : Receipt :=
  match head.outcome with
  | .null => ⟨.null, head.parsed, head.taken, none⟩
  | .thrown => ⟨.thrown, head.parsed, head.taken, none⟩
  | .finished p left pieces =>
    let length := toInt64 (p.data.getContentLength lexicalCast)
    if length > 0 then
      if length.toNat > stringMaxSize then ⟨.thrown, head.parsed, head.taken, none⟩
      else
        ⟨recvBody length.toNat left pieces p.data, head.parsed,
          head.taken + fixSizeTaken (length.toNat - left.length) pieces, some length.toNat⟩
    else ⟨.request p.data.init, head.parsed, head.taken, none⟩

/-- `recvRequest` with its counts. -/
def receive (lexicalCast : Bytes → Option ℕ) (uriRelaxed : Bool) (queryStart : ℕ) (buffSize : BufferSize)
    (pieces : List Bytes) : Receipt :=
  receiveBehind lexicalCast
    (receiveHead buffSize ((pieces.map (·.length)).sum + 1) (.fresh uriRelaxed queryStart) [] pieces)

/-- The counts do not change the loop over the head. -/
theorem receiveHead_outcome (buffSize : BufferSize) (rounds : ℕ) (p : HttpRequestParser) (left : Bytes)
    (pieces : List Bytes) :
    (receiveHead buffSize rounds p left pieces).outcome = (recvHead buffSize rounds p left pieces).2 := by
  induction rounds generalizing p left pieces with
  | zero => rfl
  | succ rounds ih =>
    unfold receiveHead recvHead
    cases readSome (buffSize.size - left.length) pieces with
    | none => rfl
    | some got =>
      dsimp only
      split
      · rfl
      · split
        · rfl
        · split
          · rfl
          · split
            · rfl
            · exact ih _ _ _

/-- `recvRequest` takes the content length as an `int64_t`. -/
theorem toInt64_getContentLength (lexicalCast : Bytes → Option ℕ) (r : HttpRequest) :
    toInt64 (r.getContentLength lexicalCast) = r.contentLength lexicalCast := by
  change toInt64 (_ % 2 ^ 64) = toInt64 (((HeaderMap.find contentLengthName r.headers).bind lexicalCast).getD 0)
  rw [toInt64, toInt64, Nat.mod_mod]

/-- The counts do not change what is returned. -/
theorem receive_returns (lexicalCast : Bytes → Option ℕ) (uriRelaxed : Bool) (queryStart : ℕ)
    (buffSize : BufferSize) (pieces : List Bytes) :
    (receive lexicalCast uriRelaxed queryStart buffSize pieces).returns =
      (recvRequest lexicalCast uriRelaxed queryStart buffSize pieces).2 := by
  unfold receive receiveBehind recvRequest
  dsimp only
  rw [receiveHead_outcome]
  cases (recvHead buffSize ((pieces.map (·.length)).sum + 1) (.fresh uriRelaxed queryStart) [] pieces).2 with
  | null => rfl
  | thrown => rfl
  | finished p left pieces' =>
    dsimp only
    rw [toInt64_getContentLength]
    split
    · unfold recvBody
      split <;> rfl
    · rfl

/-! ## A stream and its reads -/

/-- The reads of at most `n` bytes by which a stream arrives, up to the first that returns nothing. -/
def readsOf (n : ℕ) (pieces : List Bytes) : List Bytes :=
  match _ : readSome n pieces with
  | none => []
  | some (got, rest) => got :: readsOf n rest
termination_by pieces.flatten.length
decreasing_by
  rename_i hread
  rw [← readSome_append hread, List.length_append]
  have hpos := List.length_pos_iff.mpr (readSome_eq_some hread).1
  omega

section Reads

variable {n : ℕ} {pieces rest : List Bytes} {got : Bytes}

/-- A stream whose first read returns nothing. -/
theorem readsOf_of_none (h : readSome n pieces = none) : readsOf n pieces = [] := by
  rw [readsOf]
  split
  · rfl
  · rename_i hread
    cases h.symm.trans hread

/-- A stream by its first read. -/
theorem readsOf_of_read (h : readSome n pieces = some (got, rest)) :
    readsOf n pieces = got :: readsOf n rest := by
  rw [readsOf]
  split
  · rename_i hread
    cases h.symm.trans hread
  · rename_i hread
    cases h.symm.trans hread
    rfl

/-- Nothing arrives when a read returns nothing. -/
theorem arriving_of_none (hn : 0 < n) (h : readSome n pieces = none) : arriving pieces = [] := by
  cases pieces with
  | nil => rfl
  | cons piece pieces =>
    by_cases hpiece : piece = []
    · rw [hpiece, arriving_cons_nil]
    · rw [readSome, if_neg (not_or.mpr ⟨hpiece, hn.ne'⟩)] at h
      split at h <;> cases h

/-- What arrives begins with what a read returns. -/
theorem arriving_of_read (h : readSome n pieces = some (got, rest)) : arriving pieces = got ++ arriving rest := by
  cases pieces with
  | nil => cases h
  | cons piece pieces =>
    rw [readSome] at h
    split at h
    · cases h
    · rename_i hne
      rw [not_or] at hne
      split at h
      · cases h
        exact arriving_cons hne.1 _
      · rename_i hlong
        cases h
        have hdrop : piece.drop n ≠ [] := by
          rw [Ne, List.drop_eq_nil_iff]
          exact hlong
        rw [arriving_cons hne.1, arriving_cons hdrop, ← List.append_assoc, List.take_append_drop]

/-- The reads bring what arrives, and each of them brings some bytes, at most `n`. -/
theorem readsOf_spec (hn : 0 < n) (pieces : List Bytes) :
    (readsOf n pieces).flatten = arriving pieces ∧
      ∀ read ∈ readsOf n pieces, read ≠ [] ∧ read.length ≤ n := by
  induction pieces using readsOf.induct n with
  | case1 pieces hread =>
    rw [readsOf_of_none hread, arriving_of_none hn hread]
    exact ⟨rfl, fun _ hmem => absurd hmem List.not_mem_nil⟩
  | case2 pieces got rest hread ih =>
    rw [readsOf_of_read hread, arriving_of_read hread, List.flatten_cons, ih.1]
    exact ⟨rfl, List.forall_mem_cons.mpr ⟨readSome_eq_some hread, ih.2⟩⟩

/-- `readFixSize` takes what it asks for, or all that arrives. -/
theorem fixSizeTaken_eq (n : ℕ) (pieces : List Bytes) :
    fixSizeTaken n pieces = min n (arriving pieces).length := by
  induction pieces generalizing n with
  | nil =>
    cases n with
    | zero => rfl
    | succ n => rfl
  | cons piece pieces ih =>
    cases n with
    | zero => exact (Nat.zero_min _).symm
    | succ n =>
      by_cases hpiece : piece = []
      · rw [fixSizeTaken, if_pos hpiece, hpiece, arriving_cons_nil]
        rfl
      · rw [fixSizeTaken, if_neg hpiece, arriving_cons hpiece, List.length_append]
        split
        · rw [ih]
          omega
        · omega

end Reads

/-! ## The parser over the reads -/

section Verdict

variable {p : HttpRequestParser} {reads : List Bytes} {n size arrives : ℕ}

/-- A verdict against the size of the head in the grammar, for reads of at most `n` bytes. -/
def HeadVerdict.Measured (n size arrives : ℕ) : HeadVerdict → Prop
  | .unfinished => size = arrives
  | .thrown => True
  | .error given => given ≤ size + n
  | .finished parsed _ p => size = parsed ∧ p.data.body = []

/-- A verdict behind a read that the parser has consumed. -/
theorem HeadVerdict.Measured.behind {v : HeadVerdict} (h : v.Measured n size arrives) (k : ℕ) :
    (v.behind k).Measured n (size + k) (k + arrives) := by
  cases v with
  | unfinished =>
    obtain rfl : size = arrives := h
    exact Nat.add_comm size k
  | thrown => trivial
  | error given =>
    change given ≤ size + n at h
    change k + given ≤ size + k + n
    omega
  | finished parsed left p =>
    obtain ⟨rfl, hbody⟩ := h
    exact ⟨Nat.add_comm size k, hbody⟩

/-- The parser that is given the reads of a stream takes for the head what the grammar takes for it, and it
reports an error at most a read behind that. -/
theorem executeReads_measured (hp : p.InHead) (hbody : p.data.body = [])
    (hreads : ∀ read ∈ reads, read ≠ [] ∧ read.length ≤ n) :
    (p.executeReads reads).Measured n (scan RequestAction.breaks reads.flatten p.parser.cs).p
      reads.flatten.length := by
  induction reads generalizing p with
  | nil => exact rfl
  | cons read reads ih =>
    obtain ⟨hne, hle⟩ := hreads read List.mem_cons_self
    obtain ⟨hparse, hend⟩ := execute_scan (p := p) hne
    rw [List.flatten_cons, HttpRequestParser.executeReads]
    split
    · trivial
    · split
      · exact hle.trans (Nat.le_add_left n _)
      · rename_i hvalid
        rw [Bool.not_eq_true] at hvalid
        obtain ⟨hfinished, hunfinished⟩ := hp.execute hne hvalid
        split
        · rename_i hfinal
          refine ⟨?_, (p.body_execute read).trans hbody⟩
          rw [scan_append_of_stopped (hfinished hfinal).1]
          exact hparse.symm
        · rename_i hfinal
          rw [Bool.not_eq_true] at hfinal
          obtain ⟨hgoes, hnext⟩ := hunfinished hfinal
          have hrest := ih hnext ((p.body_execute read).trans hbody) fun read' h =>
            hreads read' (List.mem_cons_of_mem read h)
          rw [scan_append hgoes, List.length_append, ← hend]
          exact hrest.behind read.length

/-- What the loop over the head has done when the parser gives a verdict on the reads. -/
inductive HeadReceipt.Matches : HeadReceipt → ℕ → HeadVerdict → Prop
  | unfinished (arrives : ℕ) : Matches ⟨.null, arrives, arrives⟩ arrives .unfinished
  | thrown (taken parsed arrives : ℕ) : Matches ⟨.thrown, taken, parsed⟩ arrives .thrown
  | error (given parsed arrives : ℕ) : Matches ⟨.null, given, parsed⟩ arrives (.error given)
  | finished (parsed : ℕ) (p : HttpRequestParser) (left : Bytes) (rest : List Bytes) :
    Matches ⟨.finished p left rest, parsed + left.length, parsed⟩ (parsed + left.length + (arriving rest).length)
      (.finished parsed left.length p)

/-- What the loop has done behind a read that the parser has consumed. -/
theorem HeadReceipt.Matches.behind {r : HeadReceipt} {v : HeadVerdict} (h : r.Matches arrives v) (k : ℕ) :
    HeadReceipt.Matches ⟨r.outcome, k + r.taken, k + r.parsed⟩ (k + arrives) (v.behind k) := by
  cases h with
  | unfinished => exact .unfinished _
  | thrown => exact .thrown _ _ _
  | error => exact .error _ _ _
  | finished parsed p left rest =>
    have hfinished := HeadReceipt.Matches.finished (k + parsed) p left rest
    simp only [Nat.add_assoc] at hfinished ⊢
    exact hfinished

/-- The loop over the head does what the parser does with the reads: between two of them it keeps nothing. -/
theorem receiveHead_matches (buffSize : BufferSize) (hp : p.InHead) {rounds : ℕ} {pieces : List Bytes}
    (hrounds : pieces.flatten.length < rounds) :
    (receiveHead buffSize rounds p [] pieces).Matches (arriving pieces).length
      (p.executeReads (readsOf buffSize.size pieces)) := by
  induction rounds generalizing p pieces with
  | zero => exact absurd hrounds (Nat.not_lt_zero _)
  | succ rounds ih =>
    rw [receiveHead, List.length_nil, Nat.sub_zero]
    cases hread : readSome buffSize.size pieces with
    | none =>
      rw [readsOf_of_none hread, arriving_of_none buffSize.pos hread]
      exact .unfinished 0
    | some got =>
      obtain ⟨got, rest⟩ := got
      obtain ⟨hne, hle⟩ := readSome_eq_some hread
      obtain ⟨hparse, hend⟩ := execute_scan (p := p) hne
      have hpos := List.length_pos_iff.mpr hne
      rw [readsOf_of_read hread, arriving_of_read hread, List.length_append, HttpRequestParser.executeReads]
      dsimp only [List.nil_append]
      split
      · exact .thrown _ _ _
      · split
        · exact .error _ _ _
        · rename_i hvalid
          rw [Bool.not_eq_true] at hvalid
          obtain ⟨hfinished, hunfinished⟩ := hp.execute hne hvalid
          have hinside := scan_p_le RequestAction.breaks got p.parser.cs
          rw [← hparse] at hinside
          cases hfinal : (p.execute got).self.isFinished with
          | true =>
            have hconsumed := (hfinished hfinal).2
            rw [if_neg (by rw [List.length_drop]; omega), if_pos rfl, if_pos rfl]
            have hlength : got.length = (p.execute got).nparse + (got.drop (p.execute got).nparse).length := by
              rw [List.length_drop]
              omega
            have hmatches := HeadReceipt.Matches.finished (p.execute got).nparse (p.execute got).self
              (got.drop (p.execute got).nparse) rest
            rwa [← hlength] at hmatches
          | false =>
            obtain ⟨hgoes, hnext⟩ := hunfinished hfinal
            rw [scan_p hgoes] at hparse
            have hroom : ¬([] : Bytes).length = buffSize.size := buffSize.pos.ne
            rw [hparse, List.drop_length, if_neg hroom, if_neg (by decide), if_neg (by decide)]
            refine (ih hnext ?_).behind got.length
            rw [← readSome_append hread, List.length_append] at hrounds
            omega

end Verdict

/-! ## The body -/

/-- A body comes with all its bytes, or there is no request: because too few arrive, or because the `int` that
`readFixSize` returns is not positive. -/
theorem recvBody_cases (left : Bytes) (rest : List Bytes) {L : ℕ} (hL : L ≤ stringMaxSize) (r : HttpRequest) :
    (left.length + (arriving rest).length < L → recvBody L left rest r = .null) ∧
      (L ≤ left.length + (arriving rest).length →
        if left.length < L ∧ toInt32 (L - left.length) ≤ 0 then recvBody L left rest r = .null
        else ∃ req, recvBody L left rest r = .request req ∧ req.body.length = L) := by
  obtain ⟨henough, hfew⟩ := readFixSize_arriving (L - left.length) rest
  rw [recvBody, if_neg (Nat.not_lt.mpr hL)]
  by_cases hall : L ≤ left.length
  · rw [if_pos hall, if_neg fun h => absurd h.1 (Nat.not_lt.mpr hall)]
    refine ⟨fun h => by omega, fun _ => ⟨_, rfl, ?_⟩⟩
    rw [HttpRequest.body_init]
    exact List.length_take_of_le hall
  · rw [if_neg hall]
    refine ⟨fun h => ?_, fun h => ?_⟩
    · rw [hfew (by omega)]
    · obtain ⟨remaining, hgot⟩ := henough (by omega)
      rw [hgot]
      dsimp only
      by_cases hint : toInt32 (L - left.length) ≤ 0
      · rw [if_pos ⟨Nat.not_le.mp hall, hint⟩, if_pos hint]
      · rw [if_neg fun h => hint h.2, if_neg hint]
        refine ⟨_, rfl, ?_⟩
        rw [HttpRequest.body_init]
        change (left ++ _).length = L
        rw [List.length_append, List.length_take_of_le (by omega)]
        omega

/-- A number that is not positive as an `int` is large. -/
theorem le_of_toInt32 {n : ℕ} (hn : 0 < n) (h : toInt32 n ≤ 0) : 2 ^ 31 ≤ n := by
  by_contra hsmall
  rw [toInt32, Nat.mod_eq_of_lt (by omega), if_pos (by omega)] at h
  omega

/-- The content length as an `int64_t`: it is kept, or it wraps to a negative number. -/
theorem toInt64_cases {n : ℕ} (hn : n < 2 ^ 64) :
    (n < 2 ^ 63 → toInt64 n = n) ∧ (2 ^ 63 ≤ n → toInt64 n < 0) := by
  rw [toInt64, Nat.mod_eq_of_lt hn]
  refine ⟨fun h => if_pos h, fun h => ?_⟩
  rw [if_neg (Nat.not_lt.mpr h)]
  omega

/-- What a call makes of a finished head, by the content length that the parser has found: a length of zero
and one that wraps leave the request as it is, one that no string can have makes `resize` throw, and the
others size the body. -/
theorem receiveBehind_finished (lexicalCast : Bytes → Option ℕ) (parsed : ℕ) (p : HttpRequestParser) (left : Bytes)
    (rest : List Bytes) :
    let L := p.data.getContentLength lexicalCast
    let r := receiveBehind lexicalCast ⟨.finished p left rest, parsed + left.length, parsed⟩
    (L = 0 ∨ 2 ^ 63 ≤ L → r = ⟨.request p.data.init, parsed, parsed + left.length, none⟩) ∧
      (stringMaxSize < L → L < 2 ^ 63 → r = ⟨.thrown, parsed, parsed + left.length, none⟩) ∧
      (0 < L → L ≤ stringMaxSize → r = ⟨recvBody L left rest p.data, parsed,
        parsed + left.length + min (L - left.length) (arriving rest).length, some L⟩) := by
  intro L r
  have hL : L < 2 ^ 64 := Nat.mod_lt _ (by decide)
  obtain ⟨hkeeps, hwraps⟩ := toInt64_cases hL
  have hr : r = if toInt64 L > 0 then
      if (toInt64 L).toNat > stringMaxSize then ⟨.thrown, parsed, parsed + left.length, none⟩
      else ⟨recvBody (toInt64 L).toNat left rest p.data, parsed,
        parsed + left.length + fixSizeTaken ((toInt64 L).toNat - left.length) rest, some (toInt64 L).toNat⟩
      else ⟨.request p.data.init, parsed, parsed + left.length, none⟩ := rfl
  refine ⟨fun h => ?_, fun hlong hfits => ?_, fun hpos hfits => ?_⟩
  · rw [hr, if_neg]
    rcases h with h | h
    · rw [hkeeps (by omega)]
      omega
    · have hnegative := hwraps h
      omega
  · rw [hr, hkeeps hfits, if_pos (by omega), Int.toNat_natCast, if_pos hlong]
  · have hsmall : L < 2 ^ 63 := by
      rw [stringMaxSize] at hfits
      omega
    rw [hr, hkeeps hsmall, if_pos (by omega), Int.toNat_natCast, if_neg (Nat.not_lt.mpr hfits), fixSizeTaken_eq]

/-! ## The limits -/

/-- The length that header fields announce, as `getContentLength` takes it from them. -/
def fieldsLength (lexicalCast : Bytes → Option ℕ) (fields : List (Bytes × Bytes)) : ℕ :=
  ((HeaderMap.find contentLengthName (storedHeaders fields [])).bind lexicalCast).getD 0 % 2 ^ 64

section Announced

variable (lexicalCast : Bytes → Option ℕ) (uriRelaxed : Bool) (stream : Bytes) (reads : List Bytes)

/-- The length of the body that a stream announces: by the header fields of its head, if it has a whole one. -/
def announcedLength : ℕ :=
  if headFinished uriRelaxed stream then fieldsLength lexicalCast (headerFields uriRelaxed stream) else 0

/-- The length that is left of the announced one when the stream is cut into reads: by what the read in which a
header field ends holds of its name and of its value. -/
def foundLength : ℕ :=
  fieldsLength lexicalCast (((headTokens uriRelaxed stream).filterMap Callback.field?).map (foundField stream reads))

/-- The head is refused at a position of the stream. -/
def HeadRefusedAt (p : ℕ) : Prop :=
  RefusedAt stream reads (headTokens uriRelaxed stream) (headError uriRelaxed stream) p

/-- A query throws at a position of the stream. -/
def HeadThrowsAt (p : ℕ) : Prop := ThrowsAt stream reads (headTokens uriRelaxed stream) p

end Announced

/-- A call keeps both limits on a stream with a head of some size that announces a body of some length: a
request that is returned fits them, the body is not sized beyond its limit, and if the stream exceeds a limit
the connection is closed and nothing is returned, after at most one buffer more than the limit has been taken.
-/
structure LimitsKept (buffSize : BufferSize) (maxBody head announced : ℕ) (r : Receipt) : Prop where
  head_fits : ∀ req, r.returns = .request req → r.head ≤ buffSize.size
  body_fits : ∀ req, r.returns = .request req → req.body.length ≤ maxBody
  sized_fits : ∀ n, r.sized = some n → n ≤ maxBody
  long_head : buffSize.size < head → r.returns = .null ∧ r.taken ≤ buffSize.size + buffSize.size
  long_body : maxBody < announced → r.returns = .null ∧ r.taken ≤ head + maxBody + buffSize.size

/-- A head that is finished is within the limits. The body is sized by the length that is found, which is within
its limit; then the head fits the buffer and the announced length is within its limit too, or the connection ends
within the body and within two buffers, or `readFixSize` takes the whole body and its `int` is not positive.
Where the length that is found sizes nothing, head and announced length are within their limits. -/
def BodyWithin (buffSize : BufferSize) (maxBody head announced found left arrives : ℕ) : Prop :=
  if 0 < found ∧ found ≤ stringMaxSize then
    found ≤ maxBody ∧
      if arrives < head + found then head ≤ buffSize.size ∨ arrives ≤ buffSize.size + buffSize.size
      else head ≤ buffSize.size ∧ (announced ≤ maxBody ∨ left < found ∧ toInt32 (found - left) ≤ 0)
  else head ≤ buffSize.size ∧ announced ≤ maxBody

/-- The streams and their cuts into reads with which a call keeps the limits, by the tokens of the stream, what the
reads hold of them, and the bytes that arrive. -/
structure WithinLimits (lexicalCast : Bytes → Option ℕ) (uriRelaxed : Bool) (buffSize : BufferSize) (maxBody : ℕ)
    (stream : Bytes) (reads : List Bytes) : Prop where
  thrown : (∃ t, HeadThrowsAt uriRelaxed stream reads t ∧
      ∀ p, HeadRefusedAt uriRelaxed stream reads p → readStart reads t ≤ readStart reads p) →
    headSize uriRelaxed stream ≤ buffSize.size ∧ announcedLength lexicalCast uriRelaxed stream ≤ maxBody
  refused : (∃ p, HeadRefusedAt uriRelaxed stream reads p ∧
      ∀ t, HeadThrowsAt uriRelaxed stream reads t → readStart reads p < readStart reads t) →
    ∃ p, HeadRefusedAt uriRelaxed stream reads p ∧ readEnd reads p ≤ buffSize.size + buffSize.size
  unfinished : (∀ p, ¬HeadRefusedAt uriRelaxed stream reads p) → (∀ p, ¬HeadThrowsAt uriRelaxed stream reads p) →
    headFinished uriRelaxed stream = false → stream.length ≤ buffSize.size + buffSize.size
  finished : (∀ p, ¬HeadRefusedAt uriRelaxed stream reads p) → (∀ p, ¬HeadThrowsAt uriRelaxed stream reads p) →
    headFinished uriRelaxed stream = true →
      BodyWithin buffSize maxBody (headSize uriRelaxed stream) (announcedLength lexicalCast uriRelaxed stream)
        (foundLength lexicalCast uriRelaxed stream reads)
        (readEnd reads (headSize uriRelaxed stream - 1) - headSize uriRelaxed stream) stream.length

section Limits

variable {lexicalCast : Bytes → Option ℕ} {buffSize : BufferSize} {maxBody head taken parsed announced : ℕ}
  {sized : Option ℕ}

/-- A call that returns a request keeps the limits if and only if the head and the body that is announced fit them,
and so do the body that is returned and what it was sized to. -/
theorem limitsKept_request_iff {req : HttpRequest} :
    LimitsKept buffSize maxBody parsed announced ⟨.request req, parsed, taken, sized⟩ ↔
      parsed ≤ buffSize.size ∧ announced ≤ maxBody ∧ req.body.length ≤ maxBody ∧ ∀ n, sized = some n → n ≤ maxBody := by
  constructor
  · intro h
    refine ⟨h.head_fits req rfl, ?_, h.body_fits req rfl, h.sized_fits⟩
    by_contra hlong
    cases (h.long_body (Nat.not_le.mp hlong)).1
  · rintro ⟨hhead, hannounced, hbody, hsized⟩
    refine ⟨fun _ _ => hhead, ?_, hsized, fun hlong => ?_, fun hlong => ?_⟩
    · rintro _ ⟨⟩
      exact hbody
    · exact absurd hhead (Nat.not_le.mpr hlong)
    · exact absurd hannounced (Nat.not_le.mpr hlong)

/-- A call that throws keeps the limits if and only if the head and the body that is announced fit them. -/
theorem limitsKept_thrown_iff :
    LimitsKept buffSize maxBody head announced ⟨.thrown, parsed, taken, none⟩ ↔
      head ≤ buffSize.size ∧ announced ≤ maxBody := by
  constructor
  · intro h
    constructor
    · by_contra hlong
      cases (h.long_head (Nat.not_le.mp hlong)).1
    · by_contra hlong
      cases (h.long_body (Nat.not_le.mp hlong)).1
  · rintro ⟨hhead, hfits⟩
    refine ⟨fun req hreq => ?_, fun req hreq => ?_, fun n hn => ?_, fun hlong => ?_, fun hlong => ?_⟩
    · cases hreq
    · cases hreq
    · cases hn
    · exact absurd hhead (Nat.not_le.mpr hlong)
    · exact absurd hfits (Nat.not_le.mpr hlong)

/-- A call that closes the connection keeps the limits if and only if the body was not sized beyond its limit, and
not too much was taken of a long head and of a long body. -/
theorem limitsKept_null_iff :
    LimitsKept buffSize maxBody head announced ⟨.null, parsed, taken, sized⟩ ↔
      (∀ n, sized = some n → n ≤ maxBody) ∧ (buffSize.size < head → taken ≤ buffSize.size + buffSize.size) ∧
        (maxBody < announced → taken ≤ head + maxBody + buffSize.size) := by
  constructor
  · exact fun h => ⟨h.sized_fits, fun hlong => (h.long_head hlong).2, fun hlong => (h.long_body hlong).2⟩
  · rintro ⟨hsized, hhead, hbody⟩
    refine ⟨fun req hreq => ?_, fun req hreq => ?_, hsized, fun hlong => ⟨rfl, hhead hlong⟩,
      fun hlong => ⟨rfl, hbody hlong⟩⟩
    · cases hreq
    · cases hreq

variable {p : HttpRequestParser} {left : Bytes} {rest : List Bytes}

/-- A call keeps the limits on a finished head if and only if the head is within them. -/
theorem limitsKept_finished_iff (hbody : p.data.body = []) :
    LimitsKept buffSize maxBody parsed announced
        (receiveBehind lexicalCast ⟨.finished p left rest, parsed + left.length, parsed⟩) ↔
      BodyWithin buffSize maxBody parsed announced (p.data.getContentLength lexicalCast) left.length
        (parsed + left.length + (arriving rest).length) := by
  have hbuff := buffSize.fits
  have hstring : stringMaxSize < 2 ^ 63 := by decide
  have hnosized : ∀ n, (none : Option ℕ) = some n → n ≤ maxBody := fun n hn => by cases hn
  have hempty : p.data.init.body.length ≤ maxBody := by
    rw [HttpRequest.body_init, hbody]
    exact Nat.zero_le maxBody
  obtain ⟨hleaves, hthrows, hsizes⟩ := receiveBehind_finished lexicalCast parsed p left rest
  rw [BodyWithin]
  generalize p.data.getContentLength lexicalCast = L at hleaves hthrows hsizes ⊢
  by_cases hsizing : 0 < L ∧ L ≤ stringMaxSize
  · obtain ⟨hpos, hfits⟩ := hsizing
    have hsized : (∀ n, some L = some n → n ≤ maxBody) ↔ L ≤ maxBody :=
      ⟨fun h => h L rfl, fun h n hn => (Option.some.inj hn) ▸ h⟩
    rw [if_pos ⟨hpos, hfits⟩, hsizes hpos hfits]
    obtain ⟨hfew, henough⟩ := recvBody_cases left rest hfits p.data
    rcases Nat.lt_or_ge (left.length + (arriving rest).length) L with hless | hmore
    · rw [hfew hless, limitsKept_null_iff, hsized, if_pos (by omega), min_eq_right (by omega)]
      omega
    · have henough' := henough hmore
      rw [if_neg (by omega)]
      split at henough'
      · rename_i hint
        have hlarge := le_of_toInt32 (by omega) hint.2
        rw [henough', limitsKept_null_iff, hsized, min_eq_left (by omega)]
        simp only [hint.1, hint.2, and_self, or_true, and_true]
        omega
      · rename_i hint
        obtain ⟨req, hreq, hlength⟩ := henough'
        rw [hreq, limitsKept_request_iff, hsized, hlength]
        simp only [hint, or_false]
        omega
  · rw [if_neg hsizing]
    rcases Nat.eq_zero_or_pos L with hzero | hpos
    · rw [hleaves (.inl hzero), limitsKept_request_iff]
      exact ⟨fun h => ⟨h.1, h.2.1⟩, fun h => ⟨h.1, h.2, hempty, hnosized⟩⟩
    · have hlong : stringMaxSize < L := Nat.not_le.mp fun hfits => hsizing ⟨hpos, hfits⟩
      rcases Nat.lt_or_ge L (2 ^ 63) with hsmall | hwraps
      · rw [hthrows hlong hsmall, limitsKept_thrown_iff]
      · rw [hleaves (.inr hwraps), limitsKept_request_iff]
        exact ⟨fun h => ⟨h.1, h.2.1⟩, fun h => ⟨h.1, h.2, hempty, hnosized⟩⟩

/-- The content length of a request whose headers are stored fields. -/
theorem getContentLength_eq {r : HttpRequest} {fields : List (Bytes × Bytes)}
    (h : r.headers = storedHeaders fields []) : r.getContentLength lexicalCast = fieldsLength lexicalCast fields := by
  rw [HttpRequest.getContentLength, h]
  rfl

section Tokens

variable {uriRelaxed : Bool} {stream : Bytes} {reads : List Bytes}

/-- The verdict of a new parser on the reads of a stream, by its tokens. -/
def HeadVerdict.OfStream (uriRelaxed : Bool) (stream : Bytes) (reads : List Bytes) (v : HeadVerdict) : Prop :=
  v.FromTokens stream reads (headTokens uriRelaxed stream) (headError uriRelaxed stream)
    (headFinished uriRelaxed stream) 0

/-- The streams within the limits among those that end before their head. -/
theorem withinLimits_unfinished (h : HeadVerdict.unfinished.OfStream uriRelaxed stream reads) :
    WithinLimits lexicalCast uriRelaxed buffSize maxBody stream reads ↔
      stream.length ≤ buffSize.size + buffSize.size := by
  obtain ⟨hrefused, hthrows, hfinished⟩ := h
  constructor
  · exact fun h => h.unfinished hrefused hthrows hfinished
  · intro hlength
    refine ⟨?_, ?_, fun _ _ _ => hlength, fun _ _ hfinal => ?_⟩
    · rintro ⟨t, ht, -⟩
      exact (hthrows t ht).elim
    · rintro ⟨p, hp, -⟩
      exact (hrefused p hp).elim
    · rw [hfinished] at hfinal
      cases hfinal

/-- The streams within the limits among those for which a callback throws. -/
theorem withinLimits_thrown (h : HeadVerdict.thrown.OfStream uriRelaxed stream reads) :
    WithinLimits lexicalCast uriRelaxed buffSize maxBody stream reads ↔
      headSize uriRelaxed stream ≤ buffSize.size ∧ announcedLength lexicalCast uriRelaxed stream ≤ maxBody := by
  obtain ⟨t, ht, hfirst⟩ := h
  constructor
  · exact fun h => h.thrown ⟨t, ht, hfirst⟩
  · intro hfits
    refine ⟨fun _ => hfits, ?_, fun _ hthrows => (hthrows t ht).elim, fun _ hthrows => (hthrows t ht).elim⟩
    rintro ⟨p, hp, hbefore⟩
    exact absurd (hbefore t ht) (Nat.not_lt.mpr (hfirst p hp))

/-- The streams within the limits among those for which the parser reports an error. -/
theorem withinLimits_error {given : ℕ} (h : (HeadVerdict.error given).OfStream uriRelaxed stream reads) :
    WithinLimits lexicalCast uriRelaxed buffSize maxBody stream reads ↔ given ≤ buffSize.size + buffSize.size := by
  obtain ⟨⟨p, hp, hend, hbefore⟩, hleast⟩ := h
  rw [Nat.zero_add] at hend
  constructor
  · intro h
    obtain ⟨p', hp', hle⟩ := h.refused ⟨p, hp, hbefore⟩
    have hgiven := hleast p' hp'
    omega
  · intro hgiven
    refine ⟨?_, fun _ => ⟨p, hp, hend.trans_le hgiven⟩, fun hrefused => (hrefused p hp).elim,
      fun hrefused => (hrefused p hp).elim⟩
    rintro ⟨t, ht, hfirst⟩
    exact absurd (hbefore t ht) (Nat.not_lt.mpr (hfirst p hp))

/-- The streams within the limits among those with a finished head. -/
theorem withinLimits_finished {parsed left : ℕ} {p : HttpRequestParser}
    (h : (HeadVerdict.finished parsed left p).OfStream uriRelaxed stream reads)
    (hsize : headSize uriRelaxed stream = parsed) :
    WithinLimits lexicalCast uriRelaxed buffSize maxBody stream reads ↔
      BodyWithin buffSize maxBody parsed (announcedLength lexicalCast uriRelaxed stream)
        (p.data.getContentLength lexicalCast) left stream.length := by
  obtain ⟨hrefused, hthrows, hfinished, hpos, hend, hheaders⟩ := h
  have hleft : readEnd reads (headSize uriRelaxed stream - 1) - headSize uriRelaxed stream = left := by
    rw [hsize, ← Nat.zero_add parsed, hend]
    omega
  have hlength : foundLength lexicalCast uriRelaxed stream reads = p.data.getContentLength lexicalCast :=
    (getContentLength_eq hheaders).symm
  rw [← hlength, ← hleft, ← hsize]
  constructor
  · exact fun h => h.finished hrefused hthrows hfinished
  · intro hbody
    refine ⟨?_, ?_, fun _ _ hopen => ?_, fun _ _ _ => hbody⟩
    · rintro ⟨t, ht, -⟩
      exact (hthrows t ht).elim
    · rintro ⟨p, hp, -⟩
      exact (hrefused p hp).elim
    · rw [hfinished] at hopen
      cases hopen

end Tokens

/-- For every stream and every way it is cut into reads, a call of `recvRequest` keeps the limits if and only
if stream and reads are within them. -/
theorem limits_kept_iff (uriRelaxed : Bool) (queryStart : ℕ) (pieces : List Bytes) :
    LimitsKept buffSize maxBody (headSize uriRelaxed (arriving pieces))
        (announcedLength lexicalCast uriRelaxed (arriving pieces))
        (receive lexicalCast uriRelaxed queryStart buffSize pieces) ↔
      WithinLimits lexicalCast uriRelaxed buffSize maxBody (arriving pieces) (readsOf buffSize.size pieces) := by
  obtain ⟨hflat, hreads⟩ := readsOf_spec buffSize.pos pieces
  have hbuff := buffSize.fits
  have hmeasured := executeReads_measured (inHead_fresh uriRelaxed queryStart) rfl hreads
  have htokens := fresh_fromTokens uriRelaxed queryStart fun read h => ⟨(hreads read h).1, by
    have hle := (hreads read h).2
    omega⟩
  rw [hflat] at hmeasured htokens
  change HeadVerdict.Measured _ (headSize uriRelaxed (arriving pieces)) _ _ at hmeasured
  change HeadVerdict.OfStream uriRelaxed _ _ _ at htokens
  have hrounds : pieces.flatten.length < (pieces.map (·.length)).sum + 1 := by
    rw [List.length_flatten]
    exact Nat.lt_succ_self _
  have hmatches := receiveHead_matches buffSize (inHead_fresh uriRelaxed queryStart) hrounds
  rw [receive]
  generalize receiveHead buffSize ((pieces.map (·.length)).sum + 1) (.fresh uriRelaxed queryStart) [] pieces = r
    at hmatches ⊢
  have hnosized : ∀ n, (none : Option ℕ) = some n → n ≤ maxBody := fun n hn => by cases hn
  generalize (HttpRequestParser.fresh uriRelaxed queryStart).executeReads (readsOf buffSize.size pieces) = v
    at hmeasured htokens hmatches
  generalize harrives : (arriving pieces).length = arrives at hmeasured hmatches
  cases hmatches with
  | unfinished =>
    have hsize : headSize uriRelaxed (arriving pieces) = arrives := hmeasured
    have hannounced : announcedLength lexicalCast uriRelaxed (arriving pieces) = 0 := by
      rw [announcedLength, htokens.2.2]
      rfl
    rw [withinLimits_unfinished htokens, hannounced, hsize, harrives]
    refine limitsKept_null_iff.trans ⟨fun ⟨_, hlong, _⟩ => ?_, fun hfits => ⟨hnosized, fun _ => hfits, fun h => ?_⟩⟩
    · by_contra hmore
      exact hmore (hlong (by omega))
    · cases h
  | thrown taken parsed =>
    rw [withinLimits_thrown htokens]
    exact limitsKept_thrown_iff
  | error given parsed =>
    change given ≤ headSize uriRelaxed (arriving pieces) + buffSize.size at hmeasured
    rw [withinLimits_error htokens]
    refine limitsKept_null_iff.trans ⟨fun ⟨_, hlong, _⟩ => ?_, fun hfits => ⟨hnosized, fun _ => hfits, fun _ => ?_⟩⟩
    · by_contra hmore
      exact hmore (hlong (by omega))
    · exact hmeasured.trans (Nat.add_le_add_right (Nat.le_add_right _ maxBody) _)
  | finished parsed p left rest =>
    obtain ⟨hsize, hbody⟩ := hmeasured
    rw [withinLimits_finished htokens hsize, hsize, harrives]
    exact limitsKept_finished_iff hbody

end Limits

/-- The head of a request whose body is one byte longer than the default limit. -/
def longBodyHead : Bytes :=
  asciiText ['P', 'O', 'S', 'T', ' ', '/', ' ', 'H', 'T', 'T', 'P', '/', '1', '.', '1', '\r', '\n',
    'c', 'o', 'n', 't', 'e', 'n', 't', '-', 'l', 'e', 'n', 'g', 't', 'h', ':', ' ',
    '6', '7', '1', '0', '8', '8', '6', '5', '\r', '\n', '\r', '\n']

/-- With the default limits the body of that request is sized beyond its limit. -/
theorem not_limits_kept_longBody :
    ¬LimitsKept ⟨4096, by decide, by decide⟩ (64 * 1024 * 1024) (headSize false (arriving [longBodyHead]))
      (announcedLength readDecimal false (arriving [longBodyHead]))
      (receive readDecimal false 0 ⟨4096, by decide, by decide⟩ [longBodyHead]) := by
  intro h
  have hsized : (receive readDecimal false 0 ⟨4096, by decide, by decide⟩ [longBodyHead]).sized =
      some 67108865 := by
    decide +kernel
  exact absurd (h.sized_fits 67108865 hsized) (by decide)

end Bobliew.Http
