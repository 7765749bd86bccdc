import Bobliew.Http.BehindHead

/-!
# Requests one after the other on a connection

`recvRequest` again, now with what is left of the connection when it returns. Its buffer is its own: the
bytes that a read delivered behind the request are dropped with it, and the next call starts with the next
read. A call that returns no request closes the connection.

When every read delivers whole requests, a call returns the first request of a read and loses the others,
so the requests come through exactly when every read holds one.
-/

namespace Bobliew.Http

/-- `recvBody`, with the pieces left. -/
def recvBodyFrom (length : ℕ) (left : Bytes) (pieces : List Bytes) (r : HttpRequest) : Received × List Bytes :=
  if length > stringMaxSize then (.thrown, [])
  else if length ≤ left.length then (.request { r with body := left.take length }.init, pieces)
  else
    match readFixSize (length - left.length) pieces with
    | none => (.null, [])
    | some (got, pieces') =>
      if toInt32 (length - left.length) ≤ 0 then (.null, [])
      else (.request { r with body := left ++ got }.init, pieces')

section Session

variable (lexicalCast : Bytes → Option ℕ) (uriRelaxed : Bool) (buffSize : BufferSize)

/-- One call of `recvRequest` on a session, with the pieces left for the next one. -/
def recvNext (queryStart : ℕ) (pieces : List Bytes) : Received × List Bytes :=
  match (recvHead buffSize ((pieces.map (·.length)).sum + 1) (.fresh uriRelaxed queryStart) [] pieces).2 with
  | .null => (.null, [])
  | .thrown => (.thrown, [])
  | .finished p left pieces' =>
    let length := p.data.contentLength lexicalCast
    if length > 0 then recvBodyFrom length.toNat left pieces' p.data else (.request p.data.init, pieces')

/-- Successive calls on a session, one for each value that the memory of a new parser holds at
`query_start`. -/
def recvEach : List ℕ → List Bytes → List Received
  | [], _ => []
  | queryStart :: queryStarts, pieces =>
    let r := recvNext lexicalCast uriRelaxed buffSize queryStart pieces
    r.1 :: recvEach queryStarts r.2

/-- The body is received as before. -/
theorem recvBodyFrom_fst (length : ℕ) (left : Bytes) (pieces : List Bytes) (r : HttpRequest) :
    (recvBodyFrom length left pieces r).1 = recvBody length left pieces r := by
  unfold recvBodyFrom recvBody
  split
  · rfl
  · split
    · rfl
    · cases readFixSize (length - left.length) pieces with
      | none => rfl
      | some got =>
        dsimp only
        split <;> rfl

/-- A call returns what `recvRequest` returns. -/
theorem recvNext_fst (queryStart : ℕ) (pieces : List Bytes) :
    (recvNext lexicalCast uriRelaxed buffSize queryStart pieces).1 =
      (recvRequest lexicalCast uriRelaxed queryStart buffSize pieces).2 := by
  unfold recvNext recvRequest
  dsimp only
  cases (recvHead buffSize ((pieces.map (·.length)).sum + 1) (.fresh uriRelaxed queryStart) [] pieces).2 with
  | null => rfl
  | thrown => rfl
  | finished p left pieces' =>
    dsimp only
    split
    · exact recvBodyFrom_fst _ _ _ _
    · rfl

/-- A request on the wire and the request it stands for. -/
structure Sent where
  head : Bytes
  body : Bytes
  request : HttpRequest

/-- The bytes of a request. -/
def Sent.bytes (x : Sent) : Bytes := x.head ++ x.body

/-- A well-formed keep-alive request: the grammar accepts its head, which ends a line, and the head
announces the body and does not ask for the connection to be closed. -/
structure Sent.WellFormed (x : Sent) : Prop where
  accepted : Accepts ((HttpRequestParser.fresh uriRelaxed 0).execute x.head) x.head
  endsLine : x.head.getLast? = some 10
  length : ((HttpRequestParser.fresh uriRelaxed 0).execute x.head).self.data.contentLength lexicalCast =
    x.body.length
  request : x.request =
    { ((HttpRequestParser.fresh uriRelaxed 0).execute x.head).self.data with body := x.body }.init
  keepAlive : x.request.close = false

/-- What one read delivers. -/
def delivered (group : List Sent) : Bytes := (group.map Sent.bytes).flatten

/-- Reads that each deliver one or more whole requests and fit the buffer. -/
def WholeRequests (groups : List (List Sent)) : Prop :=
  ∀ group ∈ groups, group ≠ [] ∧ (∀ x ∈ group, x.WellFormed lexicalCast uriRelaxed) ∧
    (delivered group).length ≤ buffSize.size

variable {lexicalCast uriRelaxed buffSize}

/-- What a call returns of a read that delivers some requests. -/
def firstOf : List Sent → Received
  | [] => .null
  | x :: _ => .request x.request

/-- A call returns the first request of a read, and the others are gone. -/
theorem recvNext_delivered {x : Sent} {group : List Sent} (hx : x.WellFormed lexicalCast uriRelaxed)
    (hfits : (delivered (x :: group)).length ≤ buffSize.size) (queryStart : ℕ) (pieces : List Bytes) :
    recvNext lexicalCast uriRelaxed buffSize queryStart (delivered (x :: group) :: pieces) =
      (.request x.request, pieces) := by
  have hbytes : delivered (x :: group) = x.head ++ (x.body ++ delivered group) := by
    simp [delivered, Sent.bytes]
  have hbuff := buffSize.fits
  rw [hbytes] at hfits ⊢
  obtain ⟨p, hhead, hdata⟩ := recvHead_oneRead hx.accepted (endsLine_of_getLast? hx.endsLine) queryStart
    ((((x.head ++ (x.body ++ delivered group)) :: pieces).map (·.length)).sum) hfits pieces
  have hrequest := hx.request
  have hlength := hx.length
  have hempty := body_execute uriRelaxed 0 x.head
  rw [← hdata] at hrequest hlength hempty
  simp only [recvNext, hhead, hlength]
  split
  · simp only [List.length_append] at hfits
    rw [Int.toNat_natCast, recvBodyFrom, if_neg, if_pos, List.take_left, hrequest]
    · rw [List.length_append]
      omega
    · rw [stringMaxSize]
      omega
  · rename_i hzero
    have hnil : x.body = [] := List.length_eq_zero_iff.mp (by omega)
    rw [hrequest, hnil, ← hempty]

/-- Nothing is received from a connection that has ended. -/
theorem recvEach_nil (queryStarts : List ℕ) :
    recvEach lexicalCast uriRelaxed buffSize queryStarts [] = List.replicate queryStarts.length .null := by
  induction queryStarts with
  | nil => rfl
  | cons queryStart queryStarts ih =>
    have hnext : recvNext lexicalCast uriRelaxed buffSize queryStart [] = (.null, []) := rfl
    rw [recvEach, hnext, ih]
    rfl

/-- Successive calls return the first request of every read, and then nothing. -/
theorem recvEach_delivered {groups : List (List Sent)}
    (hgroups : WholeRequests lexicalCast uriRelaxed buffSize groups) (queryStarts : List ℕ)
    (hcalls : groups.length ≤ queryStarts.length) :
    recvEach lexicalCast uriRelaxed buffSize queryStarts (groups.map delivered) =
      groups.map firstOf ++ List.replicate (queryStarts.length - groups.length) .null := by
  induction groups generalizing queryStarts with
  | nil => exact recvEach_nil queryStarts
  | cons group groups ih =>
    cases queryStarts with
    | nil => exact absurd hcalls (Nat.not_succ_le_zero _)
    | cons queryStart queryStarts =>
      obtain ⟨hne, hwell, hfits⟩ := hgroups group List.mem_cons_self
      cases group with
      | nil => exact absurd rfl hne
      | cons x group =>
        have hrest := ih (fun g hg => hgroups g (List.mem_cons_of_mem _ hg)) queryStarts
          (Nat.le_of_succ_le_succ hcalls)
        rw [List.map_cons, recvEach, recvNext_delivered (hwell x List.mem_cons_self) hfits, hrest]
        simp [firstOf]

/-- Reads hold at least as many requests as there are reads, and exactly as many if each holds one. -/
theorem length_flatten_eq_iff {groups : List (List Sent)} (hgroups : ∀ group ∈ groups, group ≠ []) :
    groups.length ≤ groups.flatten.length ∧
      (groups.flatten.length = groups.length ↔ ∀ group ∈ groups, group.length = 1) := by
  induction groups with
  | nil => simp
  | cons group groups ih =>
    have hpos := List.length_pos_iff.mpr (hgroups group List.mem_cons_self)
    obtain ⟨hle, hiff⟩ := ih fun g hg => hgroups g (List.mem_cons_of_mem _ hg)
    rw [List.flatten_cons, List.length_append, List.length_cons, List.forall_mem_cons, ← hiff]
    omega

/-- The first requests of reads that hold one request each are all the requests. -/
theorem map_firstOf {groups : List (List Sent)} (hgroups : ∀ group ∈ groups, group.length = 1) :
    groups.map firstOf = groups.flatten.map fun x => .request x.request := by
  induction groups with
  | nil => rfl
  | cons group groups ih =>
    obtain ⟨x, rfl⟩ := List.length_eq_one_iff.mp (hgroups group List.mem_cons_self)
    rw [List.map_cons, ih fun g hg => hgroups g (List.mem_cons_of_mem _ hg)]
    rfl

/-- When every read delivers whole requests, successive calls return all of them in order if and only if
every read delivers one. -/
theorem requests_in_order_iff {groups : List (List Sent)}
    (hgroups : WholeRequests lexicalCast uriRelaxed buffSize groups) {queryStarts : List ℕ}
    (hcalls : queryStarts.length = groups.flatten.length) :
    recvEach lexicalCast uriRelaxed buffSize queryStarts (groups.map delivered) =
        groups.flatten.map (fun x => .request x.request) ↔
      ∀ group ∈ groups, group.length = 1 := by
  obtain ⟨hle, hiff⟩ := length_flatten_eq_iff fun group hgroup => (hgroups group hgroup).1
  rw [recvEach_delivered hgroups queryStarts (hcalls ▸ hle)]
  constructor
  · intro hall
    rw [← hiff]
    by_contra hmore
    have hnull : Received.null ∈ groups.flatten.map fun x => Received.request x.request := by
      rw [← hall]
      refine List.mem_append_right _ (List.mem_replicate.mpr ⟨?_, rfl⟩)
      omega
    obtain ⟨x, _, hx⟩ := List.mem_map.mp hnull
    cases hx
  · intro hone
    rw [map_firstOf hone, hcalls, hiff.mpr hone, Nat.sub_self, List.replicate_zero, List.append_nil]

end Session

/-- A request for the root that asks for the connection to be kept. -/
def rootKept : Sent where
  head := asciiText ['G', 'E', 'T', ' ', '/', ' ', 'H', 'T', 'T', 'P', '/', '1', '.', '1', '\r', '\n',
    'C', 'o', 'n', 'n', 'e', 'c', 't', 'i', 'o', 'n', ':', ' ', 'k', 'e', 'e', 'p', '-', 'a', 'l', 'i', 'v', 'e',
    '\r', '\n', '\r', '\n']
  body := []
  request := { HttpRequest.fresh with
    close := false
    headers := [(asciiText ['C', 'o', 'n', 'n', 'e', 'c', 't', 'i', 'o', 'n'],
      asciiText ['k', 'e', 'e', 'p', '-', 'a', 'l', 'i', 'v', 'e'])] }

/-- It is well-formed. -/
theorem rootKept_wellFormed : rootKept.WellFormed (fun _ => none) false := by
  obtain ⟨hreturns, hvalid, hfinished, hwhole, hlast, hlength, hrequest, hkept⟩ :
      let one := (HttpRequestParser.fresh false 0).execute rootKept.head
      one.thrown = false ∧ one.self.hasError = false ∧ one.self.isFinished = true ∧
        one.nparse = rootKept.head.length ∧ rootKept.head.getLast? = some 10 ∧
          one.self.data.contentLength (fun _ => none) = rootKept.body.length ∧
            rootKept.request = { one.self.data with body := rootKept.body }.init ∧
              rootKept.request.close = false := by decide +kernel
  exact ⟨⟨hreturns, hvalid, hfinished, hwhole⟩, hlast, hlength, hrequest, hkept⟩

/-- Two requests that arrive in a read each. -/
theorem requests_in_order_twoReads :
    recvEach (fun _ => none) false ⟨4096, by decide, by decide⟩ [7, 9] [rootKept.bytes, rootKept.bytes] =
      [.request rootKept.request, .request rootKept.request] := by
  have hwhole : WholeRequests (fun _ => none) false ⟨4096, by decide, by decide⟩ [[rootKept], [rootKept]] := by
    intro group hgroup
    have hone : group = [rootKept] := by simpa using hgroup
    subst hone
    exact ⟨List.cons_ne_nil _ _, by simpa using rootKept_wellFormed, by decide⟩
  have hlength : [7, 9].length = [[rootKept], [rootKept]].length := rfl
  have hall := (requests_in_order_iff hwhole hlength).mpr (by simp)
  simpa [delivered] using hall

/-- Two requests that arrive in one read: the first call returns the first of them, and the second call
finds the connection ended. -/
theorem second_request_lost :
    WholeRequests (fun _ => none) false ⟨4096, by decide, by decide⟩ [[rootKept, rootKept]] ∧
      recvEach (fun _ => none) false ⟨4096, by decide, by decide⟩ [0, 0] [rootKept.bytes ++ rootKept.bytes] =
        [.request rootKept.request, .null] ∧
      recvEach (fun _ => none) false ⟨4096, by decide, by decide⟩ [0, 0] [rootKept.bytes ++ rootKept.bytes] ≠
        [.request rootKept.request, .request rootKept.request] := by
  have hwhole : WholeRequests (fun _ => none) false ⟨4096, by decide, by decide⟩ [[rootKept, rootKept]] := by
    intro group hgroup
    obtain rfl := List.mem_singleton.mp hgroup
    exact ⟨List.cons_ne_nil _ _, by simpa using rootKept_wellFormed, by decide⟩
  have hcalls : recvEach (fun _ => none) false ⟨4096, by decide, by decide⟩ [0, 0]
      [rootKept.bytes ++ rootKept.bytes] = [.request rootKept.request, .null] := by
    simpa [delivered, firstOf] using recvEach_delivered hwhole [0, 0] (by decide)
  refine ⟨hwhole, hcalls, ?_⟩
  rw [hcalls]
  simp

end Bobliew.Http
