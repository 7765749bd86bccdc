import Bobliew.Http.CallbackRanges
import Bobliew.Http.ReadSplit

/-!
# Heads that arrive in several reads

The run over a split head is compared with the run over the whole head, action by action. Both perform
the same actions, at positions that differ by the start of the current read. The offsets of the split
run are those of the whole run, moved up to the start of the read if they lie before it; only the
start of a query keeps the offset it had in its own read. It follows that the callbacks of the split
run store what is found of the tokens, and `recvRequest` returns the same head exactly when that is
enough.
-/

namespace Bobliew.Http

open Ragel

/-! ## What a callback finds in one read -/

/-- A read that starts at position `s` of the whole head. -/
structure InRead (r : Bytes) (reads : List Bytes) (s : ℕ) (read : Bytes) : Prop where
  start : ∀ p < read.length, readStart reads (s + p) = s
  stop : ∀ p < read.length, readEnd reads (s + p) = s + read.length
  part : ∀ a b, b ≤ read.length → slice read a b = slice r (s + a) (s + b)
  size : s + read.length ≤ r.length
  small : read.length < 2 ^ 64

section OneRead

variable {r : Bytes} {reads : List Bytes} {s : ℕ} {read : Bytes} {p : ℕ}

/-- A range of a read as a part of the read. -/
theorem stringAt_eq_slice {a b : ℕ} (hab : a ≤ b) (hb : b ≤ read.length) :
    stringAt read a (b - a) = some (slice read a b) := by
  rw [stringAt_of_le (by omega)]
  rfl

namespace InRead

variable (h : InRead r reads s read)

include h

/-- A token that is given from its recorded start. -/
theorem stringAt_found (hp : p < read.length) {a : ℕ} (ha : a ≤ s + p) :
    stringAt read (max a s - s) (lenFrom (max a s - s) p) = some (foundText r reads (a, s + p)) := by
  have hle : max a s - s ≤ p := by omega
  rw [lenFrom, if_pos hle, stringAt_eq_slice hle hp.le, h.part _ _ hp.le, foundText, foundFrom,
    h.start p hp]
  congr 2
  omega

/-- A query that is given from the offset stored in its own read. -/
theorem stringAt_query (hp : p < read.length) (q : ℕ) :
    stringAt read (q - readStart reads q) (lenFrom (q - readStart reads q) p) =
      foundQuery r reads (q, s + p) := by
  simp only [foundQuery, h.start p hp, Nat.add_sub_cancel_left]
  by_cases hle : q - readStart reads q ≤ p
  · rw [if_pos hle, lenFrom, if_pos hle, stringAt_eq_slice hle hp.le, h.part _ _ hp.le]
  · rw [if_neg hle, stringAt, if_neg]
    exact Nat.not_le.mpr (lt_add_lenFrom (Nat.not_le.mp hle) h.small)

/-- A field name that is given from its recorded start and length. -/
theorem stringAt_name (hp : p < read.length) {f e : ℕ} (hfe : f ≤ e) (he : e ≤ s + p) :
    stringAt read (max f s - s) (max e s - max f s) = some (slice r (max f s) (max e s)) := by
  have hle : max f s - s ≤ max e s - s := by omega
  rw [show max e s - max f s = max e s - s - (max f s - s) by omega,
    stringAt_eq_slice hle (by omega), h.part _ _ (by omega)]
  congr 2 <;> omega

/-- What a read holds behind an offset. -/
theorem drop_eq_slice (hp : p < read.length) (a : ℕ) :
    read.drop (max a s - s) = slice r (foundFrom reads (a, s + p)) (readEnd reads (s + p)) := by
  have hwhole : read.drop (max a s - s) = slice read (max a s - s) read.length := by
    rw [slice, List.take_of_length_le (by simp)]
  rw [hwhole, h.part _ _ (Nat.le_refl _), foundFrom, h.start p hp, h.stop p hp]
  congr 1
  omega

end InRead

/-- Comparing a number of bytes does not look behind them. -/
theorem strncmpEq_take (n : ℕ) (memory text : Bytes) :
    strncmpEq n (memory.take n) text = strncmpEq n memory text := by
  induction n generalizing memory text with
  | zero => rfl
  | succ n ih =>
    cases memory with
    | nil => rfl
    | cons a memory =>
      cases text with
      | nil => rfl
      | cons b text => simp [strncmpEq, ih]

/-- The version of some bytes does not depend on what follows them. -/
theorem requestVersion_take (memory : Bytes) (n : ℕ) :
    requestVersion (memory.take n) n = requestVersion memory n := by
  simp [requestVersion, strncmpEq_take]

namespace InRead

variable (h : InRead r reads s read) (self : HttpRequestParser)

include h

/-- The method that is found in a read. -/
theorem handle_method (hp : p < read.length) {a : ℕ} (ha : a ≤ s + p) (n : ℕ) :
    self.handle read (.requestMethod (max a s - s) n) =
      store r reads self (.requestMethod a (lenFrom a (s + p))) := by
  rw [store, add_lenFrom ha, HttpRequestParser.handle, HttpRequestParser.onRequestMethod,
    h.drop_eq_slice hp a]
  rfl

/-- The version that is found in a read. -/
theorem handle_version (hp : p < read.length) {a : ℕ} (ha : a ≤ s + p) :
    self.handle read (.httpVersion (max a s - s) (lenFrom (max a s - s) p)) =
      store r reads self (.httpVersion a (lenFrom a (s + p))) := by
  have hle : max a s - s ≤ p := by omega
  have htext : (read.drop (max a s - s)).take (lenFrom (max a s - s) p) = foundText r reads (a, s + p) := by
    have hstring := h.stringAt_found hp ha
    rw [stringAt_of_le (by rw [add_lenFrom hle]; exact hp.le)] at hstring
    exact Option.some.inj hstring
  have hlen : lenFrom (max a s - s) p = s + p - foundFrom reads (a, s + p) := by
    rw [lenFrom, if_pos hle, foundFrom, h.start p hp]
    omega
  rw [store, add_lenFrom ha, HttpRequestParser.handle, HttpRequestParser.onRequestVersion,
    ← requestVersion_take, htext, hlen]
  rfl

/-- The path that is found in a read. -/
theorem handle_path (hp : p < read.length) {a : ℕ} (ha : a ≤ s + p) :
    self.handle read (.requestPath (max a s - s) (lenFrom (max a s - s) p)) =
      store r reads self (.requestPath a (lenFrom a (s + p))) := by
  rw [store, add_lenFrom ha, HttpRequestParser.handle, h.stringAt_found hp ha]
  rfl

/-- The fragment that is found in a read. -/
theorem handle_fragment (hp : p < read.length) {a : ℕ} (ha : a ≤ s + p) :
    self.handle read (.fragment (max a s - s) (lenFrom (max a s - s) p)) =
      store r reads self (.fragment a (lenFrom a (s + p))) := by
  rw [store, add_lenFrom ha, HttpRequestParser.handle, h.stringAt_found hp ha]
  rfl

/-- The query that is found in a read. -/
theorem handle_query (hp : p < read.length) {q : ℕ} (hq : q ≤ s + p) :
    self.handle read
        (.queryString (q - readStart reads q) (lenFrom (q - readStart reads q) p)) =
      store r reads self (.queryString q (lenFrom q (s + p))) := by
  rw [store, add_lenFrom hq, HttpRequestParser.handle, h.stringAt_query hp q]

/-- The header field that is found in a read. -/
theorem handle_field (hp : p < read.length) {f n v : ℕ} (hf : f + n ≤ s + p) (hv : v ≤ s + p) :
    self.handle read (.httpField (max f s - s) (max (f + n) s - max f s) (max v s - s)
        (lenFrom (max v s - s) p)) =
      store r reads self (.httpField f n v (lenFrom v (s + p))) := by
  have hempty : max (f + n) s - max f s = 0 ↔ slice r (max f s) (max (f + n) s) = [] := by
    rw [← List.length_eq_zero_iff, length_slice (by omega)]
    have := h.size
    omega
  simp only [store, foundField, add_lenFrom hv, h.start p hp, HttpRequestParser.handle,
    HttpRequestParser.onRequestHttpField, h.stringAt_name hp (Nat.le_add_right f n) hf,
    h.stringAt_found hp hv, hempty]
  split <;> rfl

end InRead

/-- Storing a token does not depend on the offsets of the parser, and leaves them as they are. -/
theorem store_with_offsets (self : HttpRequestParser) (q : HttpParser) (cb : Callback) :
    store r reads { self with parser := q } cb =
      (store r reads self cb).map fun self' => { self' with parser := q } := by
  cases cb with
  | requestMethod start length =>
    simp only [store, Option.map_some]
    split <;> rfl
  | httpVersion start length =>
    simp only [store, Option.map_some]
    split <;> rfl
  | httpField field flen value vlen =>
    simp only [store, Option.map_some]
    split <;> rfl
  | queryString start length =>
    simp only [store, Option.map_map]
    rfl
  | _ => rfl

end OneRead

/-! ## The two runs side by side -/

/-- The offsets of the split run in a read that starts at `s`, next to those of the whole run. The
length of a name is compared once it is written, the start of a query once it has begun. -/
structure Moved (reads : List Bytes) (s : ℕ) (named started : Bool) (whole split : HttpParser) : Prop where
  mark : split.mark = max whole.mark s - s
  fieldStart : split.fieldStart = max whole.fieldStart s - s
  fieldLen : named = true →
    split.fieldLen = max (whole.fieldStart + whole.fieldLen) s - max whole.fieldStart s
  queryStart : started = true → split.queryStart = whole.queryStart - readStart reads whole.queryStart
  sent : (split.xmlSent || split.jsonSent) = (whole.xmlSent || whole.jsonSent)

/-- The split run stores what is found of the tokens of the whole run. -/
structure Sim (r : Bytes) (reads : List Bytes) (p₀ : HttpRequestParser) (s k : ℕ) (named started : Bool)
    (whole split : Handling) : Prop where
  behind : Behind k named whole
  query : started = true → whole.self.parser.queryStart ≤ k
  moved : split.thrown = false → Moved reads s named started whole.self.parser split.self.parser
  stored : whole.calls.foldlM (store r reads) p₀ =
    if split.thrown then none else some { split.self with parser := p₀.parser }
  placed : ∀ cb ∈ whole.calls, cb.Placed r.length

section Simulation

variable {r : Bytes} {reads : List Bytes} {p₀ : HttpRequestParser} {s k p : ℕ} {named started : Bool}
  {read : Bytes} {whole split whole' : Handling}

/-- Both runs make the callback of one token. -/
theorem Sim.call (h : Sim r reads p₀ s k named started whole split) (read : Bytes) (cb cb' : Callback)
    (hcalls : whole'.calls = whole.calls ++ [cb]) {k' : ℕ} (hk : k ≤ k') (hbehind : Behind k' named whole')
    (hparser : whole'.self.parser = whole.self.parser)
    (hplaced : cb.Placed r.length)
    (hstore : split.thrown = false → split.self.handle read cb' = store r reads split.self cb) :
    Sim r reads p₀ s k' named started whole' (if split.thrown then split else split.call read cb') := by
  have hplaced' : ∀ cb ∈ whole'.calls, cb.Placed r.length := by
    rw [hcalls]
    exact List.forall_mem_append.mpr ⟨h.placed, List.forall_mem_singleton.mpr hplaced⟩
  have hquery : started = true → whole'.self.parser.queryStart ≤ k' := by
    rw [hparser]
    exact fun hstarted => (h.query hstarted).trans hk
  have hfold : whole'.calls.foldlM (store r reads) p₀ =
      (whole.calls.foldlM (store r reads) p₀).bind fun p => store r reads p cb := by
    rw [hcalls, List.foldlM_append]
    simp
  cases hthrown : split.thrown with
  | true =>
    rw [if_pos rfl]
    refine ⟨hbehind, hquery, fun hnot => absurd (hthrown.symm.trans hnot) (by decide), ?_, hplaced'⟩
    rw [hfold, h.stored, hthrown]
    rfl
  | false =>
    rw [if_neg (by decide)]
    have hstore' := hstore hthrown
    have hfold' : whole'.calls.foldlM (store r reads) p₀ =
        (split.self.handle read cb').map fun self => { self with parser := p₀.parser } := by
      rw [hfold, h.stored, hthrown, hstore', ← store_with_offsets]
      rfl
    cases hhandle : split.self.handle read cb' with
    | none =>
      rw [hhandle] at hfold'
      have hcall : split.call read cb' = { split with calls := split.calls ++ [cb'], thrown := true } := by
        rw [Handling.call, hhandle]
      rw [hcall]
      exact ⟨hbehind, hquery, fun hnot => absurd hnot (by simp), hfold', hplaced'⟩
    | some self' =>
      rw [hhandle] at hfold'
      have hcall : split.call read cb' = { split with self := self', calls := split.calls ++ [cb'] } := by
        rw [Handling.call, hhandle]
      rw [hcall]
      refine ⟨hbehind, hquery, fun _ => ?_, ?_, hplaced'⟩
      · rw [hparser, (HttpRequestParser.handle_frame hhandle).1]
        exact h.moved hthrown
      · rw [hfold', hthrown]
        rfl

/-- Both runs change their offsets. -/
theorem Sim.update (h : Sim r reads p₀ s k named started whole split) {named' started' : Bool} {k' : ℕ}
    {f g : HttpParser → HttpParser} (hbehind : Behind k' named' (whole.update f))
    (hquery : started' = true → (f whole.self.parser).queryStart ≤ k')
    (hmoved : Moved reads s named started whole.self.parser split.self.parser →
      Moved reads s named' started' (f whole.self.parser) (g split.self.parser)) :
    Sim r reads p₀ s k' named' started' (whole.update f) (if split.thrown then split else split.update g) := by
  cases hthrown : split.thrown with
  | true =>
    rw [if_pos rfl]
    refine ⟨hbehind, hquery, fun hnot => absurd (hthrown.symm.trans hnot) (by decide), ?_, h.placed⟩
    exact h.stored
  | false =>
    rw [if_neg (by decide)]
    refine ⟨hbehind, hquery, fun _ => hmoved (h.moved hthrown), ?_, h.placed⟩
    have hstored := h.stored
    rw [hthrown] at hstored
    rw [show (whole.update f).calls = whole.calls from rfl, hstored,
      show (split.update g).thrown = split.thrown from rfl, hthrown]
    rfl

/-- No callback changes the offsets. -/
theorem parser_call (t : Handling) (buffer : Bytes) (cb : Callback) :
    (t.call buffer cb).self.parser = t.self.parser := by
  unfold Handling.call
  split
  · rfl
  · rename_i hhandle
    exact (HttpRequestParser.handle_frame hhandle).1

/-- Both runs make a callback whose range starts at `mark`. -/
theorem Sim.callFromMark (hread : InRead r reads s read) (h : Sim r reads p₀ s k named started whole split)
    (hk : k ≤ s + p) (hp : p < read.length) (token : ℕ → ℕ → Callback)
    (hranges : ∀ a n, (token a n).ranges = [(a, n)])
    (hplaced : ∀ a n, a + n < r.length → (token a n).Placed r.length)
    (hstore : ∀ a ≤ s + p, split.self.handle read (token (max a s - s) (lenFrom (max a s - s) p)) =
      store r reads split.self (token a (lenFrom a (s + p)))) :
    Sim r reads p₀ s (s + p) named started
      (whole.call r (token whole.self.parser.mark (lenFrom whole.self.parser.mark (s + p))))
      (if split.thrown then split
        else split.call read (token split.self.parser.mark (lenFrom split.self.parser.mark p))) := by
  have hmark : whole.self.parser.mark ≤ s + p := h.behind.mark.trans hk
  have hsize : s + p < r.length := Nat.lt_of_lt_of_le (Nat.add_lt_add_left hp s) hread.size
  have hinside :
      (token whole.self.parser.mark (lenFrom whole.self.parser.mark (s + p))).Inside r.length := by
    intro x hx
    rw [hranges, List.mem_singleton] at hx
    rw [hx]
    exact inside_of_le hmark hsize
  obtain ⟨hbehind, -, -⟩ := h.behind.call hk hinside
  refine h.call read _ _ (calls_call _) hk hbehind (parser_call _ _ _) (hplaced _ _ ?_) fun hthrown => ?_
  · rw [add_lenFrom hmark]
    exact hsize
  · rw [(h.moved hthrown).mark]
    exact hstore _ hmark

/-- Both runs finish. -/
theorem Sim.done (h : Sim r reads p₀ s k named started whole split)
    (hbehind : Behind (s + p) named
      (if whole.self.parser.xmlSent || whole.self.parser.jsonSent then
        whole.update fun q => { q with bodyStart := q.mark, contentLen := (s + p : ℕ) - q.mark + 1 }
      else
        (whole.update fun q => { q with bodyStart := s + p + 1 }).call r
          (.headerDone (s + p + 1) (r.length - (s + p) - 1)))) (hk : k ≤ s + p) :
    Sim r reads p₀ s (s + p) named started
      (if whole.self.parser.xmlSent || whole.self.parser.jsonSent then
        whole.update fun q => { q with bodyStart := q.mark, contentLen := (s + p : ℕ) - q.mark + 1 }
      else
        (whole.update fun q => { q with bodyStart := s + p + 1 }).call r
          (.headerDone (s + p + 1) (r.length - (s + p) - 1)))
      (if split.thrown then split
      else if split.self.parser.xmlSent || split.self.parser.jsonSent then
        split.update fun q => { q with bodyStart := q.mark, contentLen := p - q.mark + 1 }
      else
        (split.update fun q => { q with bodyStart := p + 1 }).call read
          (.headerDone (p + 1) (read.length - p - 1))) := by
  have hstarted : started = true → whole.self.parser.queryStart ≤ s + p := fun hs => (h.query hs).trans hk
  have hsent : split.thrown = false → (split.self.parser.xmlSent || split.self.parser.jsonSent) =
      (whole.self.parser.xmlSent || whole.self.parser.jsonSent) := fun hthrown => (h.moved hthrown).sent
  cases hbranch : whole.self.parser.xmlSent || whole.self.parser.jsonSent with
  | true =>
    rw [hbranch, if_pos rfl] at hbehind
    rw [hbranch] at hsent
    have hupdate := h.update
      (f := fun q => { q with bodyStart := q.mark, contentLen := (s + p : ℕ) - q.mark + 1 })
      (g := fun q => { q with bodyStart := q.mark, contentLen := p - q.mark + 1 }) hbehind hstarted fun hmoved =>
        ⟨hmoved.mark, hmoved.fieldStart, hmoved.fieldLen, hmoved.queryStart, hmoved.sent⟩
    cases hthrown : split.thrown with
    | true => simpa [hthrown] using hupdate
    | false => simpa [hthrown, hsent hthrown] using hupdate
  | false =>
    rw [hbranch, if_neg (by decide)] at hbehind
    rw [hbranch] at hsent
    have hmiddle : Behind (s + p) named (whole.update fun q => { q with bodyStart := s + p + 1 }) :=
      ⟨h.behind.goes, h.behind.mark.trans hk, h.behind.fieldStart.trans hk,
        fun hnamed => (h.behind.fieldEnd hnamed).trans hk⟩
    have hupdate := h.update (g := fun q => { q with bodyStart := p + 1 }) hmiddle hstarted fun hmoved =>
      ⟨hmoved.mark, hmoved.fieldStart, hmoved.fieldLen, hmoved.queryStart, hmoved.sent⟩
    have hcall := hupdate.call read (.headerDone (s + p + 1) (r.length - (s + p) - 1))
      (.headerDone (p + 1) (read.length - p - 1)) (calls_call _) (Nat.le_refl _) hbehind
      (parser_call _ _ _) trivial (fun _ => rfl)
    cases hthrown : split.thrown with
    | true => simpa [hthrown] using hcall
    | false => simpa [hthrown, hsent hthrown, Handling.update] using hcall

/-- Whether a query has begun after an action. -/
def followQuery (started : Bool) : RequestAction → Bool
  | .startQuery => true
  | _ => started

/-- Both runs perform an action, at positions that differ by the start of the read. -/
theorem Sim.perform (hread : InRead r reads s read) (h : Sim r reads p₀ s k named started whole split)
    (hk : k ≤ s + p) (hp : p < read.length) {a : RequestAction} {named' : Bool}
    (hfollow : RequestMachine.followFields named a = some named')
    (hquery : a = .queryString → started = true) :
    Sim r reads p₀ s (s + p) named' (followQuery started a) (whole.perform r (s + p) a)
      (split.perform read p a) := by
  have hsize : s + p < r.length := Nat.lt_of_lt_of_le (Nat.add_lt_add_left hp s) hread.size
  have hreach : a = .queryString → whole.self.parser.queryStart ≤ s + p :=
    fun ha => (h.query (hquery ha)).trans hk
  obtain ⟨hbehind, -, -⟩ := h.behind.perform hk hsize hfollow hreach
  have hmark := h.behind.mark.trans hk
  have hfieldStart := h.behind.fieldStart.trans hk
  unfold Handling.perform at hbehind ⊢
  rw [if_neg (by simp [h.behind.goes])] at hbehind ⊢
  have hstarted : started = true → whole.self.parser.queryStart ≤ s + p := fun hs => (h.query hs).trans hk
  cases a with
  | mark =>
    cases hfollow
    exact h.update hbehind hstarted fun hmoved =>
      ⟨by simp only; omega, hmoved.fieldStart, hmoved.fieldLen, hmoved.queryStart, hmoved.sent⟩
  | startField =>
    cases hfollow
    exact h.update hbehind hstarted fun hmoved =>
      ⟨hmoved.mark, by simp only; omega, fun h => absurd h (by decide), hmoved.queryStart, hmoved.sent⟩
  | writeField =>
    cases hfollow
    refine h.update hbehind hstarted fun hmoved =>
      ⟨hmoved.mark, hmoved.fieldStart, fun _ => ?_, hmoved.queryStart, hmoved.sent⟩
    have hle : max whole.self.parser.fieldStart s - s ≤ p := by omega
    simp only [hmoved.fieldStart, lenFrom, if_pos hle, if_pos hfieldStart]
    omega
  | startValue =>
    cases hfollow
    exact h.update hbehind hstarted fun hmoved =>
      ⟨by simp only; omega, hmoved.fieldStart, hmoved.fieldLen, hmoved.queryStart, hmoved.sent⟩
  | writeValue =>
    cases named with
    | false => cases hfollow
    | true =>
      cases hfollow
      have hfieldEnd := (h.behind.fieldEnd rfl).trans hk
      refine h.call read _ _ (calls_call _) hk hbehind (parser_call _ _ _) ?_ fun hthrown => ?_
      · intro x hx
        rcases List.mem_cons.mp hx with rfl | hx
        · exact Nat.lt_of_le_of_lt hfieldEnd hsize
        · rw [List.mem_singleton.mp hx, add_lenFrom hmark]
          exact hsize
      · have hmoved := h.moved hthrown
        rw [hmoved.mark, hmoved.fieldStart, hmoved.fieldLen rfl]
        exact hread.handle_field split.self hp hfieldEnd hmark
  | requestMethod =>
    cases hfollow
    exact h.callFromMark hread hk hp .requestMethod (fun _ _ => rfl)
      (fun _ _ hlt => List.forall_mem_singleton.mpr hlt) fun a ha => hread.handle_method split.self hp ha _
  | requestUri =>
    cases hfollow
    exact h.callFromMark hread hk hp .requestUri (fun _ _ => rfl)
      (fun _ _ hlt => List.forall_mem_singleton.mpr hlt) fun a ha => rfl
  | fragment =>
    cases hfollow
    exact h.callFromMark hread hk hp .fragment (fun _ _ => rfl)
      (fun _ _ hlt => List.forall_mem_singleton.mpr hlt) fun a ha => hread.handle_fragment split.self hp ha
  | startQuery =>
    cases hfollow
    exact h.update hbehind (fun _ => Nat.le_refl _) fun hmoved =>
      ⟨hmoved.mark, hmoved.fieldStart, hmoved.fieldLen,
        fun _ => by simp only [hread.start p hp, Nat.add_sub_cancel_left], hmoved.sent⟩
  | queryString =>
    cases hfollow
    have hq := hreach rfl
    refine h.call read _ _ (calls_call _) hk hbehind (parser_call _ _ _) ?_ fun hthrown => ?_
    · refine List.forall_mem_singleton.mpr ?_
      rw [add_lenFrom hq]
      exact hsize
    · rw [(h.moved hthrown).queryStart (hquery rfl)]
      exact hread.handle_query split.self hp hq
  | httpVersion =>
    cases hfollow
    exact h.callFromMark hread hk hp .httpVersion (fun _ _ => rfl)
      (fun _ _ hlt => List.forall_mem_singleton.mpr hlt) fun a ha => hread.handle_version split.self hp ha
  | requestPath =>
    cases hfollow
    exact h.callFromMark hread hk hp .requestPath (fun _ _ => rfl)
      (fun _ _ hlt => List.forall_mem_singleton.mpr hlt) fun a ha => hread.handle_path split.self hp ha
  | done =>
    cases hfollow
    exact h.done hbehind hk
  | xml =>
    cases hfollow
    exact h.update hbehind hstarted fun hmoved =>
      ⟨hmoved.mark, hmoved.fieldStart, hmoved.fieldLen, hmoved.queryStart, by simp⟩
  | json =>
    cases hfollow
    exact h.update hbehind hstarted fun hmoved =>
      ⟨hmoved.mark, hmoved.fieldStart, hmoved.fieldLen, hmoved.queryStart, by simp⟩

/-! ## One read -/

/-- The actions can be followed: no value without a name, and no query string without a start. -/
structure Follows (named started : Bool) (as : List RequestAction) (named' : Bool) : Prop where
  fields : as.foldlM RequestMachine.followFields named = some named'
  query : started = true ∨ Precedes .startQuery .queryString as

/-- The start of a query is remembered. -/
theorem foldl_followQuery (as : List RequestAction) :
    as.foldl followQuery started = true ↔ started = true ∨ .startQuery ∈ as := by
  induction as generalizing started with
  | nil => simp
  | cons a as ih =>
    rw [List.foldl_cons, ih]
    cases a <;> simp [followQuery]

/-- Following actions in two parts. -/
theorem Follows.of_append {l l' : List RequestAction} {named' : Bool}
    (h : Follows named started (l ++ l') named') :
    ∃ named₁, Follows named started l named₁ ∧ Follows named₁ (l.foldl followQuery started) l' named' := by
  have hfields := h.fields
  rw [List.foldlM_append] at hfields
  obtain ⟨named₁, hfirst, hrest⟩ := Option.bind_eq_some_iff.mp hfields
  refine ⟨named₁, ⟨hfirst, h.query.imp_right fun hp => hp.of_prefix (List.prefix_append _ _)⟩, hrest, ?_⟩
  rw [foldl_followQuery]
  rcases h.query with hstarted | hprec
  · exact .inl (.inl hstarted)
  · by_cases hmem : RequestAction.startQuery ∈ l
    · exact .inl (.inr hmem)
    · exact .inr (hprec.of_append hmem)

/-- The actions of a read, performed by both runs. -/
theorem Sim.foldl (hread : InRead r reads s read) (h : Sim r reads p₀ s k named started whole split)
    {l : List (ℕ × RequestAction)} (hsorted : l.Pairwise fun x y => x.1 ≤ y.1)
    (hl : ∀ x ∈ l, k ≤ s + x.1 ∧ x.1 < read.length) (hk : k ≤ s + read.length) {named' : Bool}
    (hfollows : Follows named started (l.map (·.2)) named') :
    Sim r reads p₀ s (s + read.length) named' ((l.map (·.2)).foldl followQuery started)
      (l.foldl (fun t x => t.perform r (x.1 + s) x.2) whole)
      (l.foldl (fun t x => t.perform read x.1 x.2) split) := by
  induction l generalizing k named started whole split with
  | nil =>
    obtain rfl := Option.some.inj hfollows.fields
    exact ⟨⟨h.behind.goes, h.behind.mark.trans hk, h.behind.fieldStart.trans hk,
      fun hnamed => (h.behind.fieldEnd hnamed).trans hk⟩, fun hs => (h.query hs).trans hk, h.moved, h.stored,
      h.placed⟩
  | cons x l ih =>
    obtain ⟨hfirst, hrest⟩ := List.pairwise_cons.mp hsorted
    obtain ⟨hkx, hx⟩ := hl x List.mem_cons_self
    obtain ⟨named₁, hone, hmore⟩ := Follows.of_append (l := [x.2]) hfollows
    have hstep : RequestMachine.followFields named x.2 = some named₁ := by simpa using hone.fields
    have hquery : x.2 = .queryString → started = true := by
      intro hx
      refine hone.query.resolve_right fun hprec => ?_
      exact absurd (hprec [] [] (by rw [hx]; rfl)) (by simp)
    have hsim := h.perform hread hkx hx hstep hquery
    rw [Nat.add_comm s x.1] at hsim
    refine ih hsim hrest (fun y hy => ⟨?_, (hl y (List.mem_cons_of_mem x hy)).2⟩) (by omega) hmore
    have := hfirst y hy
    omega

/-- The next read: the offsets restart at zero. -/
theorem Sim.enter {s' : ℕ} (h : Sim r reads p₀ s s' named started whole split) (hthrown : split.thrown = false)
    (cs : Option (List (Thread RequestAction))) :
    Sim r reads p₀ s' s' named started whole
      (HttpRequestParser.entered { split.self with parser := { split.self.parser with cs := cs } }).st := by
  have hmark := h.behind.mark
  have hfieldStart := h.behind.fieldStart
  have hmoved := h.moved hthrown
  have hstored := h.stored
  rw [hthrown] at hstored
  refine ⟨h.behind, h.query, fun _ => ⟨?_, ?_, fun hnamed => ?_, hmoved.queryStart, hmoved.sent⟩, hstored,
    h.placed⟩
  · simp only [HttpRequestParser.entered]
    omega
  · simp only [HttpRequestParser.entered]
    omega
  · have hfieldEnd := h.behind.fieldEnd hnamed
    simp only [HttpRequestParser.entered]
    omega

/-! ## All reads -/

/-- Tokens that cannot be stored, or not without an error, are not mended by more of them. -/
theorem not_stored_of_prefix {calls calls' : List Callback} (hpre : calls <+: calls')
    (h : ∀ q, calls.foldlM (store r reads) p₀ = some q → q.error ≠ 0) :
    ∀ q, calls'.foldlM (store r reads) p₀ = some q → q.error ≠ 0 := by
  obtain ⟨more, rfl⟩ := hpre
  intro q hq
  rw [List.foldlM_append] at hq
  obtain ⟨q₁, hq₁, hmore⟩ := Option.bind_eq_some_iff.mp hq
  exact fun herror => h q₁ hq₁ ((assembled_of_foldlM hmore).error.mp herror).1

/-- A read that fits is delivered as it is. -/
theorem readSome_cons {n : ℕ} {pieces : List Bytes} (hne : read ≠ []) (hle : read.length ≤ n) :
    readSome n (read :: pieces) = some (read, pieces) := by
  have hpos := List.length_pos_iff.mpr hne
  rw [readSome, if_neg (by simp [hne]; omega), if_pos hle]

/-- One round of the loop over the head that consumes its read. -/
theorem recvHead_succ {buffSize : BufferSize} (rounds : ℕ) {self : HttpRequestParser} (pieces : List Bytes)
    (hne : read ≠ []) (hle : read.length ≤ buffSize.size) (hall : (self.execute read).nparse = read.length) :
    (recvHead buffSize (rounds + 1) self [] (read :: pieces)).2 =
      if (self.execute read).thrown then .thrown
      else if (self.execute read).self.hasError then .null
      else if (self.execute read).self.isFinished then .finished (self.execute read).self [] pieces
      else (recvHead buffSize rounds (self.execute read).self [] pieces).2 := by
  have hroom : ¬0 = buffSize.size := Nat.ne_of_lt buffSize.pos
  rw [recvHead, List.length_nil, Nat.sub_zero, readSome_cons hne hle]
  simp only [List.nil_append, hall, List.drop_length, List.length_nil, if_neg hroom]
  split
  · rfl
  · split
    · rfl
    · split <;> rfl

/-- The position of a read among the reads. -/
theorem inRead_append (done : List Bytes) {todo : List Bytes} (hflat : (done ++ read :: todo).flatten = r)
    (hsmall : read.length < 2 ^ 64) : InRead r (done ++ read :: todo) done.flatten.length read := by
  have hr : r = done.flatten ++ read ++ todo.flatten := by
    rw [← hflat]
    simp
  refine ⟨fun p hp => readStart_append hp, fun p hp => readEnd_append hp, fun a b hb => ?_, ?_, hsmall⟩
  · rw [hr]
    exact slice_read hb
  · rw [hr]
    simp only [List.length_append]
    omega

/-- The events of a buffer in two parts. -/
theorem performed_append {cs : Option (List (Thread RequestAction))}
    (h : (scan RequestAction.breaks read cs).stopped = false) (more : Bytes) :
    performed cs (read ++ more) = performed cs read ++
      (performed (scan RequestAction.breaks read cs).cs more).map (fun x => (x.1 + read.length, x.2)) := by
  rw [performed, scan_append h]
  rfl

/-- What a head does is done by its first read, and then by the rest from where that read ends. -/
theorem foldl_performed_append {cs : Option (List (Thread RequestAction))}
    (h : (scan RequestAction.breaks read cs).stopped = false) (more : Bytes) (whole : Handling) (s : ℕ) :
    (performed cs (read ++ more)).foldl (fun t x => t.perform r (x.1 + s) x.2) whole =
      (performed (scan RequestAction.breaks read cs).cs more).foldl
        (fun t x => t.perform r (x.1 + (s + read.length)) x.2)
        ((performed cs read).foldl (fun t x => t.perform r (x.1 + s) x.2) whole) := by
  rw [performed_append h, List.foldl_append, List.foldl_map]
  simp only [Nat.add_assoc, Nat.add_comm read.length]

/-- The actions of a read, performed by both runs from the state in which the read is entered. -/
theorem Sim.execute {self : HttpRequestParser} (hread : InRead r reads s read)
    (h : Sim r reads p₀ s s named started whole self.entered.st) {named' : Bool}
    (hfollows : Follows named started ((performed self.parser.cs read).map (·.2)) named') :
    Sim r reads p₀ s (s + read.length) named'
      (((performed self.parser.cs read).map (·.2)).foldl followQuery started)
      ((performed self.parser.cs read).foldl (fun t x => t.perform r (x.1 + s) x.2) whole)
      ((performed self.parser.cs read).foldl (fun t x => t.perform read x.1 x.2) self.entered.st) := by
  obtain ⟨hsorted, hlt⟩ := scan_sorted RequestAction.breaks read self.parser.cs
  refine h.foldl hread hsorted (fun x hx => ⟨Nat.le_add_right _ _, ?_⟩) (Nat.le_add_right _ _) hfollows
  exact Nat.lt_of_lt_of_le (hlt x hx) (scan_p_le _ read self.parser.cs)

/-- One round of the loop over the head: what is found in the read cannot be stored and the loop does
not finish, or it is stored and the loop goes on with it. -/
theorem recvHead_round {buffSize : BufferSize} (rounds : ℕ) {self : HttpRequestParser} (pieces : List Bytes)
    (hne : read ≠ []) (hle : read.length ≤ buffSize.size) {ts : List (Thread RequestAction)}
    (hall : (scan RequestAction.breaks read self.parser.cs).p = read.length)
    (hcs : (scan RequestAction.breaks read self.parser.cs).cs = some ts)
    (hsplit : split =
      (performed self.parser.cs read).foldl (fun t x => t.perform read x.1 x.2) self.entered.st)
    (hsim : Sim r reads p₀ s k named started whole split) :
    ((∀ q, whole.calls.foldlM (store r reads) p₀ = some q → q.error ≠ 0) ∧
        ∀ p' left pieces', (recvHead buffSize (rounds + 1) self [] (read :: pieces)).2 ≠ .finished p' left pieces') ∨
      (whole.calls.foldlM (store r reads) p₀ = some { split.self with parser := p₀.parser } ∧
        split.thrown = false ∧ split.self.error = 0 ∧
          (recvHead buffSize (rounds + 1) self [] (read :: pieces)).2 =
            let self' := { split.self with parser := { split.self.parser with cs := some ts } }
            if isFinal ts then .finished self' [] pieces
            else (recvHead buffSize rounds self' [] pieces).2) := by
  have hexecute : self.execute read =
      ⟨{ split.self with parser := { split.self.parser with cs := some ts } }, split.calls, split.thrown,
        read.length⟩ := by
    rw [self.execute_eq hne, hsplit]
    simp only [hall, hcs]
  have hround := recvHead_succ rounds pieces hne hle (congrArg (·.nparse) hexecute)
  have hstored := hsim.stored
  rw [hround, hexecute]
  cases hthrown : split.thrown with
  | true =>
    rw [hthrown] at hstored
    refine .inl ⟨fun q hq => absurd (hstored.symm.trans hq) nofun, fun _ _ _ => ?_⟩
    simp
  | false =>
    rw [hthrown] at hstored
    by_cases herror : split.self.error = 0
    · refine .inr ⟨hstored, rfl, herror, ?_⟩
      simp [HttpRequestParser.hasError, HttpRequestParser.isFinished, herror]
    · refine .inl ⟨fun q hq => ?_, fun _ _ _ => ?_⟩
      · obtain rfl := Option.some.inj (hstored.symm.trans hq)
        exact herror
      · simp [HttpRequestParser.hasError, herror]

/-- The loop over a head that arrives in reads finishes exactly when what is found of the tokens can be
stored without an error, and then it has stored that. -/
theorem recvHead_split (buffSize : BufferSize) (done : List Bytes) {todo : List Bytes} (hreads : done ++ todo = reads)
    (hflat : reads.flatten = r) (htodo : todo ≠ [])
    (hsizes : ∀ read ∈ todo, read ≠ [] ∧ read.length ≤ buffSize.size) {rounds : ℕ} (hrounds : todo.length ≤ rounds)
    {self : HttpRequestParser} (hself : Unfinished RequestAction.done self.parser.cs)
    (hsim : Sim r reads p₀ done.flatten.length done.flatten.length named started whole self.entered.st)
    (hend : (scan RequestAction.breaks todo.flatten self.parser.cs).p = todo.flatten.length)
    (hfinal : ∃ ts, (scan RequestAction.breaks todo.flatten self.parser.cs).cs = some ts ∧ isFinal ts = true)
    {named' : Bool} (hfollows : Follows named started ((performed self.parser.cs todo.flatten).map (·.2)) named')
    (rest : List Bytes) :
    let calls := ((performed self.parser.cs todo.flatten).foldl
      (fun t x => t.perform r (x.1 + done.flatten.length) x.2) whole).calls
    (∀ q, calls.foldlM (store r reads) p₀ = some q → q.error = 0 →
        ∃ p', (recvHead buffSize rounds self [] (todo ++ rest)).2 = .finished p' [] rest ∧ p'.data = q.data) ∧
      ((∀ q, calls.foldlM (store r reads) p₀ = some q → q.error ≠ 0) →
        ∀ p' left pieces, (recvHead buffSize rounds self [] (todo ++ rest)).2 ≠ .finished p' left pieces) := by
  induction todo generalizing done rounds self named started whole with
  | nil => exact absurd rfl htodo
  | cons read todo ih =>
    obtain ⟨hne, hle⟩ := hsizes read List.mem_cons_self
    have hbuff := buffSize.fits
    have hread : InRead r reads done.flatten.length read := by
      rw [← hreads] at hflat ⊢
      exact inRead_append done hflat (by omega)
    obtain ⟨rounds, rfl⟩ : ∃ n, rounds = n + 1 := ⟨rounds - 1, by simp at hrounds; omega⟩
    rw [List.cons_append]
    cases todo with
    | nil =>
      simp only [List.flatten_cons, List.flatten_nil, List.append_nil, List.nil_append] at hend hfinal hfollows ⊢
      obtain ⟨ts, hts, hisFinal⟩ := hfinal
      rcases recvHead_round rounds rest hne hle hend hts rfl
        (hsim.execute hread hfollows) with ⟨hnot, hout⟩ | ⟨hstored, hthrown, herror', hout⟩
      · exact ⟨fun q hq hqe => absurd hqe (hnot q hq), fun _ => hout⟩
      · refine ⟨fun q hq _ => ?_, fun hnot => (hnot _ hstored herror').elim⟩
        obtain rfl := Option.some.inj (hstored.symm.trans hq)
        rw [hout]
        simp [hisFinal]
    | cons next todo =>
      obtain ⟨hne', -⟩ := hsizes next (List.mem_cons_of_mem _ List.mem_cons_self)
      have hmore : 0 < (next :: todo).flatten.length := by
        rw [List.flatten_cons, List.length_append]
        exact Nat.add_pos_left (List.length_pos_iff.mpr hne') _
      rw [List.flatten_cons] at hend hfinal hfollows
      have hgoes : (scan RequestAction.breaks read self.parser.cs).stopped = false := by
        refine goes_of_append (next :: todo).flatten ?_
        rw [hend, List.length_append]
        omega
      have hsplit := performed_append hgoes (next :: todo).flatten
      obtain ⟨ts, hts⟩ : ∃ ts, (scan RequestAction.breaks read self.parser.cs).cs = some ts := by
        obtain ⟨ts', hts', -⟩ := hfinal
        rw [scan_append hgoes] at hts'
        refine Option.ne_none_iff_exists'.mp fun hnone => ?_
        rw [hnone] at hts'
        exact absurd ((scan_none _ _).1.symm.trans hts') nofun
      have hunfinished := unfinished_scan hself (show RequestAction.breaks .done = true from rfl) hgoes
      rw [scan_append hgoes, hts] at hend hfinal
      rw [hsplit, hts, List.map_append, List.map_map] at hfollows
      obtain ⟨named₁, hfirst, hrest⟩ := hfollows.of_append
      have hsim' := hsim.execute hread hfirst
      obtain ⟨split', hsplit'⟩ :
          ∃ t : Handling, t = (performed self.parser.cs read).foldl (fun t x => t.perform read x.1 x.2)
            self.entered.st := ⟨_, rfl⟩
      rw [← hsplit'] at hsim'
      have hlength : (done ++ [read]).flatten.length = done.flatten.length + read.length := by simp
      have hcalls := foldl_performed_append (r := r) hgoes (next :: todo).flatten whole done.flatten.length
      rw [hts, ← hlength] at hcalls
      rw [List.flatten_cons]
      simp only [hcalls]
      rcases recvHead_round rounds (next :: todo ++ rest) hne hle (scan_p hgoes) hts
        hsplit' hsim' with ⟨hnot, hout⟩ | ⟨hstored, hthrown, herror', hout⟩
      · have hnot' := not_stored_of_prefix (calls_prefix_foldl r
          (performed (some ts) (next :: todo).flatten) (done ++ [read]).flatten.length) hnot
        exact ⟨fun q hq hqe => absurd hqe (hnot' q hq), fun _ => hout⟩
      · have hlast : isFinal ts = false := (hunfinished ts hts).2
        rw [hout]
        simp only [hlast, Bool.false_eq_true, if_false]
        rw [hts] at hunfinished
        let next' : HttpRequestParser := { split'.self with parser := { split'.self.parser with cs := some ts } }
        refine ih (done ++ [read]) (by simp [← hreads]) (List.cons_ne_nil _ _)
          (fun read' h => hsizes read' (List.mem_cons_of_mem _ h))
          (by simpa using hrounds) (show Unfinished RequestAction.done next'.parser.cs from hunfinished) ?_ ?_
          hfinal hrest
        · rw [hlength]
          exact hsim'.enter hthrown _
        · rw [List.length_append, Nat.add_comm read.length] at hend
          exact Nat.add_right_cancel hend

end Simulation

/-! ## Receiving a split head -/

/-- A call of `execute` that accepts its whole buffer as a head. -/
structure Accepts (one : HttpRequestParser.Executed) (r : Bytes) : Prop where
  returns : one.thrown = false
  valid : one.self.hasError = false
  finished : one.self.isFinished = true
  whole : one.nparse = r.length

/-- The body that a head announces arrives: its length fits a string, enough bytes follow the head, and the
result of `readFixSize` is positive as an `int`. -/
def BodyArrives (length : ℤ) (rest : List Bytes) : Prop :=
  0 < length → length.toNat ≤ stringMaxSize ∧ (readFixSize length.toNat rest).isSome ∧ 0 < toInt32 length.toNat

section Receiving

variable (uriRelaxed : Bool) {r : Bytes} {reads : List Bytes}

/-- The two runs before the first read. -/
theorem Sim.fresh (r : Bytes) (reads : List Bytes) (queryStart queryStart' : ℕ) :
    Sim r reads (.fresh uriRelaxed queryStart) 0 0 true false
      (HttpRequestParser.fresh uriRelaxed queryStart).entered.st
      (HttpRequestParser.fresh uriRelaxed queryStart').entered.st where
  behind := ⟨rfl, Nat.le_refl 0, Nat.le_refl 0, fun _ => Nat.le_refl 0⟩
  query := nofun
  moved := fun _ => ⟨rfl, rfl, fun _ => rfl, nofun, rfl⟩
  stored := rfl
  placed := fun _ hcb => absurd hcb (by simp [HttpRequestParser.entered])

/-- The actions of a head can be followed from the start. -/
theorem follows_start (data : Bytes) :
    ∃ named, Follows true false ((performed (some (httpParserStart uriRelaxed)) data).map (·.2)) named := by
  obtain ⟨n, hstart⟩ := RequestMachine.holds_httpParserStart uriRelaxed
  obtain ⟨named, hfields, -⟩ :=
    RequestMachine.followFields_scan hstart (fun _ => rfl) RequestAction.breaks data
  obtain ⟨hprec, -⟩ := precedes_scan (a := RequestAction.startQuery) (b := .queryString) nofun
    (RequestMachine.guarded_httpParserStart uriRelaxed) RequestAction.breaks data
  exact ⟨named, hfields, .inr hprec⟩

/-- What a call of `execute` stores of a whole head. -/
theorem stored_execute (queryStart : ℕ) (hne : r ≠ []) (hr : r.length < 2 ^ 64) :
    let one := (HttpRequestParser.fresh uriRelaxed queryStart).execute r
    (∀ cb ∈ one.calls, cb.Placed r.length) ∧
      one.calls.foldlM (store r [r]) (.fresh uriRelaxed queryStart) =
        if one.thrown then none else some { one.self with parser := httpParserInit uriRelaxed queryStart } := by
  obtain ⟨named, hfollows⟩ := follows_start uriRelaxed r
  have hread : InRead r [r] 0 r := inRead_append [] (by simp) hr
  have hsim := (Sim.fresh uriRelaxed r [r] queryStart queryStart).execute hread hfollows
  rw [HttpRequestParser.execute_eq _ hne]
  exact ⟨hsim.placed, hsim.stored⟩

/-- The same headers announce the same length. -/
theorem SameHead.contentLength_eq {a b : HttpRequest} (h : SameHead a b) (lexicalCast : Bytes → Option ℕ) :
    a.contentLength lexicalCast = b.contentLength lexicalCast := by
  rw [HttpRequest.contentLength, HttpRequest.contentLength, h.headers]

/-- `init` keeps the head. -/
theorem SameHead.init_left {a b : HttpRequest} : SameHead a.init b ↔ SameHead a b := by
  have hinit : ∃ close, a.init = { a with close := close } := by
    unfold HttpRequest.init
    simp only
    split
    · exact ⟨a.close, rfl⟩
    · exact ⟨_, rfl⟩
  obtain ⟨close, hclose⟩ := hinit
  rw [hclose]
  exact ⟨fun ⟨hm, hv, hp, hq, hf, hh⟩ => ⟨hm, hv, hp, hq, hf, hh⟩,
    fun ⟨hm, hv, hp, hq, hf, hh⟩ => ⟨hm, hv, hp, hq, hf, hh⟩⟩

/-- The body of a request changes nothing in its head. -/
theorem SameHead.body_left {a b : HttpRequest} {body : Bytes} : SameHead { a with body := body } b ↔ SameHead a b :=
  ⟨fun ⟨hm, hv, hp, hq, hf, hh⟩ => ⟨hm, hv, hp, hq, hf, hh⟩,
    fun ⟨hm, hv, hp, hq, hf, hh⟩ => ⟨hm, hv, hp, hq, hf, hh⟩⟩

/-- A body of which nothing has arrived with the head. -/
theorem recvBody_nil_iff {length : ℕ} (hlength : 0 < length) (rest : List Bytes) (a b : HttpRequest) :
    (∃ req, recvBody length [] rest a = .request req ∧ SameHead req b) ↔
      SameHead a b ∧ length ≤ stringMaxSize ∧ (readFixSize length rest).isSome ∧ 0 < toInt32 length := by
  unfold recvBody
  rw [List.length_nil, Nat.sub_zero, if_neg (Nat.not_le.mpr hlength)]
  split
  · rename_i hlong
    simp [Nat.not_le.mpr hlong]
  · rename_i hfits
    cases hgot : readFixSize length rest with
    | none => simp
    | some got =>
      simp only
      split
      · rename_i hcount
        simp [Int.not_lt.mpr hcount]
      · rename_i hcount
        simp [SameHead.init_left, SameHead.body_left, Nat.not_lt.mp hfits, Int.not_le.mp hcount]

/-- A request is returned for a finished head only. -/
theorem finished_of_request {lexicalCast : Bytes → Option ℕ} {queryStart : ℕ} {buffSize : BufferSize}
    {pieces : List Bytes} {req : HttpRequest}
    (h : (recvRequest lexicalCast uriRelaxed queryStart buffSize pieces).2 = .request req) :
    ∃ p left rest, (recvHead buffSize ((pieces.map (·.length)).sum + 1) (.fresh uriRelaxed queryStart) []
      pieces).2 = .finished p left rest := by
  simp only [recvRequest] at h
  split at h
  · exact absurd h nofun
  · exact absurd h nofun
  · exact ⟨_, _, _, ‹_›⟩

/-- What `recvRequest` makes of a finished head. -/
theorem recvRequest_iff {lexicalCast : Bytes → Option ℕ} {queryStart : ℕ} {buffSize : BufferSize}
    {pieces rest : List Bytes} {p : HttpRequestParser}
    (hhead : (recvHead buffSize ((pieces.map (·.length)).sum + 1) (.fresh uriRelaxed queryStart) [] pieces).2 =
      .finished p [] rest) (b : HttpRequest) :
    (∃ req, (recvRequest lexicalCast uriRelaxed queryStart buffSize pieces).2 = .request req ∧ SameHead req b) ↔
      SameHead p.data b ∧ BodyArrives (p.data.contentLength lexicalCast) rest := by
  simp only [recvRequest, hhead, BodyArrives]
  split
  · rename_i hpos
    rw [recvBody_nil_iff (by omega)]
    simp only [gt_iff_lt] at hpos
    simp [hpos]
  · rename_i hpos
    simp only [gt_iff_lt] at hpos
    simp [hpos, SameHead.init_left]

/-- An empty buffer is not accepted. -/
theorem Accepts.ne_nil {queryStart : ℕ}
    (h : Accepts ((HttpRequestParser.fresh uriRelaxed queryStart).execute r) r) : r ≠ [] := by
  rintro rfl
  have hstart := (RequestMachine.unfinished_httpParserStart uriRelaxed _ rfl).2
  exact absurd (hstart.symm.trans h.finished) (by decide)

/-- The loop over the reads of an accepted head. -/
theorem recvHead_accepts {queryStart : ℕ} (queryStart' : ℕ) {buffSize : BufferSize}
    (haccepts : Accepts ((HttpRequestParser.fresh uriRelaxed queryStart).execute r) r)
    (hreads : reads.flatten = r) (hsizes : ∀ read ∈ reads, read ≠ [] ∧ read.length ≤ buffSize.size)
    (rest : List Bytes) :
    let calls := ((HttpRequestParser.fresh uriRelaxed queryStart).execute r).calls
    let head := (recvHead buffSize (((reads ++ rest).map (·.length)).sum + 1)
      (.fresh uriRelaxed queryStart') [] (reads ++ rest)).2
    (∀ q, calls.foldlM (store r reads) (.fresh uriRelaxed queryStart) = some q → q.error = 0 →
        ∃ p', head = .finished p' [] rest ∧ p'.data = q.data) ∧
      ((∀ q, calls.foldlM (store r reads) (.fresh uriRelaxed queryStart) = some q → q.error ≠ 0) →
        ∀ p' left pieces, head ≠ .finished p' left pieces) := by
  have hne := haccepts.ne_nil
  have hexecute := (HttpRequestParser.fresh uriRelaxed queryStart).execute_eq hne
  obtain ⟨named, hfollows⟩ := follows_start uriRelaxed r
  have htodo : reads ≠ [] := by
    rintro rfl
    exact hne hreads.symm
  have hrounds : reads.length ≤ ((reads ++ rest).map (·.length)).sum + 1 := by
    have hcount := List.length_le_sum_of_one_le (reads.map (·.length)) fun n hn => by
      obtain ⟨read, hread, rfl⟩ := List.mem_map.mp hn
      exact List.length_pos_iff.mpr (hsizes read hread).1
    rw [List.length_map] at hcount
    rw [List.map_append, List.sum_append]
    omega
  have hend := haccepts.whole
  have hfinal : ∃ ts, (scan RequestAction.breaks r (some (httpParserStart uriRelaxed))).cs = some ts ∧
      isFinal ts = true := by
    have hfinished := haccepts.finished
    rw [hexecute] at hfinished
    change (scan RequestAction.breaks r (some (httpParserStart uriRelaxed))).cs.elim false isFinal = true
      at hfinished
    cases hcs : (scan RequestAction.breaks r (some (httpParserStart uriRelaxed))).cs with
    | none => exact absurd (hcs ▸ hfinished) (by simp)
    | some ts => exact ⟨ts, rfl, by simpa [hcs] using hfinished⟩
  rw [hexecute] at hend
  simp only [hexecute]
  subst hreads
  exact recvHead_split buffSize [] (List.nil_append reads) rfl htodo hsizes hrounds
    (RequestMachine.unfinished_httpParserStart uriRelaxed)
    (Sim.fresh uriRelaxed reads.flatten reads queryStart queryStart') hend hfinal hfollows rest

/-- For every head that `execute` accepts in one piece, and every way it is split into reads, `recvRequest`
returns a request with the same head, if and only if the split keeps the head and the body arrives. -/
theorem split_head_same_iff (lexicalCast : Bytes → Option ℕ) (queryStart queryStart' : ℕ)
    (buffSize : BufferSize) (hr : r.length < 2 ^ 64)
    (haccepts : Accepts ((HttpRequestParser.fresh uriRelaxed queryStart).execute r) r)
    (hreads : reads.flatten = r) (hsizes : ∀ read ∈ reads, read ≠ [] ∧ read.length ≤ buffSize.size)
    (rest : List Bytes) :
    let one := (HttpRequestParser.fresh uriRelaxed queryStart).execute r
    (∃ req, (recvRequest lexicalCast uriRelaxed queryStart' buffSize (reads ++ rest)).2 = .request req ∧
        SameHead req one.self.data) ↔
      SplitKeeps r reads one.calls ∧ BodyArrives (one.self.data.contentLength lexicalCast) rest := by
  intro one
  obtain ⟨hplaced, hstored⟩ := stored_execute uriRelaxed queryStart haccepts.ne_nil hr
  rw [haccepts.returns] at hstored
  have herror : one.self.error = 0 := by
    have hvalid := haccepts.valid
    simp only [HttpRequestParser.hasError, Bool.or_eq_false_iff] at hvalid
    simpa using hvalid.1
  obtain ⟨hyes, hno⟩ := recvHead_accepts uriRelaxed queryStart' haccepts hreads hsizes rest
  rw [← stored_same_iff hplaced rfl rfl hstored herror]
  constructor
  · rintro ⟨req, hreq, hsame⟩
    by_cases hgood : ∃ q, one.calls.foldlM (store r reads) (.fresh uriRelaxed queryStart) = some q ∧ q.error = 0
    · obtain ⟨q, hq, hqerror⟩ := hgood
      obtain ⟨p', hhead, hdata⟩ := hyes q hq hqerror
      obtain ⟨hsame', hbody⟩ := (recvRequest_iff uriRelaxed hhead one.self.data).mp ⟨req, hreq, hsame⟩
      rw [hsame'.contentLength_eq] at hbody
      exact ⟨⟨q, hq, hqerror, hdata ▸ hsame'⟩, hbody⟩
    · have hhead := hno fun q hq hqerror => hgood ⟨q, hq, hqerror⟩
      obtain ⟨p', left, pieces, hfinished⟩ := finished_of_request uriRelaxed hreq
      exact absurd hfinished (hhead p' left pieces)
  · rintro ⟨⟨q, hq, hqerror, hsame⟩, hbody⟩
    obtain ⟨p', hhead, hdata⟩ := hyes q hq hqerror
    have hsame' : SameHead p'.data one.self.data := hdata ▸ hsame
    refine (recvRequest_iff uriRelaxed hhead one.self.data).mpr ⟨hsame', ?_⟩
    rw [hsame'.contentLength_eq]
    exact hbody

/-- A head whose version is cut off right before it ends: comparing no bytes at all finds version 1.1. -/
theorem split_head_same_threeReads :
    let r := asciiText ['G', 'E', 'T', ' ', '/', 'a', ' ', 'H', 'T', 'T', 'P', '/', '1', '.', '1',
      '\r', '\n', '\r', '\n']
    let reads := [r.take 7, (r.drop 7).take 8, r.drop 15]
    let one := (HttpRequestParser.fresh false 7).execute r
    Accepts one r ∧ ∃ req, (recvRequest (fun _ => none) false 9 ⟨4096, by decide, by decide⟩ reads).2 =
      .request req ∧ SameHead req one.self.data := by
  intro r reads one
  obtain ⟨hreturns, hvalid, hfinished, hwhole, hcalls, hlength⟩ :
      one.thrown = false ∧ one.self.hasError = false ∧ one.self.isFinished = true ∧ one.nparse = r.length ∧
        one.calls = [.requestMethod 0 3, .requestPath 4 2, .requestUri 4 2, .httpVersion 7 8, .headerDone 19 0] ∧
          one.self.data.contentLength (fun _ => none) = 0 := by decide +kernel
  have haccepts : Accepts one r := ⟨hreturns, hvalid, hfinished, hwhole⟩
  refine ⟨haccepts, (split_head_same_iff false (fun _ => none) 7 9 ⟨4096, by decide, by decide⟩ (by decide)
    haccepts (show reads.flatten = r by decide) (by decide) []).mpr ⟨?_, ?_⟩⟩
  · rw [hcalls]
    exact ⟨by decide, by decide, by decide, by decide, by decide, by decide, by decide, by decide, by decide⟩
  · exact fun hpos => absurd hlength hpos.ne'

/-- A path that is cut loses what arrived first. -/
theorem cut_path_differs :
    let r := asciiText ['G', 'E', 'T', ' ', '/', 'a', 'b', 'c', ' ', 'H', 'T', 'T', 'P', '/', '1', '.', '1',
      '\r', '\n', '\r', '\n']
    let one := (HttpRequestParser.fresh false 0).execute r
    Accepts one r ∧ ¬∃ req, (recvRequest (fun _ => none) false 0 ⟨4096, by decide, by decide⟩
      [r.take 7, r.drop 7]).2 = .request req ∧ SameHead req one.self.data := by
  intro r one
  obtain ⟨hreturns, hvalid, hfinished, hwhole, hpath⟩ :
      one.thrown = false ∧ one.self.hasError = false ∧ one.self.isFinished = true ∧ one.nparse = r.length ∧
        one.self.data.path = asciiText ['/', 'a', 'b', 'c'] := by decide +kernel
  refine ⟨⟨hreturns, hvalid, hfinished, hwhole⟩, ?_⟩
  rintro ⟨req, hreq, hsame⟩
  have hcut : (match (recvRequest (fun _ => none) false 0 ⟨4096, by decide, by decide⟩
      [r.take 7, r.drop 7]).2 with
    | .request req => req.path
    | _ => []) = asciiText ['c'] := by decide +kernel
  rw [hreq] at hcut
  exact absurd (hcut.symm.trans (hsame.path.trans hpath)) (by decide)

end Receiving

end Bobliew.Http
