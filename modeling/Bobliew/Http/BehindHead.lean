import Bobliew.Http.SplitHead

/-!
# Bytes behind a head

When a read holds a head and more, the parser is left at the end of the head, and what it has stored is
what it stores of the head alone. The one place where it could look further is the method, which is
compared with the names of the table without regard to where the token ends; but no name of the table
goes beyond a line feed, and a head ends with one.

The offset at which a query starts is not initialised. It makes no difference either, because it is
written before it is used.
-/

namespace Bobliew.Http

open Ragel

/-- No name of the method table holds a line feed. -/
theorem httpMethodMap_no_lineFeed : ∀ entry ∈ httpMethodMap, (10 : UInt8) ∉ entry.2 := by
  decide +kernel

/-- A text without a line feed is in front of a buffer exactly if it is in front of a part of it that holds
one. -/
theorem isPrefixOf_append_iff {text memory : Bytes} (htext : (10 : UInt8) ∉ text)
    (hmemory : (10 : UInt8) ∈ memory) (more : Bytes) :
    text.isPrefixOf (memory ++ more) = text.isPrefixOf memory := by
  rw [Bool.eq_iff_iff, List.isPrefixOf_iff_prefix, List.isPrefixOf_iff_prefix]
  refine ⟨fun h => ?_, fun h => h.trans (List.prefix_append _ _)⟩
  rcases List.prefix_or_prefix_of_prefix h (List.prefix_append memory more) with hprefix | hlonger
  · exact hprefix
  · exact absurd (hlonger.subset hmemory) htext

/-- The method lookup does not go beyond a line feed. -/
theorem charsToHttpMethod_append {memory : Bytes} (hmemory : (10 : UInt8) ∈ memory) (more : Bytes) :
    charsToHttpMethod (memory ++ more) = charsToHttpMethod memory := by
  unfold charsToHttpMethod
  congr 1
  have hsame : ∀ (table : List (HttpMethod × Bytes)), (∀ entry ∈ table, (10 : UInt8) ∉ entry.2) →
      table.find? (fun entry => entry.2.isPrefixOf (memory ++ more)) =
        table.find? fun entry => entry.2.isPrefixOf memory := by
    intro table htable
    induction table with
    | nil => rfl
    | cons entry table ih =>
      rw [List.find?_cons, List.find?_cons, isPrefixOf_append_iff (htable entry List.mem_cons_self) hmemory,
        ih fun e he => htable e (List.mem_cons_of_mem entry he)]
  exact hsame httpMethodMap httpMethodMap_no_lineFeed

section Append

variable {head : Bytes} {cb : Callback} {t s : Handling} {k p : ℕ} {named started : Bool}

/-- A head whose every rest holds a line feed. -/
def EndsLine (head : Bytes) : Prop := ∀ a < head.length, (10 : UInt8) ∈ head.drop a

/-- A head whose last byte is a line feed. -/
theorem endsLine_of_getLast? (h : head.getLast? = some 10) : EndsLine head := by
  intro a ha
  have hlast : (head.drop a).getLast? = some 10 := by
    rw [List.getLast?_drop, if_neg (Nat.not_le.mpr ha), h]
  exact List.mem_of_getLast? hlast

/-- A string inside the head is the same in a longer buffer. -/
theorem stringAt_append {start length : ℕ} (h : start + length ≤ head.length) (more : Bytes) :
    stringAt (head ++ more) start length = stringAt head start length := by
  rw [stringAt_of_le h, stringAt_of_le (by rw [List.length_append]; omega),
    List.drop_append_of_le_length (by omega), List.take_append_of_le_length (by rw [List.length_drop]; omega)]

/-- A callback does the same with a longer buffer. -/
theorem handle_append (hhead : EndsLine head) (hinside : cb.Inside head.length)
    (hmethod : ∀ start n, cb = .requestMethod start n → start < head.length) (more : Bytes)
    (self : HttpRequestParser) : self.handle (head ++ more) cb = self.handle head cb := by
  have hrange : ∀ {start n : ℕ}, (start, n) ∈ cb.ranges →
      stringAt (head ++ more) start n = stringAt head start n :=
    fun hmem => stringAt_append (hinside _ hmem) more
  cases cb with
  | requestMethod start n =>
    have hstart := hmethod start n rfl
    rw [HttpRequestParser.handle, HttpRequestParser.handle, List.drop_append_of_le_length hstart.le]
    unfold HttpRequestParser.onRequestMethod
    rw [charsToHttpMethod_append (hhead start hstart)]
  | requestUri start n => rfl
  | fragment start n =>
    rw [HttpRequestParser.handle, HttpRequestParser.handle, hrange List.mem_cons_self]
  | requestPath start n =>
    rw [HttpRequestParser.handle, HttpRequestParser.handle, hrange List.mem_cons_self]
  | queryString start n =>
    rw [HttpRequestParser.handle, HttpRequestParser.handle, hrange List.mem_cons_self]
  | httpVersion start n =>
    have hle : start + n ≤ head.length := hinside (start, n) List.mem_cons_self
    rw [HttpRequestParser.handle, HttpRequestParser.handle, List.drop_append_of_le_length (by omega)]
    unfold HttpRequestParser.onRequestVersion
    rw [← requestVersion_take (head.drop start ++ more),
      List.take_append_of_le_length (by rw [List.length_drop]; omega), requestVersion_take]
  | headerDone start n => rfl
  | httpField field flen value vlen =>
    rw [HttpRequestParser.handle, HttpRequestParser.handle, HttpRequestParser.onRequestHttpField,
      HttpRequestParser.onRequestHttpField, hrange List.mem_cons_self,
      hrange (List.mem_cons_of_mem _ List.mem_cons_self)]

/-- A callback does not look at the offsets of the parser, and leaves them as they are. -/
theorem handle_with_offsets (self : HttpRequestParser) (q : HttpParser) (buffer : Bytes) (cb : Callback) :
    HttpRequestParser.handle buffer { self with parser := q } cb =
      (self.handle buffer cb).map fun self' => { self' with parser := q } := by
  cases cb with
  | requestMethod start length =>
    simp only [HttpRequestParser.handle, HttpRequestParser.onRequestMethod, Option.map_some]
    split <;> rfl
  | httpVersion start length =>
    simp only [HttpRequestParser.handle, HttpRequestParser.onRequestVersion, Option.map_some]
    split <;> rfl
  | httpField field flen value vlen =>
    simp only [HttpRequestParser.handle, HttpRequestParser.onRequestHttpField]
    split
    · rfl
    · split <;> rfl
  | requestUri start length => rfl
  | headerDone start length => rfl
  | fragment start length =>
    simp only [HttpRequestParser.handle, Option.map_map]
    rfl
  | requestPath start length =>
    simp only [HttpRequestParser.handle, Option.map_map]
    rfl
  | queryString start length =>
    simp only [HttpRequestParser.handle, Option.map_map]
    rfl

/-- The parser state with another start of a query. -/
def HttpParser.withQuery (q : HttpParser) (n : ℕ) : HttpParser := { q with queryStart := n }

/-- Two runs that agree, except for the callbacks recorded and for the start of a query before one has
begun. -/
structure Alike (started : Bool) (t s : Handling) : Prop where
  thrown : t.thrown = s.thrown
  data : t.self.data = s.self.data
  error : t.self.error = s.self.error
  parser : t.self.parser = s.self.parser.withQuery t.self.parser.queryStart
  query : started = true → t.self.parser.queryStart = s.self.parser.queryStart

/-- Both runs make a callback that does the same in both buffers. -/
theorem Alike.call (h : Alike started t s) {buffer buffer' : Bytes} {cb' : Callback}
    (hsame : ∀ self : HttpRequestParser, self.handle buffer cb = self.handle buffer' cb') :
    Alike started (t.call buffer cb) (s.call buffer' cb') := by
  have hself : t.self = ⟨t.self.parser, s.self.data, s.self.error⟩ := by
    rw [← h.data, ← h.error]
  have hhandle : t.self.handle buffer cb =
      (s.self.handle buffer' cb').map fun self' => { self' with parser := t.self.parser } := by
    rw [hsame]
    conv_lhs => rw [hself]
    exact handle_with_offsets s.self _ buffer' cb'
  unfold Handling.call
  cases hstored : s.self.handle buffer' cb' with
  | none =>
    rw [hhandle, hstored]
    exact ⟨rfl, h.data, h.error, h.parser, h.query⟩
  | some self' =>
    rw [hhandle, hstored]
    have hparser := (HttpRequestParser.handle_frame hstored).1
    refine ⟨h.thrown, rfl, rfl, ?_, fun hstarted => ?_⟩
    · simp only [Option.map_some, hparser]
      exact h.parser
    · simp only [Option.map_some, hparser]
      exact h.query hstarted

/-- Both runs change their offsets in a way that does not look at the start of the query. -/
theorem Alike.update (h : Alike started t s) {f : HttpParser → HttpParser}
    (hf : ∀ (q : HttpParser) (n : ℕ), f (q.withQuery n) = (f q).withQuery n) :
    Alike started (t.update f) (s.update f) := by
  have hquery : ∀ q : HttpParser, (f q).queryStart = q.queryStart := by
    intro q
    change (f (q.withQuery q.queryStart)).queryStart = q.queryStart
    rw [hf]
    rfl
  refine ⟨h.thrown, h.data, h.error, ?_, fun hstarted => ?_⟩
  · simp only [Handling.update, hquery]
    conv_lhs => rw [h.parser, hf]
  · simp only [Handling.update, hquery]
    exact h.query hstarted

/-- Both runs have the same offsets and flags, the start of a query apart. -/
theorem Alike.offset (h : Alike started t s) {A : Type} (f : HttpParser → A)
    (hf : ∀ (q : HttpParser) (n : ℕ), f (q.withQuery n) = f q) : f t.self.parser = f s.self.parser := by
  rw [h.parser, hf]

/-- Both runs perform an action inside the head. -/
theorem Alike.perform (hhead : EndsLine head) (more : Bytes) (h : Alike started t s) (hs : Behind k named s)
    (hquery : started = true → s.self.parser.queryStart ≤ k) (hk : k ≤ p) (hp : p < head.length)
    {a : RequestAction} {named' : Bool} (hfollow : RequestMachine.followFields named a = some named')
    (hstarted : a = .queryString → started = true) :
    Alike (followQuery started a) (t.perform (head ++ more) p a) (s.perform head p a) := by
  have hmark := hs.mark.trans hk
  have hcall : ∀ token : ℕ → ℕ → Callback, (∀ a n, (token a n).ranges = [(a, n)]) → ∀ a ≤ p,
      Alike started (t.call (head ++ more) (token a (lenFrom a p))) (s.call head (token a (lenFrom a p))) := by
    intro token hranges a ha
    refine h.call fun self => handle_append hhead (fun x hx => ?_) (fun start n heq => ?_) more self
    · rw [hranges, List.mem_singleton] at hx
      rw [hx]
      exact inside_of_le ha hp
    · have hrange := hranges a (lenFrom a p)
      rw [heq] at hrange
      cases hrange
      omega
  unfold Handling.perform
  rw [h.thrown, if_neg (by simp [hs.goes]), if_neg (by simp [hs.goes])]
  simp only [h.offset HttpParser.mark fun _ _ => rfl, h.offset HttpParser.fieldStart fun _ _ => rfl,
    h.offset HttpParser.fieldLen fun _ _ => rfl, h.offset HttpParser.xmlSent fun _ _ => rfl,
    h.offset HttpParser.jsonSent fun _ _ => rfl]
  cases a with
  | mark => exact h.update fun _ _ => rfl
  | startField => exact h.update fun _ _ => rfl
  | writeField => exact h.update fun _ _ => rfl
  | startValue => exact h.update fun _ _ => rfl
  | writeValue =>
    cases named with
    | false => cases hfollow
    | true =>
      refine h.call fun self => handle_append hhead (fun x hx => ?_) (fun _ _ heq => by cases heq) more self
      rcases List.mem_cons.mp hx with rfl | hx
      · exact ((hs.fieldEnd rfl).trans hk).trans hp.le
      · rw [List.mem_singleton.mp hx]
        exact inside_of_le hmark hp
  | requestMethod => exact hcall .requestMethod (fun _ _ => rfl) _ hmark
  | requestUri => exact hcall .requestUri (fun _ _ => rfl) _ hmark
  | fragment => exact hcall .fragment (fun _ _ => rfl) _ hmark
  | startQuery =>
    refine ⟨h.thrown, h.data, h.error, ?_, fun _ => rfl⟩
    simp only [Handling.update]
    conv_lhs => rw [h.parser]
    rfl
  | queryString =>
    have hbegun := hstarted rfl
    simp only [h.query hbegun]
    exact hcall .queryString (fun _ _ => rfl) _ ((hquery hbegun).trans hk)
  | httpVersion => exact hcall .httpVersion (fun _ _ => rfl) _ hmark
  | requestPath => exact hcall .requestPath (fun _ _ => rfl) _ hmark
  | done =>
    simp only
    split
    · exact h.update fun _ _ => rfl
    · exact (h.update (f := fun q => { q with bodyStart := p + 1 }) fun _ _ => rfl).call fun _ => rfl
  | xml => exact h.update fun _ _ => rfl
  | json => exact h.update fun _ _ => rfl

/-- The actions of a head, performed by both runs. -/
theorem Alike.foldl (hhead : EndsLine head) (more : Bytes) {l : List (ℕ × RequestAction)}
    (hsorted : l.Pairwise fun x y => x.1 ≤ y.1) (hl : ∀ x ∈ l, k ≤ x.1 ∧ x.1 < head.length)
    (h : Alike started t s) (hs : Behind k named s)
    (hquery : started = true → s.self.parser.queryStart ≤ k) {named' : Bool}
    (hfollows : Follows named started (l.map (·.2)) named') :
    Alike ((l.map (·.2)).foldl followQuery started)
      (l.foldl (fun t x => t.perform (head ++ more) x.1 x.2) t) (l.foldl (fun s x => s.perform head x.1 x.2) s) := by
  induction l generalizing k named started t s with
  | nil => exact h
  | cons x l ih =>
    obtain ⟨hfirst, hrest⟩ := List.pairwise_cons.mp hsorted
    obtain ⟨hk, hx⟩ := hl x List.mem_cons_self
    obtain ⟨named₁, hone, hmore⟩ := Follows.of_append (l := [x.2]) hfollows
    have hstep : RequestMachine.followFields named x.2 = some named₁ := by simpa using hone.fields
    have hstarted : x.2 = .queryString → started = true := by
      intro hx
      refine hone.query.resolve_right fun hprec => ?_
      exact absurd (hprec [] [] (by rw [hx]; rfl)) (by simp)
    obtain ⟨hs', -, hstart⟩ := hs.perform hk hx hstep fun hx => (hquery (hstarted hx)).trans hk
    refine ih hrest (fun y hy => ⟨hfirst y hy, (hl y (List.mem_cons_of_mem x hy)).2⟩)
      (h.perform hhead more hs hquery hk hx hstep hstarted) hs' (fun hbegun => ?_) hmore
    rw [hstart]
    by_cases hx : x.2 = .startQuery
    · rw [if_pos hx]
    · rw [if_neg hx]
      have hbefore : followQuery started x.2 = started := by
        cases hx' : x.2 with
        | startQuery => exact absurd hx' hx
        | _ => rfl
      exact (hquery (hbefore.symm.trans hbegun)).trans hk

end Append

/-! ## One read that holds a head -/

section OneRead

variable {uriRelaxed : Bool} {head : Bytes} {queryStart : ℕ}

/-- The loop over an accepted head is left at its last byte. -/
theorem Accepts.stopped (h : Accepts ((HttpRequestParser.fresh uriRelaxed queryStart).execute head) head) :
    (scan RequestAction.breaks head (some (httpParserStart uriRelaxed))).stopped = true := by
  by_contra hgoes
  rw [Bool.not_eq_true] at hgoes
  have hunfinished := unfinished_scan (RequestMachine.unfinished_httpParserStart uriRelaxed)
    (show RequestAction.breaks .done = true from rfl) hgoes
  have hfinished := h.finished
  rw [HttpRequestParser.execute_eq _ h.ne_nil] at hfinished
  change (scan RequestAction.breaks head (some (httpParserStart uriRelaxed))).cs.elim false isFinal = true
    at hfinished
  cases hcs : (scan RequestAction.breaks head (some (httpParserStart uriRelaxed))).cs with
  | none =>
    rw [hcs] at hfinished
    cases hfinished
  | some ts =>
    rw [hcs] at hfinished
    rw [hcs] at hunfinished
    exact absurd ((hunfinished ts rfl).2.symm.trans hfinished) (by decide)

/-- A call of `execute` on an accepted head and more does what it does on the head alone. -/
theorem Accepts.execute_append
    (h : Accepts ((HttpRequestParser.fresh uriRelaxed queryStart).execute head) head) (hhead : EndsLine head)
    (queryStart' : ℕ) (more : Bytes) :
    let e := (HttpRequestParser.fresh uriRelaxed queryStart').execute (head ++ more)
    e.thrown = false ∧ e.self.hasError = false ∧ e.self.isFinished = true ∧ e.nparse = head.length ∧
      e.self.data = ((HttpRequestParser.fresh uriRelaxed queryStart).execute head).self.data := by
  have hne : head ++ more ≠ [] := List.append_ne_nil_of_left_ne_nil h.ne_nil more
  have hscan := scan_append_of_stopped h.stopped more
  have hone := (HttpRequestParser.fresh uriRelaxed queryStart).execute_eq h.ne_nil
  have hboth := (HttpRequestParser.fresh uriRelaxed queryStart').execute_eq hne
  obtain ⟨named, hfollows⟩ := follows_start uriRelaxed head
  obtain ⟨hsorted, hlt⟩ := scan_sorted RequestAction.breaks head (some (httpParserStart uriRelaxed))
  have hpositions : ∀ x ∈ performed (some (httpParserStart uriRelaxed)) head, 0 ≤ x.1 ∧ x.1 < head.length :=
    fun x hx => ⟨Nat.zero_le _, Nat.lt_of_lt_of_le (hlt x hx) (scan_p_le _ head _)⟩
  have hentered : Alike false (HttpRequestParser.fresh uriRelaxed queryStart').entered.st
      (HttpRequestParser.fresh uriRelaxed queryStart).entered.st :=
    ⟨rfl, rfl, rfl, rfl, fun hfalse => by cases hfalse⟩
  have hbehind : Behind 0 true (HttpRequestParser.fresh uriRelaxed queryStart).entered.st :=
    ⟨rfl, Nat.le_refl 0, Nat.le_refl 0, fun _ => Nat.le_refl 0⟩
  have halike := hentered.foldl (l := performed (some (httpParserStart uriRelaxed)) head) hhead more hsorted
    hpositions hbehind (fun hfalse => by cases hfalse) hfollows
  have hperformed : performed (some (httpParserStart uriRelaxed)) (head ++ more) =
      performed (some (httpParserStart uriRelaxed)) head := congrArg Exec.st hscan
  have hstart : ∀ n, (HttpRequestParser.fresh uriRelaxed n).parser.cs = some (httpParserStart uriRelaxed) :=
    fun _ => rfl
  simp only [hstart, hperformed, hscan] at hone hboth
  rw [hone] at h
  intro e
  have he : e = _ := hboth
  rw [he, hone]
  refine ⟨halike.thrown.trans h.returns, ?_, h.finished, h.whole, halike.data⟩
  have hvalid := h.valid
  simp only [HttpRequestParser.hasError] at hvalid ⊢
  rw [halike.error]
  exact hvalid

/-- The loop over the head starts with what the first read delivers. -/
theorem recvHead_of_read {buffSize : BufferSize} {pieces rest : List Bytes} {read : Bytes}
    (h : readSome buffSize.size pieces = some (read, rest)) (rounds : ℕ) (p : HttpRequestParser) :
    recvHead buffSize (rounds + 1) p [] pieces = recvHead buffSize (rounds + 1) p [] (read :: rest) := by
  obtain ⟨hne, hfits⟩ := readSome_eq_some h
  rw [recvHead, recvHead, List.length_nil, Nat.sub_zero, h, readSome_cons hne hfits]

/-- The loop over the head, when one read holds an accepted head and more. -/
theorem recvHead_oneRead {buffSize : BufferSize}
    (h : Accepts ((HttpRequestParser.fresh uriRelaxed queryStart).execute head) head) (hhead : EndsLine head)
    (queryStart' rounds : ℕ) {more : Bytes} (hfits : (head ++ more).length ≤ buffSize.size) (pieces : List Bytes) :
    ∃ p, (recvHead buffSize (rounds + 1) (.fresh uriRelaxed queryStart') [] ((head ++ more) :: pieces)).2 =
        .finished p more pieces ∧
      p.data = ((HttpRequestParser.fresh uriRelaxed queryStart).execute head).self.data := by
  obtain ⟨hreturns, hvalid, hfinished, hparsed, hdata⟩ := h.execute_append hhead queryStart' more
  have hne : head ++ more ≠ [] := List.append_ne_nil_of_left_ne_nil h.ne_nil more
  have hroom : more.length ≠ buffSize.size := by
    have hpos := List.length_pos_iff.mpr h.ne_nil
    rw [List.length_append] at hfits
    omega
  refine ⟨((HttpRequestParser.fresh uriRelaxed queryStart').execute (head ++ more)).self, ?_, hdata⟩
  rw [recvHead, List.length_nil, Nat.sub_zero, readSome_cons hne hfits]
  simp only [List.nil_append, hreturns, hvalid, hfinished, hparsed, List.drop_left, hroom, if_false, if_true,
    Bool.false_eq_true]

end OneRead

/-! ## The body -/

/-- An action leaves the body alone. -/
theorem requestBody_perform (s : Handling) (buffer : Bytes) (p : ℕ) (a : RequestAction) :
    (s.perform buffer p a).self.data.body = s.self.data.body := by
  have hcall : ∀ (s : Handling) (cb : Callback), (s.call buffer cb).self.data.body = s.self.data.body := by
    intro s cb
    unfold Handling.call
    split
    · rfl
    · rename_i hhandle
      exact (HttpRequestParser.handle_frame hhandle).2
  unfold Handling.perform
  split
  · rfl
  · cases a with
    | done =>
      dsimp only
      split
      · rfl
      · rw [hcall]
        rfl
    | _ => first | rfl | exact hcall _ _

/-- A call of `execute` leaves the body alone. -/
theorem HttpRequestParser.body_execute (p : HttpRequestParser) (data : Bytes) :
    (p.execute data).self.data.body = p.data.body := by
  have hfold : ∀ (l : List (ℕ × RequestAction)) (s : Handling),
      (l.foldl (fun s x => s.perform data x.1 x.2) s).self.data.body = s.self.data.body := by
    intro l
    induction l with
    | nil => exact fun _ => rfl
    | cons x l ih => exact fun s => (ih _).trans (requestBody_perform s data x.1 x.2)
  by_cases hdata : data = []
  · rw [HttpRequestParser.execute, if_pos hdata]
  · rw [HttpRequestParser.execute_eq _ hdata]
    exact hfold _ _

/-- The head brings no body. -/
theorem body_execute (uriRelaxed : Bool) (queryStart : ℕ) (data : Bytes) :
    ((HttpRequestParser.fresh uriRelaxed queryStart).execute data).self.data.body = [] :=
  HttpRequestParser.body_execute _ data

end Bobliew.Http
