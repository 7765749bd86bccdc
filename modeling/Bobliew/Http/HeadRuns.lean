import Bobliew.Http.Dump
import Bobliew.Http.BehindHead

/-!
# What the parser stores of a serialised head

The runs of the request machine, with what their actions store. A part of a head leads from one machine state
and one request to others, wherever it stands and whatever follows it, and parts one after the other compose.
-/

namespace Bobliew.Http

open Ragel RequestMachine RequestAction

/-! ## Parts of a head -/

/-- Nothing has been thrown, no error is set, and this is the request so far. -/
structure Holding (r : HttpRequest) (s : Handling) : Prop where
  thrown : s.thrown = false
  data : s.self.data = r
  error : s.self.error = 0
  xml : s.self.parser.xmlSent = false
  json : s.self.parser.jsonSent = false

/-- Performing actions one after the other. -/
def performFrom (buffer : Bytes) (k : ℕ) (evs : List (ℕ × RequestAction)) (s : Handling) : Handling :=
  (shifted k evs).foldl (fun s x => s.perform buffer x.1 x.2) s

@[simp] theorem performFrom_nil (buffer : Bytes) (k : ℕ) (s : Handling) : performFrom buffer k [] s = s := rfl

@[simp] theorem performFrom_cons (buffer : Bytes) (k i : ℕ) (a : RequestAction) (evs : List (ℕ × RequestAction))
    (s : Handling) :
    performFrom buffer k ((i, a) :: evs) s = performFrom buffer k evs (s.perform buffer (i + k) a) := rfl

/-- A part of a head behind `before` leads from one state and request to others, whatever follows. -/
def Stores (before : Bytes) (ts : List (Thread RequestAction)) (r : HttpRequest) (part : Bytes)
    (ts' : List (Thread RequestAction)) (r' : HttpRequest) : Prop :=
  ∃ evs, Reads ts part ts' evs ∧
    ∀ rest s, Holding r s → Holding r' (performFrom (before ++ part ++ rest) before.length evs s)

section Parts

variable {before part part' text rest : Bytes} {ts ts' ts'' : List (Thread RequestAction)}
  {r r' r'' : HttpRequest} {s : Handling} {uriRelaxed : Bool}

/-- Two parts one after the other. -/
theorem Stores.append (h : Stores before ts r part ts' r') (h' : Stores (before ++ part) ts' r' part' ts'' r'') :
    Stores before ts r (part ++ part') ts'' r'' := by
  obtain ⟨evs, hread, hstore⟩ := h
  obtain ⟨evs', hread', hstore'⟩ := h'
  refine ⟨evs ++ shifted part.length evs', hread.append hread', fun rest s hs => ?_⟩
  have hfirst := hstore (part' ++ rest) s hs
  have hsecond := hstore' rest _ hfirst
  have hbuffer : before ++ part ++ part' ++ rest = before ++ part ++ (part' ++ rest) := List.append_assoc _ _ _
  have hbuffer' : before ++ (part ++ part') ++ rest = before ++ part ++ (part' ++ rest) := by
    simp only [List.append_assoc]
  rw [hbuffer] at hsecond
  rw [hbuffer']
  unfold performFrom at hsecond ⊢
  have hshift : shifted before.length (evs ++ shifted part.length evs') =
      shifted before.length evs ++ shifted (before ++ part).length evs' := by
    simp [shifted, List.length_append, Nat.add_assoc, Nat.add_comm part.length]
  rw [hshift, List.foldl_append]
  exact hsecond

/-- Nothing to read. -/
theorem Stores.nil (before : Bytes) (ts : List (Thread RequestAction)) (r : HttpRequest) :
    Stores before ts r [] ts r :=
  ⟨[], .nil ts, fun _ _ hs => hs⟩

/-- The length of a token from its start. -/
theorem lenFrom_add (start n : ℕ) : lenFrom start (n + start) = n := by
  rw [lenFrom, if_pos (Nat.le_add_left _ _), Nat.add_sub_cancel]

/-- A string in the middle of a buffer. -/
theorem stringAt_middle (before text rest : Bytes) :
    stringAt (before ++ (text ++ rest)) before.length text.length = some text := by
  rw [stringAt_of_le (by simp only [List.length_append]; omega), List.drop_left, List.take_left]

/-- The method found in front of a blank. -/
theorem charsToHttpMethod_text (m : HttpMethod) (rest : Bytes) :
    charsToHttpMethod (httpMethodToString m ++ 32 :: rest) = some m := by
  cases m <;> rfl

/-- A method is in the table under its text. -/
theorem mem_httpMethodMap (m : HttpMethod) : (m, httpMethodToString m) ∈ httpMethodMap := by
  cases m <;> decide

/-- A method. -/
theorem stores_method (uriRelaxed : Bool) (before : Bytes) (r : HttpRequest) {m : HttpMethod}
    (hm : m ≠ .msearch) :
    Stores before (httpParserStart uriRelaxed) r (httpMethodToString m ++ [32]) (atUri uriRelaxed)
      { r with method := m } := by
  refine ⟨_, reads_method uriRelaxed (mem_httpMethodMap m) hm, fun rest s hs => ?_⟩
  have hmemory : (before ++ (httpMethodToString m ++ [32]) ++ rest).drop before.length =
      httpMethodToString m ++ 32 :: rest := by
    rw [List.append_assoc, List.drop_left, List.append_assoc]
    rfl
  obtain ⟨⟨parser, data, error⟩, calls, thrown⟩ := s
  obtain ⟨rfl, rfl, rfl, hxml, hjson⟩ := hs
  simp only [performFrom_cons, performFrom_nil, Handling.perform, Handling.update, Handling.call,
    HttpRequestParser.handle, HttpRequestParser.onRequestMethod, Bool.false_eq_true, if_false, Nat.zero_add,
    hmemory, charsToHttpMethod_text]
  exact ⟨rfl, rfl, rfl, hxml, hjson⟩

/-- A token that is marked at its beginning, and the byte behind it on which the token is stored. -/
theorem stores_token (acts : List RequestAction) {start : RequestAction} {c : UInt8}
    (hread : Reads ts text ts'' [(0, start)]) (hend : Reads ts'' [c] ts' (acts.map fun a => (0, a)))
    (hperform : ∀ buffer k s, Holding r s → stringAt buffer k text.length = some text →
      Holding r' (performFrom buffer k ((0, start) :: acts.map fun a => (text.length, a)) s)) :
    Stores before ts r (text ++ [c]) ts' r' := by
  have hevs : [(0, start)] ++ shifted text.length (acts.map fun a => (0, a)) =
      (0, start) :: acts.map fun a => (text.length, a) := by
    simp [shifted, Function.comp_def]
  refine ⟨(0, start) :: acts.map fun a => (text.length, a), hevs ▸ hread.append hend, fun rest s hs => ?_⟩
  apply hperform _ _ _ hs
  rw [List.append_assoc, List.append_assoc]
  exact stringAt_middle before text _

/-- A path and the byte behind it. -/
theorem stores_path (before : Bytes) (r : HttpRequest)
    (htext : text ∈ (RequestGrammar.pathAbsolute uriRelaxed).lang) {c : UInt8} {acts : List RequestAction}
    (hacts : acts = [requestPath] ∨ acts = [requestPath, requestUri])
    (hend : ∀ ts ∈ [atPath uriRelaxed, inPath uriRelaxed], Reads ts [c] ts' (acts.map fun a => (0, a))) :
    Stores before (atUri uriRelaxed) r (text ++ [c]) ts' { r with path := text } := by
  obtain ⟨ts, hts, hread⟩ := reads_path htext
  refine stores_token acts hread (hend ts hts) fun buffer k s hs hstring => ?_
  obtain ⟨⟨parser, data, error⟩, calls, thrown⟩ := s
  obtain ⟨rfl, rfl, rfl, hxml, hjson⟩ := hs
  rcases hacts with rfl | rfl <;>
  · simp only [List.map_cons, List.map_nil, performFrom_cons, performFrom_nil, Handling.perform,
      Handling.update, Handling.call, HttpRequestParser.handle, Bool.false_eq_true, if_false, Nat.zero_add,
      lenFrom_add, hstring, Option.map_some]
    exact ⟨rfl, rfl, rfl, hxml, hjson⟩

/-- A query and the byte behind it. -/
theorem stores_query (before : Bytes) (r : HttpRequest) (htext : text ∈ (RequestGrammar.query uriRelaxed).lang)
    (hne : text ≠ []) {c : UInt8}
    (hend : Reads (inQuery uriRelaxed) [c] ts' [(0, queryString), (0, requestUri)]) :
    Stores before (atQuery uriRelaxed) r (text ++ [c]) ts' { r with query := text } := by
  refine stores_token [queryString, requestUri] (reads_query htext hne) hend
    fun buffer k s hs hstring => ?_
  obtain ⟨⟨parser, data, error⟩, calls, thrown⟩ := s
  obtain ⟨rfl, rfl, rfl, hxml, hjson⟩ := hs
  simp only [List.map_cons, List.map_nil, performFrom_cons, performFrom_nil, Handling.perform, Handling.update,
    Handling.call, HttpRequestParser.handle, Bool.false_eq_true, if_false, Nat.zero_add, lenFrom_add, hstring,
    Option.map_some]
  exact ⟨rfl, rfl, rfl, hxml, hjson⟩

/-- A fragment and the blank behind it. -/
theorem stores_fragment (before : Bytes) (r : HttpRequest)
    (htext : text ∈ (RequestGrammar.fragmentPart uriRelaxed).lang) (hne : text ≠ []) :
    Stores before (atFragment uriRelaxed) r (text ++ [32]) atVersion { r with fragment := text } := by
  refine stores_token [RequestAction.fragment] (reads_fragment htext hne)
    (uri_transitions uriRelaxed).2.2.2.2.2.2.2.2 fun buffer k s hs hstring => ?_
  obtain ⟨⟨parser, data, error⟩, calls, thrown⟩ := s
  obtain ⟨rfl, rfl, rfl, hxml, hjson⟩ := hs
  simp only [List.map_cons, List.map_nil, performFrom_cons, performFrom_nil, Handling.perform, Handling.update,
    Handling.call, HttpRequestParser.handle, Bool.false_eq_true, if_false, Nat.zero_add, lenFrom_add, hstring,
    Option.map_some]
  exact ⟨rfl, rfl, rfl, hxml, hjson⟩

/-- What follows the path of a request line: the query, the fragment and a blank. -/
theorem stores_reference (before : Bytes) (r : HttpRequest) {path query fragment : Bytes}
    (hpath : path ∈ (RequestGrammar.pathAbsolute uriRelaxed).lang)
    (hquery : query ∈ (RequestGrammar.query uriRelaxed).lang)
    (hfragment : fragment ∈ (RequestGrammar.fragmentPart uriRelaxed).lang)
    (hnoQuery : r.query = []) (hnoFragment : r.fragment = []) :
    Stores before (atUri uriRelaxed) r
      (path ++ (if query = [] then [] else [63]) ++ query ++ (if fragment = [] then [] else [35]) ++ fragment ++
        [32])
      atVersion { r with path := path, query := query, fragment := fragment } := by
  obtain ⟨m, v, close, p, q, f, body, headers⟩ := r
  obtain rfl : q = [] := hnoQuery
  obtain rfl : f = [] := hnoFragment
  obtain ⟨-, -, -, -, -, hend⟩ := (uri_transitions uriRelaxed).2.2.1
  obtain ⟨-, -, -, -, hnumber, hblank⟩ := (uri_transitions uriRelaxed).2.2.2.1
  by_cases hq : query = []
  · by_cases hf : fragment = []
    · have hone := stores_path before ⟨m, v, close, p, [], [], body, headers⟩ hpath (.inr rfl)
        fun ts hts => (hend ts hts).2.2
      simpa [hq, hf] using hone
    · have hone := stores_path before ⟨m, v, close, p, [], [], body, headers⟩ hpath (.inr rfl)
        fun ts hts => (hend ts hts).2.1
      have htwo := hone.append (stores_fragment _ ⟨m, v, close, path, [], [], body, headers⟩ hfragment hf)
      simpa [hq, hf] using htwo
  · have hone := stores_path before ⟨m, v, close, p, [], [], body, headers⟩ hpath (.inl rfl)
      fun ts hts => (hend ts hts).1
    by_cases hf : fragment = []
    · have htwo := hone.append (stores_query _ ⟨m, v, close, path, [], [], body, headers⟩ hquery hq hblank)
      simpa [hq, hf] using htwo
    · have htwo := hone.append (stores_query _ ⟨m, v, close, path, [], [], body, headers⟩ hquery hq hnumber)
      have hthree := htwo.append (stores_fragment _ ⟨m, v, close, path, query, [], body, headers⟩ hfragment hf)
      simpa [hq, hf] using hthree

/-- A version and the line end. -/
theorem stores_version (before : Bytes) (r : HttpRequest) {version : ℕ}
    (hversion : version = 0x10 ∨ version = 0x11) :
    Stores before atVersion r
      (asciiText ['H', 'T', 'T', 'P', '/'] ++ decimal (version >>> 4) ++ asciiText ['.'] ++
        decimal (version &&& 0x0F) ++ lineEnd) atHeader { r with version := version } := by
  obtain ⟨minor, hminor, htext, hfound⟩ : ∃ minor ∈ [(48 : UInt8), 49],
      asciiText ['H', 'T', 'T', 'P', '/'] ++ decimal (version >>> 4) ++ asciiText ['.'] ++
        decimal (version &&& 0x0F) ++ lineEnd =
          asciiText ['H', 'T', 'T', 'P', '/', '1', '.'] ++ [minor] ++ [13, 10] ∧
      ∀ rest, requestVersion (asciiText ['H', 'T', 'T', 'P', '/', '1', '.'] ++ [minor] ++ rest) 8 = some version := by
    rcases hversion with rfl | rfl
    · exact ⟨48, by decide, by decide, fun _ => rfl⟩
    · exact ⟨49, by decide, by decide, fun _ => rfl⟩
  rw [htext]
  refine ⟨_, header_transitions.1 minor hminor, fun rest s hs => ?_⟩
  have hmemory : (before ++ (asciiText ['H', 'T', 'T', 'P', '/', '1', '.'] ++ [minor] ++ [13, 10]) ++ rest).drop
      before.length = asciiText ['H', 'T', 'T', 'P', '/', '1', '.'] ++ [minor] ++ ([13, 10] ++ rest) := by
    rw [List.append_assoc, List.drop_left, List.append_assoc]
  obtain ⟨⟨parser, data, error⟩, calls, thrown⟩ := s
  obtain ⟨rfl, rfl, rfl, hxml, hjson⟩ := hs
  simp only [performFrom_cons, performFrom_nil, Handling.perform, Handling.update, Handling.call,
    HttpRequestParser.handle, HttpRequestParser.onRequestVersion, Bool.false_eq_true, if_false, Nat.zero_add,
    lenFrom_add, hmemory, hfound]
  exact ⟨rfl, rfl, rfl, hxml, hjson⟩

/-- A header, from what the machine performs on it: the name at its beginning, and the value behind a gap. A
start of the value that is performed too early is performed again. -/
theorem stores_field (before : Bytes) (r : HttpRequest) {name gap value : Bytes}
    (early : List (ℕ × RequestAction)) (hne : name ≠ []) (hearly : early = [] ∨ ∃ p, early = [(p, startValue)])
    (hread : Reads atHeader (name ++ gap ++ value ++ lineEnd) atHeader
      ([(0, startField), (name.length, writeField)] ++ early ++
        [((name ++ gap).length, startValue), (value.length + (name ++ gap).length, writeValue)])) :
    Stores before atHeader r (name ++ gap ++ value ++ lineEnd) atHeader
      { r with headers := r.headers.set name value } := by
  refine ⟨_, hread, fun rest s hs => ?_⟩
  have hname : stringAt (before ++ (name ++ gap ++ value ++ lineEnd) ++ rest) before.length name.length =
      some name := by
    simp only [List.append_assoc]
    exact stringAt_middle before name _
  have hvalue : stringAt (before ++ (name ++ gap ++ value ++ lineEnd) ++ rest)
      ((name ++ gap).length + before.length) value.length = some value := by
    have hmiddle := stringAt_middle (before ++ (name ++ gap)) value (lineEnd ++ rest)
    rw [List.length_append, Nat.add_comm] at hmiddle
    simpa only [List.append_assoc] using hmiddle
  have hflen : name.length ≠ 0 := fun h => hne (List.length_eq_zero_iff.mp h)
  obtain ⟨⟨parser, data, error⟩, calls, thrown⟩ := s
  obtain ⟨rfl, rfl, rfl, hxml, hjson⟩ := hs
  rcases hearly with rfl | ⟨p, rfl⟩ <;>
  · simp only [List.cons_append, List.nil_append, performFrom_cons, performFrom_nil, Handling.perform,
      Handling.update, Handling.call, HttpRequestParser.handle, HttpRequestParser.onRequestHttpField,
      Bool.false_eq_true, if_false, Nat.zero_add, Nat.add_assoc, lenFrom_add, hname, hvalue, hflen,
      HttpRequest.setHeader]
    exact ⟨rfl, rfl, rfl, hxml, hjson⟩

/-- A header of a map, as it is serialised. -/
def fieldText (x : Bytes × Bytes) : Bytes := x.1 ++ [58] ++ x.2 ++ lineEnd

/-- A header that the machine reads up to its line end. -/
structure ReadableField (x : Bytes × Bytes) : Prop where
  name_ne : x.1 ≠ []
  name : ∀ c ∈ x.1, RequestGrammar.token.has c = true
  goes : ¬EndsHead x.1
  value : ∀ c ∈ x.2, isPrintable c
  first : x.2.head? ≠ some 32

/-- A header. -/
theorem stores_header (before : Bytes) (r : HttpRequest) {x : Bytes × Bytes} (hx : ReadableField x) :
    Stores before atHeader r (fieldText x) atHeader { r with headers := r.headers.set x.1 x.2 } := by
  have hread := reads_header hx.name_ne hx.name hx.goes hx.value hx.first
  refine stores_field before r [] hx.name_ne (.inl rfl) ?_
  simpa [lineEnd, Nat.add_comm, Nat.add_left_comm] using hread

/-- Headers one after the other. -/
theorem stores_headers (before : Bytes) (r : HttpRequest) {m : List (Bytes × Bytes)}
    (hm : ∀ x ∈ m, ReadableField x) :
    Stores before atHeader r (m.flatMap fieldText) atHeader
      { r with headers := m.foldl (fun m x => HeaderMap.set x.1 x.2 m) r.headers } := by
  induction m generalizing before r with
  | nil => exact .nil before atHeader r
  | cons x m ih =>
    have hone := stores_header before r (hm x List.mem_cons_self)
    exact hone.append (ih _ _ fun y hy => hm y (List.mem_cons_of_mem x hy))

/-- A header whose value has a blank in front of it. -/
theorem stores_headerBehindBlank (before : Bytes) (r : HttpRequest) {x : Bytes × Bytes} (hx : ReadableField x)
    (hne : x.2 ≠ []) :
    Stores before atHeader r (x.1 ++ [58, 32] ++ x.2 ++ lineEnd) atHeader
      { r with headers := r.headers.set x.1 x.2 } := by
  have hread := (reads_name hx.name_ne hx.name hx.goes).append (reads_valueBehindBlank hx.value hne hx.first)
  refine stores_field before r [(x.1.length + 1, startValue)] hx.name_ne (.inr ⟨_, rfl⟩) ?_
  simpa [shifted, lineEnd, Nat.add_comm, Nat.add_left_comm] using hread

/-- The call of `execute` on a head that ends with the empty line, or with a line feed in its place. -/
theorem Stores.execute (h : Stores [] (httpParserStart uriRelaxed) .fresh part atHeader r) {line : Bytes}
    (hline : line ∈ [([13, 10] : Bytes), [10]]) (queryStart : ℕ) :
    Accepts ((HttpRequestParser.fresh uriRelaxed queryStart).execute (part ++ line)) (part ++ line) ∧
      ((HttpRequestParser.fresh uriRelaxed queryStart).execute (part ++ line)).self.data = r := by
  obtain ⟨evs, hread, hstore⟩ := h
  obtain ⟨hevents, hlength, hstopped, hfinal⟩ := header_transitions.2.2.2 line hline
  have hne : part ++ line ≠ [] := by
    intro hnil
    have hempty := (List.append_eq_nil_iff.mp hnil).2
    rcases List.mem_pair.mp hline with rfl | rfl <;> cases hempty
  have hgoes : (scan RequestAction.breaks part (some (httpParserStart uriRelaxed))).stopped = false := by rw [hread]
  have hscan := scan_append hgoes line
  have hreadCs : (scan RequestAction.breaks part (some (httpParserStart uriRelaxed))).cs = some atHeader := by
    rw [hread]
  have hreadSt : (scan RequestAction.breaks part (some (httpParserStart uriRelaxed))).st = evs := by rw [hread]
  rw [hreadCs, hreadSt, hevents, hlength, hstopped] at hscan
  have hentered : Holding .fresh (HttpRequestParser.fresh uriRelaxed queryStart).entered.st :=
    ⟨rfl, rfl, rfl, rfl, rfl⟩
  have hheld := hstore line _ hentered
  have hstart : (HttpRequestParser.fresh uriRelaxed queryStart).parser.cs = some (httpParserStart uriRelaxed) := rfl
  have hexecute := (HttpRequestParser.fresh uriRelaxed queryStart).execute_eq hne
  simp only [hstart, performed, hscan, List.foldl_append] at hexecute
  have hshifted : shifted ([] : Bytes).length evs = evs := by
    simp [shifted]
  rw [performFrom, hshifted, List.nil_append] at hheld
  generalize hs : evs.foldl (fun s x => s.perform (part ++ line) x.1 x.2)
    (HttpRequestParser.fresh uriRelaxed queryStart).entered.st = s at hexecute hheld
  obtain ⟨⟨parser, data, error⟩, calls, thrown⟩ := s
  obtain ⟨rfl, rfl, rfl, hxml, hjson⟩ := hheld
  dsimp only at hxml hjson
  simp only [List.map_cons, List.map_nil, List.foldl_cons, List.foldl_nil, Handling.perform, Handling.update,
    Handling.call, HttpRequestParser.handle, Bool.false_eq_true, if_false, hxml, hjson, Bool.or_self] at hexecute
  rw [hexecute]
  refine ⟨⟨rfl, ?_, hfinal, ?_⟩, rfl⟩
  · simp only [HttpRequestParser.hasError]
    cases hcs : (scan RequestAction.breaks line (some atHeader)).cs with
    | none =>
      rw [hcs] at hfinal
      cases hfinal
    | some ts => rfl
  · simp [Nat.add_comm]

end Parts

end Bobliew.Http
