import Bobliew.Http.AnnouncedBody

/-!
# The reads of a head one by one

A stream arrives in reads, and the parser is given one read after the other. Its verdict on them is compared with
the tokens of the whole stream: with what each read holds of a method, of a version and of a query when the token
ends in it, and with the position at which the grammar cannot go on.

A method or version that is not found sets an error, which is looked at when the read has been parsed; a query that
is not found throws at once. So the first read in which either happens decides, and in one read the query does.
-/

namespace Bobliew.Http

open Ragel

/-! ## Where tokens end -/

/-- The method, the version or the query that a callback is given ends at a position. -/
def Callback.EndsAt (p : ℕ) : Callback → Prop
  | .requestMethod start length => start + length = p
  | .httpVersion start length => start + length = p
  | .queryString start length => start + length = p
  | _ => True

section Ends

variable {data : Bytes} {s : Handling} {k p : ℕ} {named started : Bool}

/-- An action makes its callback for a token that ends where the action is performed. -/
theorem endsAt_perform (hs : Behind k named s) (hk : k ≤ p) {a : RequestAction}
    (hquery : a = .queryString → s.self.parser.queryStart ≤ p) {cb : Callback}
    (hcb : cb ∈ (s.perform data p a).calls) : cb ∈ s.calls ∨ cb.EndsAt p := by
  have hmark := add_lenFrom (hs.mark.trans hk)
  have hcall : ∀ {t : Handling} {cb' : Callback}, t.calls = s.calls → cb ∈ (t.call data cb').calls →
      cb'.EndsAt p → cb ∈ s.calls ∨ cb.EndsAt p := by
    intro t cb' ht hmem hends
    rw [calls_call, ht] at hmem
    rcases List.mem_append.mp hmem with hmem | hmem
    · exact .inl hmem
    · rw [List.mem_singleton.mp hmem]
      exact .inr hends
  unfold Handling.perform at hcb
  rw [if_neg (by simp [hs.goes])] at hcb
  cases a with
  | mark => exact .inl hcb
  | startField => exact .inl hcb
  | writeField => exact .inl hcb
  | startValue => exact .inl hcb
  | startQuery => exact .inl hcb
  | xml => exact .inl hcb
  | json => exact .inl hcb
  | writeValue => exact hcall rfl hcb trivial
  | requestUri => exact hcall rfl hcb trivial
  | fragment => exact hcall rfl hcb trivial
  | requestPath => exact hcall rfl hcb trivial
  | requestMethod => exact hcall rfl hcb hmark
  | httpVersion => exact hcall rfl hcb hmark
  | queryString => exact hcall rfl hcb (add_lenFrom (hquery rfl))
  | done =>
    simp only at hcb
    split at hcb
    · exact .inl hcb
    · exact hcall (t := s.update fun q => { q with bodyStart := p + 1 }) rfl hcb trivial

/-- The tokens of the callbacks that are made on the way end behind the start. -/
theorem endsAt_foldl (hs : Behind k named s) (hstarted : started = true → s.self.parser.queryStart ≤ k) {o : ℕ}
    {l : List (ℕ × RequestAction)} (hsorted : l.Pairwise fun x y => x.1 ≤ y.1)
    (hl : ∀ x ∈ l, k ≤ x.1 + o ∧ x.1 + o < data.length) {named' : Bool}
    (hfollows : Follows named started (l.map (·.2)) named') {cb : Callback}
    (hcb : cb ∈ (l.foldl (fun t x => t.perform data (x.1 + o) x.2) s).calls) :
    cb ∈ s.calls ∨ ∃ x ∈ l, cb.EndsAt (x.1 + o) := by
  induction l generalizing k named started s with
  | nil => exact .inl hcb
  | cons x l ih =>
    obtain ⟨hfirst, hrest⟩ := List.pairwise_cons.mp hsorted
    obtain ⟨hkx, hx⟩ := hl x List.mem_cons_self
    obtain ⟨named₁, hone, hmore⟩ := Follows.of_append (l := [x.2]) hfollows
    have hstep : RequestMachine.followFields named x.2 = some named₁ := by simpa using hone.fields
    have hquery : x.2 = .queryString → s.self.parser.queryStart ≤ x.1 + o := by
      intro hx
      refine (hstarted (hone.query.resolve_right fun hprec => ?_)).trans hkx
      exact absurd (hprec [] [] (by rw [hx]; rfl)) (by simp)
    obtain ⟨hbehind, -, hstart⟩ := hs.perform hkx hx hstep hquery
    have hstarted' : [x.2].foldl followQuery started = true →
        (s.perform data (x.1 + o) x.2).self.parser.queryStart ≤ x.1 + o := by
      intro hbegun
      rw [hstart]
      split
      · exact Nat.le_refl _
      · rename_i hne
        rw [foldl_followQuery, List.mem_singleton] at hbegun
        exact (hstarted (hbegun.resolve_right fun heq => hne heq.symm)).trans hkx
    rw [List.foldl_cons] at hcb
    rcases ih hbehind hstarted' hrest
      (fun y hy => ⟨Nat.add_le_add_right (hfirst y hy) o, (hl y (List.mem_cons_of_mem x hy)).2⟩) hmore hcb with
      hmem | ⟨y, hy, hends⟩
    · rcases endsAt_perform hs hkx hquery hmem with hmem | hends
      · exact .inl hmem
      · exact .inr ⟨x, List.mem_cons_self, hends⟩
    · exact .inr ⟨y, List.mem_cons_of_mem x hy, hends⟩

end Ends

/-! ## The parser over the reads -/

/-- What the parser makes of reads that are given to it one by one: they end before it is done, a callback
throws, it reports an error with a read, or it finishes the head. In the third case the bytes of the reads are
counted, in the last one the bytes of the head and those that its last read holds behind it. -/
inductive HeadVerdict where
  | unfinished
  | thrown
  | error (given : ℕ)
  | finished (parsed left : ℕ) (p : HttpRequestParser)

/-- The verdict on reads of which the first bytes have already been given. -/
def HeadVerdict.behind (n : ℕ) : HeadVerdict → HeadVerdict
  | .unfinished => .unfinished
  | .thrown => .thrown
  | .error given => .error (n + given)
  | .finished parsed left p => .finished (n + parsed) left p

/-- The calls of `execute` on the reads of a stream. -/
def HttpRequestParser.executeReads : HttpRequestParser → List Bytes → HeadVerdict
  | _, [] => .unfinished
  | p, read :: reads =>
    let e := p.execute read
    if e.thrown then .thrown
    else if e.self.hasError then .error read.length
    else if e.self.isFinished then .finished e.nparse (read.drop e.nparse).length e.self
    else (e.self.executeReads reads).behind read.length

/-- The bytes of a stream that the grammar takes for the head: up to the final line end, or to a byte that
cannot follow, or to the end of the stream. -/
def headSize (uriRelaxed : Bool) (stream : Bytes) : ℕ :=
  (scan RequestAction.breaks stream (some (httpParserStart uriRelaxed))).p

/-- The grammar finishes a head in a stream. -/
def headFinished (uriRelaxed : Bool) (stream : Bytes) : Bool :=
  (scan RequestAction.breaks stream (some (httpParserStart uriRelaxed))).cs.elim false isFinal

/-- The position at which the grammar cannot go on, behind `s` bytes that it has taken. -/
def stuckAt (s : ℕ) (e : Exec RequestAction (List (ℕ × RequestAction))) : Option ℕ :=
  if e.cs.isNone then some (s + e.p) else none

/-- A parser inside a head. -/
def HttpRequestParser.InHead (p : HttpRequestParser) : Prop :=
  ∃ ts, p.parser.cs = some ts ∧ (∀ t ∈ ts, FinishingOnly RequestAction.done t) ∧ isFinal ts = false

/-- A new parser is inside a head. -/
theorem inHead_fresh (uriRelaxed : Bool) (queryStart : ℕ) :
    (HttpRequestParser.fresh uriRelaxed queryStart).InHead := by
  refine ⟨httpParserStart uriRelaxed, rfl, fun t ht => ?_,
    (RequestMachine.unfinished_httpParserStart uriRelaxed _ rfl).2⟩
  rw [List.mem_singleton.mp ht]
  exact ⟨_, _, rfl, by cases uriRelaxed <;> decide +kernel⟩

section Execute

variable {p : HttpRequestParser} {data : Bytes}

/-- What a call of `execute` consumes and where it leaves the machine. -/
theorem execute_scan (hdata : data ≠ []) :
    (p.execute data).nparse = (scan RequestAction.breaks data p.parser.cs).p ∧
      (p.execute data).self.parser.cs = (scan RequestAction.breaks data p.parser.cs).cs := by
  rw [p.execute_eq hdata]
  exact ⟨rfl, rfl⟩

/-- A parser that finishes has left its loop, and one that reports no error and has not finished is still
inside the head and has consumed what it was given. -/
theorem HttpRequestParser.InHead.execute (hp : p.InHead) (hdata : data ≠ [])
    (hvalid : (p.execute data).self.hasError = false) :
    ((p.execute data).self.isFinished = true →
        (scan RequestAction.breaks data p.parser.cs).stopped = true ∧ 0 < (p.execute data).nparse) ∧
      ((p.execute data).self.isFinished = false →
        (scan RequestAction.breaks data p.parser.cs).stopped = false ∧ (p.execute data).self.InHead) := by
  obtain ⟨ts, hcs, honly, hunfinal⟩ := hp
  obtain ⟨hparse, hend⟩ := execute_scan (p := p) hdata
  have hbreaks : ∀ a, RequestAction.breaks a = true → a = .done := by
    intro a ha
    cases a <;> first | rfl | cases ha
  have hunfinished : Unfinished RequestAction.done p.parser.cs := by
    rw [hcs]
    rintro _ ⟨⟩
    exact ⟨fun t ht => (honly t ht).imp fun n => Exists.imp fun r => And.left, hunfinal⟩
  rw [HttpRequestParser.hasError, Bool.or_eq_false_iff] at hvalid
  obtain ⟨ts', hts'⟩ : ∃ ts', (p.execute data).self.parser.cs = some ts' := by
    refine Option.ne_none_iff_exists'.mp fun hnone => ?_
    rw [hnone] at hvalid
    exact absurd hvalid.2 (by decide)
  have hscan := hend.symm.trans hts'
  have hfinished : (p.execute data).self.isFinished = isFinal ts' := by
    rw [HttpRequestParser.isFinished, hts']
    rfl
  rw [hfinished]
  refine ⟨fun hfinal => ?_, fun hfinal => ?_⟩
  · have hstopped : (scan RequestAction.breaks data p.parser.cs).stopped = true := by
      by_contra hgoes
      rw [Bool.not_eq_true] at hgoes
      have hnot := unfinished_scan hunfinished (show RequestAction.breaks .done = true from rfl) hgoes ts' hscan
      rw [hnot.2] at hfinal
      cases hfinal
    refine ⟨hstopped, ?_⟩
    rw [hparse]
    refine scan_p_pos hstopped ?_
    rw [hscan]
    exact Option.some_ne_none ts'
  · rw [hcs] at hscan
    obtain ⟨honly', hstopped⟩ := scan_finishingOnly honly hbreaks hscan
    refine ⟨?_, ts', hts', honly', hfinal⟩
    by_contra hleft
    rw [Bool.not_eq_false, hcs] at hleft
    rw [hstopped hleft] at hfinal
    cases hfinal

end Execute

/-! ## What the tokens say -/

section Tokens

variable (r : Bytes) (reads : List Bytes) (calls : List Callback) (stuck : Option ℕ)

/-- A method or a version ends at a position, and in what its read holds of it none is found; or the grammar is
stuck there. -/
def RefusedAt (p : ℕ) : Prop :=
  (∃ x ∈ calls.filterMap Callback.method?, x.2 = p ∧ foundMethod r reads x = none) ∨
    (∃ x ∈ calls.filterMap Callback.version?, x.2 = p ∧ foundVersion r reads x = none) ∨ stuck = some p

/-- A query ends at a position, and the offset at which it began lies behind that. -/
def ThrowsAt (p : ℕ) : Prop := ∃ x ∈ calls.filterMap Callback.query?, x.2 = p ∧ foundQuery r reads x = none

/-- Every method, version and query is found in what its read holds of it. -/
structure AllFound : Prop where
  method : ∀ x ∈ calls.filterMap Callback.method?, (foundMethod r reads x).isSome
  version : ∀ x ∈ calls.filterMap Callback.version?, (foundVersion r reads x).isSome
  query : ∀ x ∈ calls.filterMap Callback.query?, (foundQuery r reads x).isSome

/-- The verdict on reads behind `s` bytes, by the tokens of the stream. The first read that refuses the head or
throws decides, and in one read throwing does. -/
def HeadVerdict.FromTokens (finished : Bool) (s : ℕ) : HeadVerdict → Prop
  | .unfinished => (∀ p, ¬RefusedAt r reads calls stuck p) ∧ (∀ p, ¬ThrowsAt r reads calls p) ∧ finished = false
  | .thrown => ∃ t, ThrowsAt r reads calls t ∧
      ∀ p, RefusedAt r reads calls stuck p → readStart reads t ≤ readStart reads p
  | .error given => (∃ p, RefusedAt r reads calls stuck p ∧ readEnd reads p = s + given ∧
      ∀ t, ThrowsAt r reads calls t → readStart reads p < readStart reads t) ∧
        ∀ p, RefusedAt r reads calls stuck p → s + given ≤ readEnd reads p
  | .finished parsed left p => (∀ p, ¬RefusedAt r reads calls stuck p) ∧ (∀ p, ¬ThrowsAt r reads calls p) ∧
      finished = true ∧ 0 < parsed ∧ readEnd reads (s + parsed - 1) = s + parsed + left ∧
        p.data.headers = storedHeaders ((calls.filterMap Callback.field?).map (foundField r reads)) []

end Tokens

section Found

variable {r : Bytes} {reads : List Bytes} {calls calls' : List Callback} {stuck : Option ℕ} {p s : ℕ}
  {finished : Bool}

/-- The verdict behind a read that the parser has consumed. -/
theorem HeadVerdict.FromTokens.behind {v : HeadVerdict} {k : ℕ}
    (h : v.FromTokens r reads calls stuck finished (s + k)) :
    (v.behind k).FromTokens r reads calls stuck finished s := by
  cases v with
  | unfinished => exact h
  | thrown => exact h
  | error given =>
    change (∃ p, _) ∧ _ at h
    change (∃ p, _) ∧ _
    simp only [Nat.add_assoc] at h ⊢
    exact h
  | finished parsed left p =>
    obtain ⟨hrefused, hthrows, hfinished, hpos, hend, hheaders⟩ := h
    refine ⟨hrefused, hthrows, hfinished, by omega, ?_, hheaders⟩
    rw [show s + (k + parsed) - 1 = s + k + parsed - 1 by omega, hend]
    omega

/-- No token is refused or throws where all are found. -/
theorem AllFound.not_at (h : AllFound r reads calls) :
    (∀ p, ¬RefusedAt r reads calls none p) ∧ ∀ p, ¬ThrowsAt r reads calls p := by
  constructor
  · rintro p (⟨x, hx, -, hnone⟩ | ⟨x, hx, -, hnone⟩ | hstuck)
    · have hfound := h.method x hx
      rw [hnone] at hfound
      cases hfound
    · have hfound := h.version x hx
      rw [hnone] at hfound
      cases hfound
    · cases hstuck
  · rintro p ⟨x, hx, -, hnone⟩
    have hfound := h.query x hx
    rw [hnone] at hfound
    cases hfound

/-- Where a token of a callback ends. -/
theorem Callback.EndsAt.eq {cb : Callback} (h : cb.EndsAt p) {x : ℕ × ℕ}
    (hx : cb.method? = some x ∨ cb.version? = some x ∨ cb.query? = some x) : x.2 = p := by
  cases cb with
  | requestMethod start length =>
    rcases hx with hx | hx | hx
    · cases hx
      exact h
    · cases hx
    · cases hx
  | httpVersion start length =>
    rcases hx with hx | hx | hx
    · cases hx
    · cases hx
      exact h
    · cases hx
  | queryString start length =>
    rcases hx with hx | hx | hx
    · cases hx
    · cases hx
    · cases hx
      exact h
  | _ => simp [Callback.method?, Callback.version?, Callback.query?] at hx

variable {P : ℕ → Prop}

/-- A token that is not found ends where the callbacks end that are not among those whose tokens are found. -/
theorem of_not_found {B : Type} {sel : Callback → Option (ℕ × ℕ)} {found : ℕ × ℕ → Option B}
    (hsel : ∀ cb x, sel cb = some x → cb.method? = some x ∨ cb.version? = some x ∨ cb.query? = some x)
    (hall : ∀ x ∈ calls.filterMap sel, (found x).isSome)
    (hends : ∀ cb ∈ calls', cb ∈ calls ∨ ∃ p, P p ∧ cb.EndsAt p) {x : ℕ × ℕ} (hx : x ∈ calls'.filterMap sel)
    (hnone : found x = none) : P x.2 := by
  obtain ⟨cb, hcb, htoken⟩ := List.mem_filterMap.mp hx
  rcases hends cb hcb with hmem | ⟨p, hp, hend⟩
  · have hfound := hall x (List.mem_filterMap.mpr ⟨cb, hmem, htoken⟩)
    rw [hnone] at hfound
    cases hfound
  · rw [hend.eq (hsel cb x htoken)]
    exact hp

/-- Where all tokens of the first callbacks are found, the head is refused where the others end. -/
theorem AllFound.of_refusedAt (h : AllFound r reads calls)
    (hends : ∀ cb ∈ calls', cb ∈ calls ∨ ∃ p, P p ∧ cb.EndsAt p) (hstuck : ∀ p, stuck = some p → P p)
    (hp : RefusedAt r reads calls' stuck p) : P p := by
  rcases hp with ⟨x, hx, rfl, hnone⟩ | ⟨x, hx, rfl, hnone⟩ | hp
  · exact of_not_found (fun _ _ => .inl) h.method hends hx hnone
  · exact of_not_found (fun _ _ hx => .inr (.inl hx)) h.version hends hx hnone
  · exact hstuck p hp

/-- And it throws where they end. -/
theorem AllFound.of_throwsAt (h : AllFound r reads calls)
    (hends : ∀ cb ∈ calls', cb ∈ calls ∨ ∃ p, P p ∧ cb.EndsAt p) (hp : ThrowsAt r reads calls' p) : P p := by
  obtain ⟨x, hx, rfl, hnone⟩ := hp
  exact of_not_found (fun _ _ hx => .inr (.inr hx)) h.query hends hx hnone

variable {p₀ q : HttpRequestParser}

/-- Tokens that cannot be stored throw somewhere. -/
theorem exists_throwsAt (h : calls.foldlM (store r reads) p₀ = none) : ∃ p, ThrowsAt r reads calls p := by
  by_contra hno
  have hall : ∀ x ∈ calls.filterMap Callback.query?, (foundQuery r reads x).isSome := fun x hx => by
    by_contra hnone
    exact hno ⟨x.2, x, hx, rfl, by simpa using hnone⟩
  obtain ⟨q, hq⟩ := exists_foldlM (p := p₀) hall
  cases h.symm.trans hq

/-- Tokens that are stored with an error are refused somewhere. -/
theorem exists_refusedAt (h : calls.foldlM (store r reads) p₀ = some q) (hstart : p₀.error = 0) (hq : q.error ≠ 0) :
    ∃ p, RefusedAt r reads calls none p := by
  by_contra hno
  refine hq ((assembled_of_foldlM h).error.mpr ⟨hstart, fun x hx => ?_, fun x hx => ?_⟩)
  · by_contra hnone
    exact hno ⟨x.2, .inl ⟨x, hx, rfl, by simpa using hnone⟩⟩
  · by_contra hnone
    exact hno ⟨x.2, .inr (.inl ⟨x, hx, rfl, by simpa using hnone⟩)⟩

/-- Tokens that are stored without an error are all found. -/
theorem allFound_of_foldlM (h : calls.foldlM (store r reads) p₀ = some q) (hq : q.error = 0) :
    AllFound r reads calls :=
  have hassembled := assembled_of_foldlM h
  ⟨(hassembled.error.mp hq).2.1, (hassembled.error.mp hq).2.2, hassembled.queryFound⟩

/-- More callbacks refuse and throw where fewer do. -/
theorem RefusedAt.mono (hsub : calls ⊆ calls') (h : RefusedAt r reads calls none p) :
    RefusedAt r reads calls' stuck p := by
  rcases h with ⟨x, hx, hp, hnone⟩ | ⟨x, hx, hp, hnone⟩ | hp
  · exact .inl ⟨x, List.filterMap_subset _ hsub hx, hp, hnone⟩
  · exact .inr (.inl ⟨x, List.filterMap_subset _ hsub hx, hp, hnone⟩)
  · cases hp

/-- The same for throwing. -/
theorem ThrowsAt.mono (hsub : calls ⊆ calls') (h : ThrowsAt r reads calls p) : ThrowsAt r reads calls' p := by
  obtain ⟨x, hx, hp, hnone⟩ := h
  exact ⟨x, List.filterMap_subset _ hsub hx, hp, hnone⟩

/-- A read starts at or before the positions behind its start. -/
theorem le_readStart_append {done : List Bytes} (todo : List Bytes) (hp : done.flatten.length ≤ p) :
    done.flatten.length ≤ readStart (done ++ todo) p := by
  induction done generalizing p with
  | nil => exact Nat.zero_le _
  | cons d done ih =>
    rw [List.flatten_cons, List.length_append] at hp ⊢
    rw [List.cons_append, readStart, if_neg (by omega)]
    have := ih (p := p - d.length) (by omega)
    omega

/-- A position behind the start of a read is in a read that does not end before it. -/
theorem le_readEnd_append {done rest : List Bytes} {read : Bytes} (hp : done.flatten.length ≤ p) :
    done.flatten.length + read.length ≤ readEnd (done ++ read :: rest) p := by
  induction done generalizing p with
  | nil =>
    rw [List.nil_append, readEnd]
    split
    · simp
    · simp
  | cons d done ih =>
    rw [List.flatten_cons, List.length_append] at hp ⊢
    rw [List.cons_append, readEnd, if_neg (by omega)]
    have := ih (p := p - d.length) (by omega)
    omega

end Found

/-! ## The verdict by the tokens -/

section Verdict

variable {r : Bytes} {reads done rest : List Bytes} {read : Bytes} {calls : List Callback} {stuck : Option ℕ}
  {finished : Bool}

/-- A read in which a query throws decides when nothing before it does. -/
theorem fromTokens_thrown (hread : InRead r reads done.flatten.length read) (hreads : done ++ read :: rest = reads)
    {t : ℕ} (ht : ThrowsAt r reads calls t)
    (hinside : done.flatten.length ≤ t ∧ t < done.flatten.length + read.length)
    (hrefused : ∀ p, RefusedAt r reads calls stuck p → done.flatten.length ≤ p) (s : ℕ) :
    HeadVerdict.thrown.FromTokens r reads calls stuck finished s := by
  refine ⟨t, ht, fun p hp => ?_⟩
  have hstart := hread.start (t - done.flatten.length) (by omega)
  rw [Nat.add_sub_cancel' hinside.1] at hstart
  rw [hstart, ← hreads]
  exact le_readStart_append _ (hrefused p hp)

/-- A read in which the head is refused decides when nothing before it does and no query throws in it. -/
theorem fromTokens_error (hread : InRead r reads done.flatten.length read) (hreads : done ++ read :: rest = reads)
    {p : ℕ} (hp : RefusedAt r reads calls stuck p)
    (hinside : done.flatten.length ≤ p ∧ p < done.flatten.length + read.length)
    (hthrows : ∀ t, ThrowsAt r reads calls t → done.flatten.length + read.length ≤ t)
    (hrefused : ∀ p, RefusedAt r reads calls stuck p → done.flatten.length ≤ p) :
    (HeadVerdict.error read.length).FromTokens r reads calls stuck finished done.flatten.length := by
  have hsum := Nat.add_sub_cancel' hinside.1
  have hstart := hread.start (p - done.flatten.length) (by omega)
  have hstop := hread.stop (p - done.flatten.length) (by omega)
  rw [hsum] at hstart hstop
  refine ⟨⟨p, hp, hstop, fun t ht => ?_⟩, fun p' hp' => ?_⟩
  · have hbehind := hthrows t ht
    have hflat : (done ++ [read]).flatten.length = done.flatten.length + read.length := by simp
    rw [← hflat] at hbehind
    have hlater := le_readStart_append rest hbehind
    rw [List.append_assoc, List.singleton_append, hreads, hflat] at hlater
    omega
  · rw [← hreads]
    exact le_readEnd_append (hrefused p' hp')

/-- A read in which the head is finished decides when nothing is refused and nothing throws. -/
theorem fromTokens_finished (hread : InRead r reads done.flatten.length read) (hfound : AllFound r reads calls)
    {parsed : ℕ} (hpos : 0 < parsed) (hle : parsed ≤ read.length) {p : HttpRequestParser}
    (hheaders : p.data.headers = storedHeaders ((calls.filterMap Callback.field?).map (foundField r reads)) []) :
    (HeadVerdict.finished parsed (read.drop parsed).length p).FromTokens r reads calls none true
      done.flatten.length := by
  have hstop := hread.stop (parsed - 1) (by omega)
  refine ⟨hfound.not_at.1, hfound.not_at.2, rfl, hpos, ?_, hheaders⟩
  rw [List.length_drop, Nat.add_sub_assoc hpos, hstop]
  omega

variable {p₀ : HttpRequestParser} {named started : Bool} {whole : Handling}

/-- Where the grammar is stuck, is behind what it had taken before. -/
theorem le_of_stuckAt {s p : ℕ} {e : Exec RequestAction (List (ℕ × RequestAction))} (h : stuckAt s e = some p) :
    s ≤ p := by
  unfold stuckAt at h
  split at h
  · cases h
    exact Nat.le_add_right s e.p
  · cases h

/-- A grammar that can go on is stuck nowhere. -/
theorem stuckAt_eq_none {s : ℕ} {e : Exec RequestAction (List (ℕ × RequestAction))} (h : e.cs.isNone = false) :
    stuckAt s e = none := by
  rw [stuckAt, h]
  rfl

/-- The grammar is stuck in a stream when it is in the first part of it. -/
theorem stuckAt_append_of_none {s : ℕ} {cs : Option (List (Thread RequestAction))} (hcs : cs ≠ none)
    (hnone : (scan RequestAction.breaks read cs).cs = none) (more : Bytes) :
    stuckAt s (scan RequestAction.breaks (read ++ more) cs) = some (s + (scan RequestAction.breaks read cs).p) := by
  rw [scan_append_of_stopped (scan_stopped_of_none hcs hnone), stuckAt, hnone]
  rfl

/-- Behind a part that it goes through, it is stuck where it is in the rest. -/
theorem stuckAt_append {s : ℕ} {cs : Option (List (Thread RequestAction))}
    (hgoes : (scan RequestAction.breaks read cs).stopped = false) (more : Bytes) :
    stuckAt s (scan RequestAction.breaks (read ++ more) cs) =
      stuckAt (s + read.length) (scan RequestAction.breaks more (scan RequestAction.breaks read cs).cs) := by
  rw [scan_append hgoes, stuckAt, stuckAt, Nat.add_right_comm, Nat.add_assoc]

/-- An error behind a read is that of a token which ends in the read, or the grammar is stuck in it. -/
theorem exists_refusedAt_read {s : ℕ} {cs : Option (List (Thread RequestAction))} {earlier given : List Callback}
    {q : HttpRequestParser} (more : Bytes) (hearlier : AllFound r reads earlier)
    (hends : ∀ cb ∈ given, cb ∈ earlier ∨ ∃ p, (s ≤ p ∧ p < s + read.length) ∧ cb.EndsAt p) (hsub : given ⊆ calls)
    (hstored : given.foldlM (store r reads) p₀ = some q) (hstart : p₀.error = 0) (hcs : cs ≠ none)
    (hinvalid : q.error ≠ 0 ∨ (scan RequestAction.breaks read cs).cs = none) :
    ∃ p, RefusedAt r reads calls (stuckAt s (scan RequestAction.breaks (read ++ more) cs)) p ∧
      s ≤ p ∧ p < s + read.length := by
  by_cases hfound : q.error = 0
  · have hnone := hinvalid.resolve_left fun herror => herror hfound
    have hlt := scan_p_lt_of_none hcs hnone
    exact ⟨_, .inr (.inr (stuckAt_append_of_none hcs hnone more)), Nat.le_add_right _ _, by omega⟩
  · obtain ⟨p, hp⟩ := exists_refusedAt hstored hstart hfound
    exact ⟨p, hp.mono hsub, hearlier.of_refusedAt hends (fun _ hstuck => by cases hstuck) hp⟩

/-- Behind a part in which it stops nothing is performed. -/
theorem performed_append_of_stopped {cs : Option (List (Thread RequestAction))}
    (hstopped : (scan RequestAction.breaks read cs).stopped = true) (more : Bytes) :
    performed cs (read ++ more) = performed cs read := by
  rw [performed, scan_append_of_stopped hstopped, performed]

/-- What a stream does is done by its first read, and behind it by the others: the actions of the first read can be
followed, and the other callbacks are made for tokens that end behind it. -/
theorem Sim.first_read {self : HttpRequestParser} (hread : InRead r reads done.flatten.length read)
    (hsim : Sim r reads p₀ done.flatten.length done.flatten.length named started whole self.entered.st)
    {more : Bytes} (hsize : done.flatten.length + read.length + more.length ≤ r.length) {named' : Bool}
    (hfollows : Follows named started ((performed self.parser.cs (read ++ more)).map (·.2)) named') :
    let whole' := (performed self.parser.cs read).foldl (fun t x => t.perform r (x.1 + done.flatten.length) x.2) whole
    let calls := ((performed self.parser.cs (read ++ more)).foldl
      (fun t x => t.perform r (x.1 + done.flatten.length) x.2) whole).calls
    (∃ named₁, Follows named started ((performed self.parser.cs read).map (·.2)) named₁) ∧ whole'.calls ⊆ calls ∧
      ∀ cb ∈ calls, cb ∈ whole'.calls ∨ ∃ p, done.flatten.length + read.length ≤ p ∧ cb.EndsAt p := by
  intro whole' calls
  cases hstopped : (scan RequestAction.breaks read self.parser.cs).stopped with
  | true =>
    have hsame := performed_append_of_stopped hstopped more
    have hcalls : calls = whole'.calls := by
      simp only [calls, whole', hsame]
    rw [hsame] at hfollows
    rw [hcalls]
    exact ⟨⟨named', hfollows⟩, fun _ h => h, fun _ h => .inl h⟩
  | false =>
    rw [performed_append hstopped, List.map_append, List.map_map] at hfollows
    obtain ⟨named₁, hfirst, hrest⟩ := hfollows.of_append
    have hsim' := hsim.execute hread hfirst
    have hcalls := foldl_performed_append (r := r) hstopped more whole done.flatten.length
    obtain ⟨hsorted, hlt⟩ :=
      scan_sorted RequestAction.breaks more (scan RequestAction.breaks read self.parser.cs).cs
    refine ⟨⟨named₁, hfirst⟩, ?_, fun cb hcb => ?_⟩
    · simp only [calls, hcalls]
      exact (calls_prefix_foldl r _ _).subset
    · simp only [calls, hcalls] at hcb
      refine (endsAt_foldl hsim'.behind hsim'.query hsorted (fun x hx => ⟨Nat.le_add_left _ _, ?_⟩) hrest
        hcb).imp_right ?_
      · have hx := Nat.lt_of_lt_of_le (hlt x hx) (scan_p_le _ more _)
        omega
      · rintro ⟨x, -, hends⟩
        exact ⟨_, Nat.le_add_left _ _, hends⟩

/-- The callbacks of a read are made for tokens that end in it. -/
theorem Sim.endsAt_read {self : HttpRequestParser} (hread : InRead r reads done.flatten.length read)
    (hsim : Sim r reads p₀ done.flatten.length done.flatten.length named started whole self.entered.st)
    {named' : Bool} (hfollows : Follows named started ((performed self.parser.cs read).map (·.2)) named')
    {cb : Callback} (hcb : cb ∈ ((performed self.parser.cs read).foldl
      (fun t x => t.perform r (x.1 + done.flatten.length) x.2) whole).calls) :
    cb ∈ whole.calls ∨
      ∃ p, (done.flatten.length ≤ p ∧ p < done.flatten.length + read.length) ∧ cb.EndsAt p := by
  obtain ⟨hsorted, hlt⟩ := scan_sorted RequestAction.breaks read self.parser.cs
  have hinside : ∀ x ∈ performed self.parser.cs read, x.1 < read.length := fun x hx =>
    Nat.lt_of_lt_of_le (hlt x hx) (scan_p_le _ read _)
  have hsize := hread.size
  refine (endsAt_foldl hsim.behind hsim.query hsorted (fun x hx => ⟨Nat.le_add_left _ _, ?_⟩) hfollows
    hcb).imp_right ?_
  · have hx := hinside x hx
    omega
  · rintro ⟨x, hx, hends⟩
    have hx := hinside x hx
    exact ⟨_, ⟨Nat.le_add_left _ _, by omega⟩, hends⟩

/-- The verdict on the reads of a stream, from the tokens of the stream. -/
theorem executeReads_fromTokens (done : List Bytes) {todo : List Bytes} (hreads : done ++ todo = reads)
    (hflat : reads.flatten = r) (hsizes : ∀ read ∈ todo, read ≠ [] ∧ read.length < 2 ^ 64)
    (hstart : p₀.error = 0) (hheaders : p₀.data.headers = []) {self : HttpRequestParser} (hself : self.InHead)
    (herror : self.error = 0)
    (hsim : Sim r reads p₀ done.flatten.length done.flatten.length named started whole self.entered.st)
    {named' : Bool} (hfollows : Follows named started ((performed self.parser.cs todo.flatten).map (·.2)) named') :
    let e := scan RequestAction.breaks todo.flatten self.parser.cs
    (self.executeReads todo).FromTokens r reads
      ((performed self.parser.cs todo.flatten).foldl
        (fun t x => t.perform r (x.1 + done.flatten.length) x.2) whole).calls
      (stuckAt done.flatten.length e) (e.cs.elim false isFinal) done.flatten.length := by
  induction todo generalizing done self named started whole with
  | nil =>
    obtain ⟨ts, hcs, -, hunfinal⟩ := hself
    intro e
    have hend : e.cs = some ts := hcs
    have hstuck : stuckAt done.flatten.length e = none := stuckAt_eq_none (by rw [hend, Option.isNone_some])
    have hclean : AllFound r reads whole.calls := allFound_of_foldlM hsim.stored herror
    rw [hstuck, hend]
    exact ⟨hclean.not_at.1, hclean.not_at.2, hunfinal⟩
  | cons read todo ih =>
    obtain ⟨hne, hsmall⟩ := hsizes read List.mem_cons_self
    have hread : InRead r reads done.flatten.length read := by
      rw [← hreads] at hflat ⊢
      exact inRead_append done hflat hsmall
    have hsize : done.flatten.length + read.length + todo.flatten.length ≤ r.length := by
      rw [← hflat, ← hreads]
      simp [Nat.add_assoc]
    rw [List.flatten_cons] at hfollows ⊢
    obtain ⟨⟨named₁, hfirst⟩, hsub, hlater⟩ := hsim.first_read hread hsize hfollows
    have hsim' := hsim.execute hread hfirst
    have hclean : AllFound r reads whole.calls := allFound_of_foldlM hsim.stored herror
    have hinside := fun (cb : Callback) (hcb : cb ∈ _) => hsim.endsAt_read hread hfirst hcb
    intro e
    -- The callbacks of the stream, and those made up to the end of this read.
    obtain ⟨calls, hcalls⟩ : ∃ calls, calls = ((performed self.parser.cs (read ++ todo.flatten)).foldl
      (fun t x => t.perform r (x.1 + done.flatten.length) x.2) whole).calls := ⟨_, rfl⟩
    obtain ⟨whole', hwhole'⟩ : ∃ t, t = (performed self.parser.cs read).foldl
      (fun t x => t.perform r (x.1 + done.flatten.length) x.2) whole := ⟨_, rfl⟩
    obtain ⟨split', hsplit'⟩ : ∃ t, t = (performed self.parser.cs read).foldl
      (fun t x => t.perform read x.1 x.2) self.entered.st := ⟨_, rfl⟩
    rw [← hcalls] at hsub hlater ⊢
    rw [← hwhole'] at hsub hlater hsim' hinside
    rw [← hsplit'] at hsim'
    have hbehind : ∀ cb ∈ calls, cb ∈ whole.calls ∨ ∃ p, done.flatten.length ≤ p ∧ cb.EndsAt p := by
      intro cb hcb
      rcases hlater cb hcb with hmem | ⟨p, hp, hends⟩
      · exact (hinside cb hmem).imp_right fun ⟨p, hp, hends⟩ => ⟨p, hp.1, hends⟩
      · exact .inr ⟨p, (Nat.le_add_right _ _).trans hp, hends⟩
    have hrefused : ∀ p, RefusedAt r reads calls (stuckAt done.flatten.length e) p → done.flatten.length ≤ p :=
      fun p hp => hclean.of_refusedAt hbehind (fun _ => le_of_stuckAt) hp
    have hexecute : self.execute read =
        ⟨{ split'.self with parser :=
            { split'.self.parser with cs := (scan RequestAction.breaks read self.parser.cs).cs } },
          split'.calls, split'.thrown, (scan RequestAction.breaks read self.parser.cs).p⟩ := by
      rw [self.execute_eq hne, ← hsplit']
    have hstored := hsim'.stored
    rw [HttpRequestParser.executeReads]
    split
    · rename_i hthrown
      rw [hexecute] at hthrown
      rw [if_pos hthrown] at hstored
      obtain ⟨t, ht⟩ := exists_throwsAt hstored
      exact fromTokens_thrown hread hreads (ht.mono hsub) (hclean.of_throwsAt hinside ht) hrefused _
    · rename_i hgoes
      rw [hexecute] at hgoes
      rw [if_neg hgoes] at hstored
      split
      · rename_i hinvalid
        -- No query throws in this read, so those that throw are behind it.
        have hthrows : ∀ t, ThrowsAt r reads calls t → done.flatten.length + read.length ≤ t := by
          rintro t ⟨x, hx, rfl, hnone⟩
          exact of_not_found (fun _ _ hx => .inr (.inr hx)) (assembled_of_foldlM hstored).queryFound hlater hx hnone
        have herror' : split'.self.error ≠ 0 ∨ (scan RequestAction.breaks read self.parser.cs).cs = none := by
          rw [hexecute] at hinvalid
          simpa [HttpRequestParser.hasError] using hinvalid
        have hcs : self.parser.cs ≠ none := by
          obtain ⟨ts, hcs, -⟩ := hself
          rw [hcs]
          exact Option.some_ne_none ts
        obtain ⟨p, hp, hp'⟩ :=
          exists_refusedAt_read todo.flatten hclean hinside hsub hstored hstart hcs herror'
        exact fromTokens_error hread hreads hp hp' hthrows hrefused
      · rename_i hvalid
        rw [Bool.not_eq_true] at hvalid
        obtain ⟨hfinished, hunfinished⟩ := hself.execute hne hvalid
        rw [hexecute, HttpRequestParser.hasError, Bool.or_eq_false_iff] at hvalid
        have hfound : split'.self.error = 0 := by simpa using hvalid.1
        have hclean' : AllFound r reads whole'.calls := allFound_of_foldlM hstored hfound
        split
        · rename_i hfinal
          obtain ⟨hstopped, hpos⟩ := hfinished hfinal
          have hsame : e = scan RequestAction.breaks read self.parser.cs := scan_append_of_stopped hstopped _
          have hnomore : calls = whole'.calls := by rw [hcalls, hwhole', performed_append_of_stopped hstopped]
          have hsome : e.cs.isNone = false := by
            rw [hsame]
            exact hvalid.2
          have hstuck : stuckAt done.flatten.length e = none := stuckAt_eq_none hsome
          rw [hexecute] at hfinal hpos
          have hfinal' : e.cs.elim false isFinal = true := by
            rw [hsame]
            exact hfinal
          have hassembled := (assembled_of_foldlM hstored).headers
          rw [hheaders] at hassembled
          rw [hstuck, hnomore, hfinal', hexecute]
          exact fromTokens_finished hread hclean' hpos (scan_p_le RequestAction.breaks read _) hassembled
        · rename_i hfinal
          rw [Bool.not_eq_true] at hfinal
          obtain ⟨hstopped, hnext⟩ := hunfinished hfinal
          rw [hexecute] at hnext
          rw [performed_append hstopped, List.map_append, List.map_map] at hfollows
          obtain ⟨named₂, hfirst', hrest⟩ := hfollows.of_append
          have hsim'' := hsim.execute hread hfirst'
          rw [← hwhole', ← hsplit'] at hsim''
          have hlength : (done ++ [read]).flatten.length = done.flatten.length + read.length := by simp
          have hcalls' := foldl_performed_append (r := r) hstopped todo.flatten whole done.flatten.length
          rw [← hwhole', ← hlength] at hcalls'
          have hend : e = _ := scan_append hstopped todo.flatten
          have hstuck : stuckAt done.flatten.length e = _ := stuckAt_append hstopped todo.flatten
          have hgoes' : split'.thrown = false := by simpa using hgoes
          have hentered := hsim''.enter hgoes' (scan RequestAction.breaks read self.parser.cs).cs
          rw [← hlength] at hentered
          have hverdict := ih (done ++ [read]) (by simp [← hreads])
            (fun read' h => hsizes read' (List.mem_cons_of_mem _ h)) hnext hfound hentered hrest
          rw [hlength] at hverdict
          rw [hexecute, hcalls, hcalls', hlength, hstuck, hend]
          exact hverdict.behind

end Verdict

/-! ## A new parser -/

/-- The tokens of a stream, by the callbacks that a parser makes when it is given the stream at once. -/
def headTokens (uriRelaxed : Bool) (stream : Bytes) : List Callback :=
  ((HttpRequestParser.fresh uriRelaxed 0).execute stream).calls

/-- The position of the byte at which the grammar cannot go on. -/
def headError (uriRelaxed : Bool) (stream : Bytes) : Option ℕ :=
  if (scan RequestAction.breaks stream (some (httpParserStart uriRelaxed))).cs.isNone then
    some (headSize uriRelaxed stream)
  else none

/-- The verdict of a new parser on the reads of a stream, from the tokens of the stream. -/
theorem fresh_fromTokens (uriRelaxed : Bool) (queryStart : ℕ) {reads : List Bytes}
    (hsizes : ∀ read ∈ reads, read ≠ [] ∧ read.length < 2 ^ 64) :
    let r := reads.flatten
    ((HttpRequestParser.fresh uriRelaxed queryStart).executeReads reads).FromTokens r reads (headTokens uriRelaxed r)
      (headError uriRelaxed r) (headFinished uriRelaxed r) 0 := by
  intro r
  obtain ⟨named, hfollows⟩ := follows_start uriRelaxed r
  have hverdict := executeReads_fromTokens (r := r) [] (List.nil_append reads) rfl hsizes rfl rfl
    (inHead_fresh uriRelaxed queryStart) rfl (Sim.fresh uriRelaxed r reads 0 queryStart) hfollows
  have hstuck : stuckAt ([] : List Bytes).flatten.length
      (scan RequestAction.breaks r (some (httpParserStart uriRelaxed))) = headError uriRelaxed r := by
    rw [stuckAt, headError, headSize, List.flatten_nil, List.length_nil, Nat.zero_add]
  have htokens : ((performed (some (httpParserStart uriRelaxed)) r).foldl (fun t x => t.perform r (x.1 + 0) x.2)
      (HttpRequestParser.fresh uriRelaxed 0).entered.st).calls = headTokens uriRelaxed r := by
    by_cases hne : r = []
    · rw [headTokens, hne]
      rfl
    · rw [headTokens, HttpRequestParser.execute_eq _ hne]
      rfl
  rw [← htokens, ← hstuck]
  exact hverdict

end Bobliew.Http
