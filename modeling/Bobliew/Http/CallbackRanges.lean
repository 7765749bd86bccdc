import Bobliew.Http.ActionOrder
import Bobliew.Http.RequestSession

/-!
# The ranges given to the callbacks

Within one call of `execute` every offset that the actions use is recorded in that call or was set to
zero when it began, with one exception: `query_start` survives from an earlier call. A query that was
begun in an earlier read may therefore end, in a later read, at an offset smaller than the one stored,
and the length given to the callback is then the wrapped negative difference.

The offset stored by the machine that never began a query is not used: a query string is performed only
after the start of the query.
-/

namespace Bobliew.Http

open Ragel

/-- The ranges of a callback lie inside a buffer of the given size. -/
def Callback.Inside (size : ℕ) (cb : Callback) : Prop :=
  ∀ x ∈ cb.ranges, x.1 + x.2 ≤ size

/-- The actions that a call performs from a machine state on, with their offsets. -/
def performed (cs : Option (List (Thread RequestAction))) (data : Bytes) : List (ℕ × RequestAction) :=
  (scan RequestAction.breaks data cs).st

/-- The actions that a call performs before it begins a query of its own. -/
def beforeQuery (cs : Option (List (Thread RequestAction))) (data : Bytes) : List (ℕ × RequestAction) :=
  (performed cs data).takeWhile fun x => !decide (x.2 = .startQuery)

/-- A query that a call resumes does not end before the offset stored when it began. -/
def QueryInReach (p : HttpParser) (data : Bytes) : Prop :=
  ∀ x ∈ beforeQuery p.cs data, x.2 = .queryString → p.queryStart ≤ x.1

instance (size : ℕ) (cb : Callback) : Decidable (cb.Inside size) :=
  inferInstanceAs (Decidable (∀ x ∈ cb.ranges, x.1 + x.2 ≤ size))

namespace HttpRequestParser

/-- A call of `execute` performs the scanned actions one after the other. -/
theorem execute_eq (p : HttpRequestParser) {data : Bytes} (hdata : data ≠ []) :
    p.execute data =
      let s := (performed p.parser.cs data).foldl (fun s x => s.perform data x.1 x.2) p.entered.st
      let e := scan RequestAction.breaks data p.parser.cs
      { self := { s.self with parser := { s.self.parser with cs := e.cs } }
        calls := s.calls
        thrown := s.thrown
        nparse := e.p } := by
  have h := exec_eq_scan (Handling.perform data) RequestAction.breaks data p.parser.cs 0 p.entered.st
  rw [execute, if_neg hdata, show p.entered = ⟨p.parser.cs, 0, p.entered.st, false⟩ from rfl, h]
  rfl

end HttpRequestParser

/-! ## One action -/

section Offsets

variable {data : Bytes} {p k : ℕ} {cb : Callback} {s : Handling} {a : RequestAction}

/-- The length from an offset that has been passed. -/
theorem add_lenFrom {start : ℕ} (h : start ≤ p) : start + lenFrom start p = p := by
  rw [lenFrom, if_pos h]
  omega

/-- The length from an offset that has not been reached does not fit any buffer. -/
theorem lt_add_lenFrom {start size : ℕ} (h : p < start) (hsize : size < 2 ^ 64) :
    size < start + lenFrom start p := by
  rw [lenFrom, if_neg (by omega)]
  omega

/-- A range inside the buffer yields a string. -/
theorem stringAt_of_le {start length : ℕ} (h : start + length ≤ data.length) :
    stringAt data start length = some ((data.drop start).take length) :=
  if_pos h

/-- A callback whose ranges are inside the buffer does not throw, and keeps the offsets. -/
theorem handle_of_inside (self : HttpRequestParser) (h : cb.Inside data.length) :
    ∃ self', self.handle data cb = some self' ∧ self'.parser = self.parser := by
  have hrange : ∀ {start length : ℕ}, (start, length) ∈ cb.ranges →
      stringAt data start length = some ((data.drop start).take length) :=
    fun hmem => stringAt_of_le (h _ hmem)
  have hsome : ∃ self', self.handle data cb = some self' := by
    cases cb with
    | requestMethod start length => exact ⟨_, rfl⟩
    | requestUri start length => exact ⟨self, rfl⟩
    | fragment start length =>
      rw [HttpRequestParser.handle, hrange List.mem_cons_self]
      exact ⟨_, rfl⟩
    | requestPath start length =>
      rw [HttpRequestParser.handle, hrange List.mem_cons_self]
      exact ⟨_, rfl⟩
    | queryString start length =>
      rw [HttpRequestParser.handle, hrange List.mem_cons_self]
      exact ⟨_, rfl⟩
    | httpVersion start length => exact ⟨_, rfl⟩
    | headerDone start length => exact ⟨self, rfl⟩
    | httpField field flen value vlen =>
      rw [HttpRequestParser.handle, HttpRequestParser.onRequestHttpField]
      split
      · exact ⟨self, rfl⟩
      · rw [hrange List.mem_cons_self, hrange (List.mem_cons_of_mem _ List.mem_cons_self)]
        exact ⟨_, rfl⟩
  obtain ⟨self', hself⟩ := hsome
  exact ⟨self', hself, (HttpRequestParser.handle_frame hself).1⟩

/-- Making a callback whose ranges are inside the buffer. -/
theorem call_of_inside (h : cb.Inside data.length) :
    (s.call data cb).calls = s.calls ++ [cb] ∧ (s.call data cb).thrown = s.thrown ∧
      (s.call data cb).self.parser = s.self.parser := by
  obtain ⟨self', hself, hparser⟩ := handle_of_inside s.self h
  rw [Handling.call, hself]
  exact ⟨rfl, rfl, hparser⟩

/-- Every callback is recorded. -/
theorem calls_call (cb : Callback) : (s.call data cb).calls = s.calls ++ [cb] := by
  unfold Handling.call
  split <;> rfl

/-- An action adds its callback to those made before. -/
theorem calls_prefix_perform : s.calls <+: (s.perform data p a).calls := by
  unfold Handling.perform
  split
  · exact List.prefix_refl _
  · cases a <;>
      first
      | exact List.prefix_refl _
      | (rw [calls_call]; exact List.prefix_append _ _)
      | skip
    simp only
    split
    · exact List.prefix_refl _
    · rw [calls_call]
      exact List.prefix_append _ _

/-- A sequence of actions adds its callbacks to those made before. -/
theorem calls_prefix_foldl (data : Bytes) (l : List (ℕ × RequestAction)) (k : ℕ) :
    s.calls <+: (l.foldl (fun s x => s.perform data (x.1 + k) x.2) s).calls := by
  induction l generalizing s with
  | nil => exact List.prefix_refl _
  | cons x l ih => exact calls_prefix_perform.trans ih

/-- The offsets of the current call are behind the position `k`, and so is the end of the field name
once it is written. -/
structure Behind (k : ℕ) (named : Bool) (s : Handling) : Prop where
  goes : s.thrown = false
  mark : s.self.parser.mark ≤ k
  fieldStart : s.self.parser.fieldStart ≤ k
  fieldEnd : named = true → s.self.parser.fieldStart + s.self.parser.fieldLen ≤ k

/-- Making a callback whose ranges are inside the buffer changes no offset. -/
theorem Behind.call {named : Bool} (hs : Behind k named s) (hk : k ≤ p) (h : cb.Inside data.length) :
    Behind p named (s.call data cb) ∧
      (∀ cb' ∈ (s.call data cb).calls, cb' ∈ s.calls ∨ cb'.Inside data.length) ∧
        (s.call data cb).self.parser.queryStart = s.self.parser.queryStart := by
  obtain ⟨hcalls, hthrown, hparser⟩ := call_of_inside h
  refine ⟨⟨?_, ?_, ?_, ?_⟩, fun cb' hmem => ?_, ?_⟩
  · rw [hthrown]
    exact hs.goes
  · rw [hparser]
    exact hs.mark.trans hk
  · rw [hparser]
    exact hs.fieldStart.trans hk
  · rw [hparser]
    exact fun hnamed => (hs.fieldEnd hnamed).trans hk
  · rw [hcalls] at hmem
    rcases List.mem_append.mp hmem with hmem | hmem
    · exact .inl hmem
    · rw [List.mem_singleton.mp hmem]
      exact .inr h
  · rw [hparser]

/-- One range from an offset that has been passed up to the current one. -/
theorem inside_of_le {start : ℕ} (hstart : start ≤ p) (hp : p < data.length) :
    start + lenFrom start p ≤ data.length := by
  rw [add_lenFrom hstart]
  exact hp.le

/-- An action that is not a query string out of reach keeps the offsets behind the position, and makes
its callback inside the buffer. -/
theorem Behind.perform {named named' : Bool} (hs : Behind k named s) (hk : k ≤ p) (hp : p < data.length)
    (hfollow : RequestMachine.followFields named a = some named')
    (hquery : a = .queryString → s.self.parser.queryStart ≤ p) :
    Behind p named' (s.perform data p a) ∧
      (∀ cb ∈ (s.perform data p a).calls, cb ∈ s.calls ∨ cb.Inside data.length) ∧
        (s.perform data p a).self.parser.queryStart =
          if a = .startQuery then p else s.self.parser.queryStart := by
  have hmark : s.self.parser.mark ≤ p := hs.mark.trans hk
  have hrange := inside_of_le hmark hp
  have hkept : ∀ cb ∈ s.calls, cb ∈ s.calls ∨ cb.Inside data.length := fun _ => .inl
  have hfield : s.self.parser.fieldStart ≤ p := hs.fieldStart.trans hk
  have hend : named = true → s.self.parser.fieldStart + s.self.parser.fieldLen ≤ p :=
    fun hnamed => (hs.fieldEnd hnamed).trans hk
  unfold Handling.perform
  rw [if_neg (by simp [hs.goes])]
  cases a with
  | mark =>
    cases hfollow
    exact ⟨⟨hs.goes, Nat.le_refl p, hfield, hend⟩, hkept, rfl⟩
  | startField =>
    cases hfollow
    exact ⟨⟨hs.goes, hmark, Nat.le_refl p, nofun⟩, hkept, rfl⟩
  | writeField =>
    cases hfollow
    exact ⟨⟨hs.goes, hmark, hfield, fun _ => (add_lenFrom hfield).le⟩, hkept, rfl⟩
  | startValue =>
    cases hfollow
    exact ⟨⟨hs.goes, Nat.le_refl p, hfield, hend⟩, hkept, rfl⟩
  | writeValue =>
    cases named with
    | false => exact absurd hfollow nofun
    | true =>
      cases hfollow
      refine hs.call hk fun x hx => ?_
      rcases List.mem_cons.mp hx with rfl | hx
      · exact (hend rfl).trans hp.le
      · rw [List.mem_singleton.mp hx]
        exact hrange
  | requestMethod =>
    cases hfollow
    exact hs.call hk fun x hx => by rw [List.mem_singleton.mp hx]; exact hrange
  | requestUri =>
    cases hfollow
    exact hs.call hk fun x hx => by rw [List.mem_singleton.mp hx]; exact hrange
  | fragment =>
    cases hfollow
    exact hs.call hk fun x hx => by rw [List.mem_singleton.mp hx]; exact hrange
  | startQuery =>
    cases hfollow
    exact ⟨⟨hs.goes, hmark, hfield, hend⟩, hkept, rfl⟩
  | queryString =>
    cases hfollow
    refine hs.call hk fun x hx => ?_
    rw [List.mem_singleton.mp hx]
    exact inside_of_le (hquery rfl) hp
  | httpVersion =>
    cases hfollow
    exact hs.call hk fun x hx => by rw [List.mem_singleton.mp hx]; exact hrange
  | requestPath =>
    cases hfollow
    exact hs.call hk fun x hx => by rw [List.mem_singleton.mp hx]; exact hrange
  | done =>
    cases hfollow
    simp only
    split
    · exact ⟨⟨hs.goes, hmark, hfield, hend⟩, hkept, rfl⟩
    · have hs' : Behind p named (s.update fun q => { q with bodyStart := p + 1 }) :=
        ⟨hs.goes, hmark, hfield, hend⟩
      refine hs'.call (Nat.le_refl p) fun x hx => ?_
      rw [List.mem_singleton.mp hx]
      simp only
      omega
  | xml =>
    cases hfollow
    exact ⟨⟨hs.goes, hmark, hfield, hend⟩, hkept, rfl⟩
  | json =>
    cases hfollow
    exact ⟨⟨hs.goes, hmark, hfield, hend⟩, hkept, rfl⟩

/-- A query string out of reach is given a range that is not inside the buffer. -/
theorem exists_outside_of_queryString {named : Bool} (hs : Behind k named s)
    (hquery : p < s.self.parser.queryStart) (hdata : data.length < 2 ^ 64) :
    ∃ cb ∈ (s.perform data p .queryString).calls, ¬cb.Inside data.length := by
  unfold Handling.perform
  rw [if_neg (by simp [hs.goes])]
  refine ⟨_, (calls_call _).symm ▸ List.mem_append_right _ List.mem_cons_self, fun hinside => ?_⟩
  exact absurd (hinside _ List.mem_cons_self) (Nat.not_le.mpr (lt_add_lenFrom hquery hdata))

end Offsets

/-! ## One call -/

/-- The machine state is an error or in some stage of a head. -/
def Staged (n : RequestMachine.Stamps) (cs : Option (List (Thread RequestAction))) : Prop :=
  ∀ ts, cs = some ts → ∃ st : RequestMachine.Stage, st.Holds n ts

/-- The machine stays in the stages of a head. -/
theorem staged_scan {n : RequestMachine.Stamps} {cs : Option (List (Thread RequestAction))} (hcs : Staged n cs)
    (breaks : RequestAction → Bool) (data : Bytes) : Staged n (scan breaks data cs).cs := by
  have hstep : ∀ ts c ts' acts, Staged n (some ts) → step ts c = some (ts', acts) → Staged n (some ts') := by
    rintro ts c ts' acts hts hstep _ ⟨⟩
    obtain ⟨st, hst⟩ := hts ts rfl
    obtain ⟨-, st', hst', -⟩ := hst.step hstep
    exact ⟨st', hst'⟩
  exact scan_invariant (fun cs _ _ _ => Staged n cs)
    (fun ts _ _ c ts' acts h hs _ => hstep ts c ts' acts h hs)
    (fun ts _ _ c ts' acts _ h hs _ => hstep ts c ts' acts h hs) (fun _ _ _ _ => nofun) hcs data

/-- Every query string is in reach of the offset that is current when it is performed. -/
def InReachFrom : ℕ → List (ℕ × RequestAction) → Prop
  | _, [] => True
  | q, x :: l => (x.2 = .queryString → q ≤ x.1) ∧ InReachFrom (if x.2 = .startQuery then x.1 else q) l

/-- Query strings after the offset are in reach of it. -/
theorem inReachFrom_of_le {q : ℕ} {l : List (ℕ × RequestAction)} (hq : ∀ x ∈ l, q ≤ x.1)
    (hsorted : l.Pairwise fun x y => x.1 ≤ y.1) : InReachFrom q l := by
  induction l generalizing q with
  | nil => trivial
  | cons x l ih =>
    obtain ⟨hfirst, hrest⟩ := List.pairwise_cons.mp hsorted
    refine ⟨fun _ => hq x List.mem_cons_self, ih ?_ hrest⟩
    split
    · exact hfirst
    · exact fun y hy => hq y (List.mem_cons_of_mem x hy)

/-- Only the query strings before the start of a query matter. -/
theorem inReachFrom_iff {q : ℕ} {l : List (ℕ × RequestAction)} (hsorted : l.Pairwise fun x y => x.1 ≤ y.1) :
    InReachFrom q l ↔
      ∀ x ∈ l.takeWhile (fun x => !decide (x.2 = .startQuery)), x.2 = .queryString → q ≤ x.1 := by
  induction l with
  | nil => simp [InReachFrom]
  | cons x l ih =>
    obtain ⟨hfirst, hrest⟩ := List.pairwise_cons.mp hsorted
    by_cases hx : x.2 = .startQuery
    · have hreach := inReachFrom_of_le hfirst hrest
      simp [InReachFrom, hx, hreach]
    · simp [InReachFrom, hx, ih hrest]

/-- The callbacks of a sequence of actions are made inside the buffer exactly when every query string
is in reach. -/
theorem inside_foldl_iff {data : Bytes} (hdata : data.length < 2 ^ 64) {k : ℕ} {named : Bool} {s : Handling}
    (hs : Behind k named s) {l : List (ℕ × RequestAction)} (hsorted : l.Pairwise fun x y => x.1 ≤ y.1)
    (hl : ∀ x ∈ l, k ≤ x.1 ∧ x.1 < data.length)
    (hfollow : ∃ named', (l.map (·.2)).foldlM RequestMachine.followFields named = some named') :
    (∀ cb ∈ (l.foldl (fun s x => s.perform data x.1 x.2) s).calls, cb.Inside data.length) ↔
      (∀ cb ∈ s.calls, cb.Inside data.length) ∧ InReachFrom s.self.parser.queryStart l := by
  induction l generalizing k named s with
  | nil => simp [InReachFrom]
  | cons x l ih =>
    obtain ⟨p, a⟩ := x
    obtain ⟨hfirst, hrest⟩ := List.pairwise_cons.mp hsorted
    obtain ⟨hk, hp⟩ := hl _ List.mem_cons_self
    obtain ⟨named', hfold⟩ := hfollow
    simp only [List.map_cons, List.foldlM_cons] at hfold
    obtain ⟨next, hnext, hfold⟩ := Option.bind_eq_some_iff.mp hfold
    rw [List.foldl_cons]
    by_cases hquery : a = .queryString → s.self.parser.queryStart ≤ p
    · obtain ⟨hs', hcalls, hstart⟩ := hs.perform hk hp hnext hquery
      rw [ih hs' hrest (fun y hy => ⟨hfirst y hy, (hl y (List.mem_cons_of_mem _ hy)).2⟩) ⟨named', hfold⟩,
        hstart]
      have hiff : (∀ cb ∈ (s.perform data p a).calls, cb.Inside data.length) ↔
          ∀ cb ∈ s.calls, cb.Inside data.length :=
        ⟨fun h cb hcb => h cb (calls_prefix_perform.subset hcb),
          fun h cb hcb => (hcalls cb hcb).elim (h cb) id⟩
      rw [hiff]
      exact and_congr_right fun _ => (and_iff_right hquery).symm
    · obtain ⟨rfl, hlt⟩ := Classical.not_imp.mp hquery
      obtain ⟨cb, hcb, hout⟩ := exists_outside_of_queryString hs (Nat.not_le.mp hlt) hdata
      refine ⟨fun h => absurd (h cb ((calls_prefix_foldl _ l 0).subset hcb)) hout, fun h => ?_⟩
      exact absurd (h.2.1 rfl) hlt

/-- The callbacks of a call are made inside the buffer exactly when a query that it resumes does not end
before the stored offset. -/
theorem inside_execute_iff {n : RequestMachine.Stamps} {p : HttpRequestParser} (hp : Staged n p.parser.cs)
    {data : Bytes} (hne : data ≠ []) (hdata : data.length < 2 ^ 64) :
    (∀ cb ∈ (p.execute data).calls, cb.Inside data.length) ↔ QueryInReach p.parser data := by
  obtain ⟨hsorted, hlt⟩ := scan_sorted RequestAction.breaks data p.parser.cs
  have hfollow : ∃ named', ((performed p.parser.cs data).map (·.2)).foldlM RequestMachine.followFields true =
      some named' := by
    cases hcs : p.parser.cs with
    | none =>
      rw [performed, (scan_none _ _).2]
      exact ⟨true, rfl⟩
    | some ts =>
      obtain ⟨st, hst⟩ := hp ts hcs
      obtain ⟨named', hfold, -⟩ :=
        RequestMachine.followFields_scan hst (fun _ => rfl) RequestAction.breaks data
      exact ⟨named', hfold⟩
  have hentered : Behind 0 true p.entered.st :=
    ⟨rfl, Nat.le_refl 0, Nat.le_refl 0, fun _ => Nat.le_refl 0⟩
  have hpositions : ∀ x ∈ performed p.parser.cs data, 0 ≤ x.1 ∧ x.1 < data.length :=
    fun x hx => ⟨Nat.zero_le _, Nat.lt_of_lt_of_le (hlt x hx) (scan_p_le _ data p.parser.cs)⟩
  rw [p.execute_eq hne]
  refine (inside_foldl_iff hdata hentered hsorted hpositions hfollow).trans ?_
  rw [inReachFrom_iff hsorted]
  exact and_iff_right (fun cb hcb => absurd hcb (by simp [HttpRequestParser.entered]))

/-- The first call of a fresh parser does not use the offset it was created with. -/
theorem queryInReach_fresh (uriRelaxed : Bool) (queryStart : ℕ) (data : Bytes) :
    QueryInReach (httpParserInit uriRelaxed queryStart) data := by
  intro x hx hquery
  obtain ⟨hprec, -⟩ := precedes_scan (a := RequestAction.startQuery) (b := .queryString) nofun
    (RequestMachine.guarded_httpParserStart uriRelaxed) RequestAction.breaks data
  obtain ⟨l₁, l₂, hsplit⟩ := List.append_of_mem hx
  have hbefore : Precedes .startQuery .queryString
      ((beforeQuery (httpParserInit uriRelaxed queryStart).cs data).map (·.2)) :=
    hprec.of_prefix ((List.takeWhile_prefix _).map _)
  have hstart : RequestAction.startQuery ∈ l₁.map (·.2) :=
    hbefore _ (l₂.map (·.2)) (by rw [hsplit, List.map_append, List.map_cons, hquery])
  obtain ⟨y, hy, hystart⟩ := List.mem_map.mp hstart
  have hyin : y ∈ beforeQuery (httpParserInit uriRelaxed queryStart).cs data := by
    rw [hsplit]
    exact List.mem_append_left _ hy
  have hyne := List.mem_takeWhile_imp hyin
  simp [hystart] at hyne

/-! ## All calls of a run -/

section Run

variable {n : RequestMachine.Stamps} {buffSize : BufferSize}

/-- A call of `execute` as `recvRequest` makes it: in a stage of a head, on some bytes, within the
buffer. -/
structure ExecuteCall.Valid (n : RequestMachine.Stamps) (buffSize : BufferSize) (k : ExecuteCall) : Prop where
  staged : Staged n k.before.parser.cs
  data_ne : k.data ≠ []
  fits : k.data.length ≤ buffSize.size

/-- Every call of the loop over the head is valid, and the first one is made on the parser it starts
with. -/
theorem recvHead_valid (rounds : ℕ) {p : HttpRequestParser} (hp : Staged n p.parser.cs) (left : Bytes)
    (hleft : left.length < buffSize.size) (pieces : List Bytes) :
    (∀ k ∈ (recvHead buffSize rounds p left pieces).1, k.Valid n buffSize) ∧
      ∀ k ∈ (recvHead buffSize rounds p left pieces).1.head?, k.before = p := by
  induction rounds generalizing p left pieces with
  | zero => simp [recvHead]
  | succ rounds ih =>
    unfold recvHead
    split
    · simp
    · rename_i got pieces' hread
      obtain ⟨hne, hle⟩ := readSome_eq_some hread
      have hvalid : ExecuteCall.Valid n buffSize ⟨p, left ++ got⟩ := by
        refine ⟨hp, ?_, ?_⟩
        · simp [hne]
        · simp only [List.length_append]
          omega
      have hnext : Staged n (p.execute (left ++ got)).self.parser.cs := by
        rw [p.execute_eq hvalid.data_ne]
        exact staged_scan hp _ _
      simp only
      split
      · simpa using hvalid
      · split
        · simpa using hvalid
        · split
          · simpa using hvalid
          · split
            · simpa using hvalid
            · rename_i hlen _
              have hleft' : ((left ++ got).drop (p.execute (left ++ got)).nparse).length < buffSize.size := by
                have := hvalid.fits
                simp only at this
                rw [List.length_drop] at hlen ⊢
                omega
              refine ⟨fun k hk => ?_, fun k hk => ?_⟩
              · rcases List.mem_cons.mp hk with rfl | hk
                · exact hvalid
                · exact (ih hnext _ hleft' pieces').1 k hk
              · simp only [List.head?_cons, Option.mem_def, Option.some.injEq] at hk
                rw [← hk]

/-- In every run of `recvRequest` each callback is given ranges inside the data of its call, if and only
if in no call after the first a query begun in an earlier read ends at an offset smaller than the one
stored when it began. -/
theorem callbacks_inside_iff (lexicalCast : Bytes → Option ℕ) (uriRelaxed : Bool) (queryStart : ℕ)
    (buffSize : BufferSize) (pieces : List Bytes) :
    (∀ k ∈ (recvRequest lexicalCast uriRelaxed queryStart buffSize pieces).1,
        ∀ cb ∈ (k.before.execute k.data).calls, cb.Inside k.data.length) ↔
      ∀ k ∈ (recvRequest lexicalCast uriRelaxed queryStart buffSize pieces).1.tail,
        QueryInReach k.before.parser k.data := by
  obtain ⟨n, hstart⟩ := RequestMachine.holds_httpParserStart uriRelaxed
  have hfresh : Staged n (HttpRequestParser.fresh uriRelaxed queryStart).parser.cs := by
    rintro ts ⟨⟩
    exact ⟨_, hstart⟩
  obtain ⟨hvalid, hhead⟩ := recvHead_valid ((pieces.map (·.length)).sum + 1) hfresh [] buffSize.pos pieces
  have hiff : ∀ k ∈ (recvRequest lexicalCast uriRelaxed queryStart buffSize pieces).1,
      (∀ cb ∈ (k.before.execute k.data).calls, cb.Inside k.data.length) ↔
        QueryInReach k.before.parser k.data := by
    intro k hk
    obtain ⟨hstaged, hne, hfits⟩ := hvalid k hk
    have := buffSize.fits
    exact inside_execute_iff hstaged hne (by omega)
  rw [forall₂_congr hiff]
  constructor
  · exact fun h k hk => h k (List.mem_of_mem_tail hk)
  · intro h k hk
    cases hcalls : (recvRequest lexicalCast uriRelaxed queryStart buffSize pieces).1 with
    | nil => exact absurd hk (by simp [hcalls])
    | cons first rest =>
      rw [hcalls] at hk h
      rcases List.mem_cons.mp hk with rfl | hk
      · have hfirst : k.before = .fresh uriRelaxed queryStart :=
          hhead k (by rw [show (recvHead _ _ _ _ _).1 = _ from hcalls]; exact rfl)
        rw [hfirst]
        exact queryInReach_fresh uriRelaxed queryStart k.data
      · exact h k hk

/-- A request whose query is begun in the first read and ended by the first byte of the second. -/
theorem query_resumed_out_of_range :
    ¬∀ k ∈ (recvRequest (fun _ => none) false 0 ⟨4096, by decide, by decide⟩
        [asciiText ['G', 'E', 'T', ' ', '/', '?', 'a'],
          asciiText [' ', 'H', 'T', 'T', 'P', '/', '1', '.', '1', '\r', '\n', '\r', '\n']]).1,
      ∀ cb ∈ (k.before.execute k.data).calls, cb.Inside k.data.length := by
  decide +kernel

end Run

end Bobliew.Http
