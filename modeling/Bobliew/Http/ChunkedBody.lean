import Bobliew.Http.CallbackRanges
import Bobliew.Http.Connection

/-!
# Chunked bodies

The loop over the chunks subtracts the length of a size line from `len` twice. Every chunk therefore
uses up its size line once more than it was sent, and what arrives is not enough for the terminating
chunk: a run that takes the size lines that were sent for size lines, keeps `len` in its range and
collects as many bytes as were sent would have to use up more than arrives.

A run whose reads are single bytes does not get that far. The first byte of a size line is consumed
without finishing it, and `len` drops below zero.
-/

namespace Bobliew.Http

open Ragel

/-! ## One call of the parser -/

/-- The actions that a call performs from a machine state on, with their offsets. -/
def responsePerformed (cs : Option (List (Thread ResponseAction))) (data : Bytes) :
    List (ℕ × ResponseAction) :=
  (scan ResponseAction.breaks data cs).st

/-- The offsets of the current call are behind the position `k`. -/
structure Recorded (k : ℕ) (q : HttpclientParser) : Prop where
  mark : q.mark ≤ k
  fieldStart : q.fieldStart ≤ k
  fieldLen : q.fieldLen ≤ k

section Offsets

variable {k p : ℕ} {s : ResponseHandling} {data : Bytes}

/-- Later positions. -/
theorem Recorded.mono {q : HttpclientParser} (h : Recorded k q) (hk : k ≤ p) : Recorded p q :=
  ⟨h.mark.trans hk, h.fieldStart.trans hk, h.fieldLen.trans hk⟩

/-- Storing a string changes no offset. -/
theorem parser_store (text : Option Bytes) (f : Bytes → HttpResponse → HttpResponse) :
    (s.store text f).self.parser = s.self.parser := by
  cases text <;> rfl

/-- Storing a field changes no offset. -/
theorem parser_onResponseHttpField (field flen value vlen : ℕ) :
    (s.onResponseHttpField data field flen value vlen).self.parser = s.self.parser := by
  unfold ResponseHandling.onResponseHttpField
  split
  · rfl
  · split
    · rfl
    · exact parser_store _ _

/-- Storing a version changes no offset. -/
theorem parser_onResponseVersion (memory : Bytes) (length : ℕ) :
    (s.onResponseVersion memory length).self.parser = s.self.parser := by
  unfold ResponseHandling.onResponseVersion
  split <;> rfl

/-- An action records offsets up to its position. -/
theorem Recorded.perform (h : Recorded k s.self.parser) (hk : k ≤ p) (a : ResponseAction) :
    Recorded p (s.perform data p a).self.parser := by
  have hp := h.mono hk
  unfold ResponseHandling.perform
  split
  · exact hp
  · cases a with
    | mark => exact ⟨Nat.le_refl p, hp.fieldStart, hp.fieldLen⟩
    | startField => exact ⟨hp.mark, Nat.le_refl p, hp.fieldLen⟩
    | writeField =>
      refine ⟨hp.mark, hp.fieldStart, ?_⟩
      change lenFrom s.self.parser.fieldStart p ≤ p
      rw [lenFrom, if_pos hp.fieldStart]
      exact Nat.sub_le p _
    | startValue => exact ⟨Nat.le_refl p, hp.fieldStart, hp.fieldLen⟩
    | writeValue =>
      simp only [parser_onResponseHttpField]
      exact hp
    | reasonPhrase =>
      simp only [parser_store]
      exact hp
    | statusCode => exact ⟨hp.mark, hp.fieldStart, hp.fieldLen⟩
    | httpVersion =>
      simp only [parser_onResponseVersion]
      exact hp
    | _ => exact ⟨hp.mark, hp.fieldStart, hp.fieldLen⟩

/-- A sequence of actions records offsets inside the buffer. -/
theorem Recorded.foldl {n : ℕ} (h : Recorded k s.self.parser) (hk : k ≤ n)
    {l : List (ℕ × ResponseAction)} (hsorted : l.Pairwise fun x y => x.1 ≤ y.1)
    (hl : ∀ x ∈ l, k ≤ x.1 ∧ x.1 ≤ n) :
    Recorded n (l.foldl (fun s x => s.perform data x.1 x.2) s).self.parser := by
  induction l generalizing s k with
  | nil => exact h.mono hk
  | cons x l ih =>
    obtain ⟨hfirst, hrest⟩ := List.pairwise_cons.mp hsorted
    obtain ⟨hkx, hxn⟩ := hl x List.mem_cons_self
    refine ih (h.perform hkx x.2) hxn hrest fun y hy => ⟨hfirst y hy, ?_⟩
    exact (hl y (List.mem_cons_of_mem x hy)).2

end Offsets

namespace HttpResponseParser

/-- The parser that a call of `execute` starts from. -/
def initialised (p : HttpResponseParser) (chunck : Bool) : HttpResponseParser :=
  if chunck then { p with parser := httpclientParserInit } else p

/-- What the actions of a call work on when it ends. -/
def ran (p : HttpResponseParser) (data : Bytes) : ResponseHandling :=
  (responsePerformed p.parser.cs data).foldl (fun s x => s.perform data x.1 x.2) p.entered.st

/-- The parser when a call ends. -/
def after (p : HttpResponseParser) (data : Bytes) : HttpResponseParser :=
  { (p.ran data).self with
    parser := { (p.ran data).self.parser with cs := (scan ResponseAction.breaks data p.parser.cs).cs } }

/-- The parser is finished in the first final state. -/
theorem isFinished_of_cs {p : HttpResponseParser} {ts : List (Thread ResponseAction)}
    (h : p.parser.cs = some ts) : p.isFinished = (isFinal ts && ts.all Rx.spent) := by
  rw [isFinished, h]
  rfl

/-- The checks of a call do not fail. -/
theorem checks_ran (p : HttpResponseParser) {data : Bytes} (hdata : data ≠ []) :
    checks (p.ran data).self.parser data.length = true := by
  obtain ⟨hsorted, hlt⟩ := scan_sorted ResponseAction.breaks data p.parser.cs
  have hpos := List.length_pos_iff.mpr hdata
  have hentered : Recorded 0 p.entered.st.self.parser := ⟨Nat.le_refl 0, Nat.le_refl 0, Nat.le_refl 0⟩
  have hpositions : ∀ x ∈ responsePerformed p.parser.cs data, 0 ≤ x.1 ∧ x.1 ≤ data.length - 1 := by
    intro x hx
    have hbefore := hlt x hx
    have hinside := scan_p_le ResponseAction.breaks data p.parser.cs
    omega
  have hran : Recorded (data.length - 1) (p.ran data).self.parser :=
    hentered.foldl (Nat.zero_le (data.length - 1)) hsorted hpositions
  obtain ⟨hmark, hstart, hlen⟩ := hran
  simp only [checks, Bool.and_eq_true, decide_eq_true_eq]
  omega

/-- A call of `execute` performs the scanned actions one after the other. -/
theorem execute_eq (p : HttpResponseParser) {data : Bytes} (hdata : data ≠ []) (chunck : Bool) :
    p.execute data chunck =
      { self := (p.initialised chunck).after data
        thrown := ((p.initialised chunck).ran data).thrown
        nparse := (scan ResponseAction.breaks data (p.initialised chunck).parser.cs).p } := by
  have hexec := exec_eq_scan (ResponseHandling.perform data) ResponseAction.breaks data
    (p.initialised chunck).parser.cs 0 (p.initialised chunck).entered.st
  have hchecks := (p.initialised chunck).checks_ran hdata
  unfold execute
  simp only
  rw [show (if chunck = true then { p with parser := httpclientParserInit } else p) = p.initialised chunck from rfl,
    show (p.initialised chunck).entered = ⟨(p.initialised chunck).parser.cs, 0,
      (p.initialised chunck).entered.st, false⟩ from rfl, hexec]
  unfold after
  unfold ran responsePerformed at hchecks ⊢
  simp only [Nat.add_zero]
  rw [if_pos hchecks]

end HttpResponseParser

/-! ## What the loops use up -/

/-- The loop that reads the rest of a chunk takes as many bytes as it is asked for. -/
theorem readLeft_append {buffSize : BufferSize} {rounds left : ℕ} {pieces pieces' : List Bytes} {got : Bytes}
    (h : readLeft buffSize rounds left pieces = some (got, pieces')) :
    got.length = left ∧ got ++ pieces'.flatten = pieces.flatten := by
  induction rounds generalizing left pieces got with
  | zero =>
    simp only [readLeft] at h
    split at h
    · rename_i hzero
      obtain ⟨rfl, rfl⟩ := Prod.mk.inj (Option.some.inj h)
      exact ⟨hzero.symm, rfl⟩
    · exact absurd h nofun
  | succ rounds ih =>
    simp only [readLeft] at h
    split at h
    · rename_i hzero
      obtain ⟨rfl, rfl⟩ := Prod.mk.inj (Option.some.inj h)
      exact ⟨hzero.symm, rfl⟩
    · obtain ⟨⟨first, pieces₁⟩, hfirst, h⟩ := Option.bind_eq_some_iff.mp h
      obtain ⟨⟨more, pieces₂⟩, hmore, h⟩ := Option.map_eq_some_iff.mp h
      obtain ⟨rfl, rfl⟩ := Prod.mk.inj h
      obtain ⟨hlength, hflatten⟩ := ih hmore
      have hfits := (readSome_eq_some hfirst).2
      refine ⟨?_, ?_⟩
      · rw [List.length_append, hlength]
        exact Nat.add_sub_cancel' (hfits.trans (Nat.min_le_left _ _))
      · rw [List.append_assoc, hflatten]
        exact readSome_append hfirst

/-- The bytes that are in the buffer or have not been read. -/
def available (data : Bytes) (pieces : List Bytes) : ℕ :=
  data.length + pieces.flatten.length

/-- Small numbers are not changed by the conversion to `int`. -/
theorem toInt_of_lt {n : ℤ} (hlow : -2 ^ 31 ≤ n) (hhigh : n < 2 ^ 31) : toInt n = n :=
  Int.bmod_eq_of_le (by omega) (by omega)

section Accounting

variable {buffSize : BufferSize}

/-- Filling the buffer loses nothing, and leaves some bytes in it. -/
theorem fillBuffer_available {start : Bool} {data data' : Bytes} {pieces pieces' : List Bytes}
    (hdata : data.length ≤ buffSize.size)
    (h : fillBuffer buffSize start data pieces = some (data', pieces')) :
    data' ≠ [] ∧ data'.length ≤ buffSize.size ∧ available data' pieces' = available data pieces := by
  unfold fillBuffer at h
  split at h
  · obtain ⟨⟨got, rest⟩, hgot, h⟩ := Option.map_eq_some_iff.mp h
    obtain ⟨rfl, rfl⟩ := Prod.mk.inj h
    obtain ⟨hne, hfits⟩ := readSome_eq_some hgot
    have hflatten := congrArg List.length (readSome_append hgot)
    rw [List.length_append] at hflatten
    refine ⟨by simp [hne], ?_, ?_⟩
    · simp only [List.length_append]
      omega
    · simp only [available, List.length_append]
      omega
  · rename_i hfull
    obtain ⟨rfl, rfl⟩ := Prod.mk.inj (Option.some.inj h)
    refine ⟨fun hnil => hfull ?_, hdata, rfl⟩
    simp [hnil]

/-- A call of `execute` consumes bytes of its buffer. -/
theorem nparse_le (p : HttpResponseParser) {data : Bytes} (hdata : data ≠ []) (chunck : Bool) :
    (p.execute data chunck).nparse ≤ data.length := by
  rw [p.execute_eq hdata]
  exact scan_p_le _ _ _

/-- A finished size line uses up its own length twice. -/
theorem recvSizeLine_available {rounds : ℕ} {start : Bool} {p p' : HttpResponseParser} {data data' : Bytes}
    {pieces pieces' : List Bytes} (hdata : data.length ≤ buffSize.size)
    (h : (recvSizeLine buffSize rounds start p data pieces).2 = .finished p' data' pieces') :
    data'.length ≤ buffSize.size ∧
      ∃ line, (recvSizeLine buffSize rounds start p data pieces).1.lines = [line] ∧
        available data' pieces' + 2 * line.length ≤ available data pieces := by
  induction rounds generalizing start p data pieces with
  | zero => exact absurd h nofun
  | succ rounds ih =>
    rw [recvSizeLine] at h ⊢
    cases hfill : fillBuffer buffSize start data pieces with
    | none => rw [hfill] at h; exact absurd h nofun
    | some filled =>
      obtain ⟨bytes, rest⟩ := filled
      obtain ⟨hne, hfits, havailable⟩ := fillBuffer_available hdata hfill
      rw [hfill] at h
      have hparse := nparse_le p hne true
      have hbuff := buffSize.fits
      simp only at h ⊢
      generalize p.execute bytes true = e at h hparse ⊢
      have hlen : toInt (bytes.length - e.nparse) = bytes.length - e.nparse :=
        toInt_of_lt (by omega) (by omega)
      have hlen' : toInt (bytes.length - e.nparse - e.nparse) = bytes.length - e.nparse - e.nparse :=
        toInt_of_lt (by omega) (by omega)
      simp only [hlen, hlen'] at h ⊢
      by_cases hthrown : e.thrown = true
      · simp [hthrown] at h
      by_cases herror : e.self.hasError = true
      · simp [hthrown, herror] at h
      by_cases hfull : (bytes.length - e.nparse : ℤ) = buffSize.size
      · simp [hthrown, herror, hfull] at h
      by_cases hfull' : (bytes.length - e.nparse - e.nparse : ℤ) = buffSize.size
      · simp [hthrown, herror, hfull, hfull'] at h
      by_cases hneg : (bytes.length - e.nparse - e.nparse : ℤ) < 0
      · simp only [hthrown, herror, hfull, hfull', hneg, if_true, if_false, Bool.false_eq_true] at h
        split at h <;> exact absurd h nofun
      simp only [hthrown, herror, hfull, hfull', hneg, if_false, Bool.false_eq_true] at h ⊢
      have hrest : ((bytes.drop e.nparse).take (bytes.length - e.nparse - e.nparse : ℤ).toNat).length +
          2 * e.nparse = bytes.length := by
        rw [List.length_take, List.length_drop]
        omega
      by_cases hfinished : e.self.isFinished = true
      · simp only [hfinished, if_true] at h ⊢
        obtain ⟨rfl, rfl, rfl⟩ := SizeLine.finished.inj h
        refine ⟨by omega, bytes.take e.nparse, rfl, ?_⟩
        rw [List.length_take, Nat.min_eq_left hparse, ← havailable]
        simp only [available]
        omega
      · simp only [hfinished, if_false, Bool.false_eq_true] at h ⊢
        obtain ⟨hfits', line, hline, hused⟩ := ih (by omega) h
        refine ⟨hfits', line, hline, ?_⟩
        rw [← havailable]
        simp only [available] at hused ⊢
        omega

/-- A chunk uses up its length and that of the line end behind it. -/
theorem takeChunk_available {rounds : ℕ} {contentLen : ℤ} {data data' body body' : Bytes}
    {pieces pieces' : List Bytes} (hdata : data.length ≤ buffSize.size)
    (h : takeChunk buffSize rounds contentLen data pieces body = .ok (body', data', pieces')) :
    data'.length ≤ buffSize.size ∧ (body'.length : ℤ) = body.length + contentLen ∧
      (available data' pieces' : ℤ) + contentLen + 2 = available data pieces := by
  unfold takeChunk at h
  split at h
  · rename_i hfits
    split at h
    · exact absurd h nofun
    · rename_i hneg
      obtain ⟨rfl, rfl, rfl⟩ : _ ∧ _ ∧ _ := by simpa using h
      refine ⟨?_, ?_, ?_⟩
      · rw [List.length_drop]
        omega
      · rw [List.length_append, List.length_take]
        omega
      · simp only [available, List.length_drop]
        omega
  · rename_i hmissing
    split at h
    · exact absurd h nofun
    · rename_i got pieces₁ hgot
      obtain ⟨hlength, hflatten⟩ := readLeft_append hgot
      have hflatten' := congrArg List.length hflatten
      rw [List.length_append] at hflatten'
      simp only at h
      split at h
      · exact absurd h nofun
      · rename_i hlong
        obtain ⟨rfl, rfl, rfl⟩ : _ ∧ _ ∧ _ := by simpa using h
        simp only [List.length_append] at hlong
        refine ⟨Nat.zero_le _, ?_, ?_⟩
        · simp only [List.length_take, List.length_append]
          omega
        · simp only [available, List.length_nil]
          omega

/-- Taking a chunk ends in a body only if the loop goes on. -/
theorem takeChunk_ne_body {rounds : ℕ} {contentLen : ℤ} {data body b : Bytes} {pieces : List Bytes} :
    takeChunk buffSize rounds contentLen data pieces body ≠ .error (.body b) := by
  unfold takeChunk
  split
  · split <;> exact nofun
  · split
    · exact nofun
    · simp only
      split <;> exact nofun

/-- What the size lines of a run use up, each of them twice and with a line end behind its chunk. -/
def usedUp (lines : List Bytes) : ℕ :=
  (lines.map fun line => 2 * line.length + 2).sum

/-- A run that collects a body uses up the body and its size lines twice. -/
theorem recvChunks_available {rounds : ℕ} {p : HttpResponseParser} {data body body' : Bytes}
    {pieces : List Bytes} (hdata : data.length ≤ buffSize.size)
    (h : (recvChunks buffSize rounds p data pieces body).2 = .body body') :
    body'.length + usedUp (recvChunks buffSize rounds p data pieces body).1.lines ≤
      body.length + available data pieces := by
  induction rounds generalizing p data pieces body with
  | zero => exact absurd h nofun
  | succ rounds ih =>
    rw [recvChunks] at h ⊢
    cases hheader : (recvSizeLine buffSize rounds true p data pieces).2 with
    | null => simp [hheader] at h
    | thrown => simp [hheader] at h
    | outOfRange => simp [hheader] at h
    | finished p₁ data₁ pieces₁ =>
      obtain ⟨hfits₁, line, hline, hused₁⟩ := recvSizeLine_available hdata hheader
      simp only [hheader] at h ⊢
      cases htake : takeChunk buffSize rounds p₁.parser.contentLen data₁ pieces₁ body with
      | error outcome =>
        simp only [htake] at h
        subst h
        exact absurd htake takeChunk_ne_body
      | ok taken =>
        obtain ⟨body₂, data₂, pieces₂⟩ := taken
        obtain ⟨hfits₂, hbody₂, hused₂⟩ := takeChunk_available hfits₁ htake
        simp only [htake] at h ⊢
        by_cases hdone : p₁.parser.chunksDone = true
        · simp only [hdone, if_true, BodyOutcome.body.injEq] at h ⊢
          subst h
          simp only [ChunkLog.append, hline, usedUp, List.append_nil, List.map_cons, List.map_nil,
            List.sum_cons, List.sum_nil]
          omega
        · simp only [hdone, if_false, Bool.false_eq_true] at h ⊢
          have hnext := ih hfits₂ h
          simp only [ChunkLog.append, hline, usedUp, List.append_nil, List.singleton_append, List.map_cons,
            List.sum_cons] at hnext ⊢
          omega

end Accounting

/-! ## The head -/

/-- The actions that announce chunks. -/
def ResponseAction.announces : ResponseAction → Bool
  | .transChunked => true
  | .chunkSize => true
  | _ => false

section Head

variable {s : ResponseHandling} {data : Bytes} {p : ℕ}

/-- An action announces chunks or leaves the flag as it is. -/
theorem chunked_perform (a : ResponseAction) (hgoes : s.thrown = false) :
    (s.perform data p a).self.parser.chunked = (s.self.parser.chunked || a.announces) := by
  unfold ResponseHandling.perform
  rw [if_neg (by simp [hgoes])]
  cases a with
  | writeValue => simp [parser_onResponseHttpField, ResponseAction.announces]
  | reasonPhrase => simp [parser_store, ResponseAction.announces]
  | statusCode => simp [parser_store, ResponseAction.announces]
  | httpVersion => simp [parser_onResponseVersion, ResponseAction.announces]
  | _ => simp [ResponseHandling.update, ResponseAction.announces]

/-- Nothing is performed after an exception. -/
theorem foldl_perform_of_thrown (hthrown : s.thrown = true) (l : List (ℕ × ResponseAction)) :
    l.foldl (fun s x => s.perform data x.1 x.2) s = s := by
  induction l with
  | nil => rfl
  | cons x l ih =>
    have hfirst : s.perform data x.1 x.2 = s := by
      unfold ResponseHandling.perform
      rw [if_pos hthrown]
    rw [List.foldl_cons, hfirst, ih]

/-- The flag after a sequence of actions without an exception. -/
theorem chunked_foldl {l : List (ℕ × ResponseAction)}
    (hgoes : (l.foldl (fun s x => s.perform data x.1 x.2) s).thrown = false) :
    (l.foldl (fun s x => s.perform data x.1 x.2) s).self.parser.chunked =
      (s.self.parser.chunked || l.any fun x => x.2.announces) := by
  induction l generalizing s with
  | nil => simp
  | cons x l ih =>
    have hs : s.thrown = false := by
      by_contra hthrown
      rw [Bool.not_eq_false] at hthrown
      rw [foldl_perform_of_thrown hthrown] at hgoes
      exact absurd (hthrown.symm.trans hgoes) (by decide)
    rw [List.foldl_cons, ih hgoes, chunked_perform x.2 hs, List.any_cons, Bool.or_assoc]

/-- No action stores a body. -/
theorem body_perform (a : ResponseAction) :
    (s.perform data p a).self.data.body = s.self.data.body := by
  have hstore : ∀ (text : Option Bytes) (f : Bytes → HttpResponse → HttpResponse),
      (∀ t r, (f t r).body = r.body) → (s.store text f).self.data.body = s.self.data.body := by
    intro text f hf
    cases text with
    | none => rfl
    | some t => exact hf t _
  unfold ResponseHandling.perform
  split
  · rfl
  · cases a with
    | writeValue =>
      simp only [ResponseHandling.onResponseHttpField]
      split
      · rfl
      · split
        · rfl
        · exact hstore _ _ fun _ _ => rfl
    | reasonPhrase => exact hstore _ _ fun _ _ => rfl
    | statusCode => rfl
    | httpVersion =>
      simp only [ResponseHandling.onResponseVersion]
      split <;> rfl
    | _ => rfl

/-- A call stores no body. -/
theorem body_after (q : HttpResponseParser) (bytes : Bytes) : (q.after bytes).data.body = q.data.body := by
  have hfold : ∀ (l : List (ℕ × ResponseAction)) (s : ResponseHandling),
      (l.foldl (fun s x => s.perform bytes x.1 x.2) s).self.data.body = s.self.data.body := by
    intro l
    induction l with
    | nil => exact fun s => rfl
    | cons x l ih => exact fun s => (ih _).trans (body_perform x.2)
  exact hfold _ _

end Head

/-- A head that `execute` accepts in one piece and that announces chunks. -/
structure AnnouncesChunks (head : Bytes) : Prop where
  returns : (HttpResponseParser.fresh.execute head false).thrown = false
  valid : (HttpResponseParser.fresh.execute head false).self.hasError = false
  finished : (HttpResponseParser.fresh.execute head false).self.isFinished = true
  whole : (HttpResponseParser.fresh.execute head false).nparse = head.length
  chunked : (HttpResponseParser.fresh.execute head false).self.parser.chunked = true

/-- What is left of a head that announces chunks, from a machine state on: it finishes the machine with
its last byte. -/
structure Finishes (cs : Option (List (Thread ResponseAction))) (head : Bytes) : Prop where
  unfinished : Unfinished ResponseAction.done cs
  whole : (scan ResponseAction.breaks head cs).p = head.length
  finished : ∃ ts, (scan ResponseAction.breaks head cs).cs = some ts ∧ (isFinal ts && ts.all Rx.spent) = true

section Finishes

variable {cs : Option (List (Thread ResponseAction))} {head : Bytes}

/-- The loop is left with the last byte of the head. -/
theorem Finishes.stopped (h : Finishes cs head) : (scan ResponseAction.breaks head cs).stopped = true := by
  by_contra hgoes
  rw [Bool.not_eq_true] at hgoes
  obtain ⟨ts, hts, hfinished⟩ := h.finished
  rw [Bool.and_eq_true] at hfinished
  have hunfinished := (unfinished_scan h.unfinished (by rfl) hgoes ts hts).2
  exact absurd (hunfinished.symm.trans hfinished.1) (by decide)

/-- A first part of the head does not finish the machine. -/
theorem Finishes.of_append {read rest : Bytes} (h : Finishes cs (read ++ rest)) (hrest : rest ≠ []) :
    (scan ResponseAction.breaks read cs).stopped = false ∧
      Finishes (scan ResponseAction.breaks read cs).cs rest := by
  have hmore := List.length_pos_iff.mpr hrest
  have hgoes : (scan ResponseAction.breaks read cs).stopped = false := by
    refine goes_of_append rest ?_
    rw [h.whole, List.length_append]
    omega
  have hwhole := h.whole
  have hfinished := h.finished
  rw [scan_append hgoes] at hwhole hfinished
  refine ⟨hgoes, unfinished_scan h.unfinished (by rfl) hgoes, ?_, hfinished⟩
  rw [List.length_append, Nat.add_comm read.length] at hwhole
  exact Nat.add_right_cancel hwhole

end Finishes

/-- A read does not make the pieces longer. -/
theorem readSome_bounded {m n : ℕ} {pieces pieces' : List Bytes} {got : Bytes}
    (h : readSome m pieces = some (got, pieces')) (hn : ∀ piece ∈ pieces, piece.length ≤ n) :
    got.length ≤ n ∧ ∀ piece ∈ pieces', piece.length ≤ n := by
  cases pieces with
  | nil => cases h
  | cons piece pieces =>
    obtain ⟨hpiece, hpieces⟩ := List.forall_mem_cons.mp hn
    simp only [readSome] at h
    split at h
    · cases h
    · split at h
      · obtain ⟨rfl, rfl⟩ := Prod.mk.inj (Option.some.inj h)
        exact ⟨hpiece, hpieces⟩
      · obtain ⟨rfl, rfl⟩ := Prod.mk.inj (Option.some.inj h)
        refine ⟨(List.length_take_le' _ _).trans hpiece, List.forall_mem_cons.mpr ⟨?_, hpieces⟩⟩
        rw [List.length_drop]
        omega

/-- What a finished head leaves: the rest of what arrives, in the buffer or not yet read. -/
structure LeftBehind (buffSize : BufferSize) (pieces : List Bytes) (rest : Bytes) (p : HttpResponseParser)
    (left : Bytes) (pieces' : List Bytes) : Prop where
  body : p.data.body = []
  chunked : p.parser.chunked = true
  rest : left ++ pieces'.flatten = rest
  fits : left.length ≤ buffSize.size
  bounded : ∀ n, (∀ piece ∈ pieces, piece.length ≤ n) →
    left.length < n ∧ ∀ piece ∈ pieces', piece.length ≤ n

/-- A round of the loop over the head, on a non-empty read. -/
theorem recvResponseHead_succ {buffSize : BufferSize} (rounds : ℕ) {self : HttpResponseParser}
    {pieces pieces' : List Bytes} {got : Bytes} (hgot : readSome buffSize.size pieces = some (got, pieces')) :
    recvResponseHead buffSize (rounds + 1) self [] pieces =
      if (self.ran got).thrown then .thrown
      else
        let left := got.drop (scan ResponseAction.breaks got self.parser.cs).p
        if (self.after got).hasError then .null
        else if left.length = buffSize.size then .null
        else if (self.after got).isFinished then .finished (self.after got) left pieces'
        else recvResponseHead buffSize rounds (self.after got) left pieces' := by
  obtain ⟨hne, -⟩ := readSome_eq_some hgot
  rw [recvResponseHead, List.length_nil, Nat.sub_zero, hgot]
  simp only [List.nil_append]
  rw [self.execute_eq hne false]
  rfl

/-- A read that begins a stream contains its head, or is a part of it. -/
theorem head_cases {got more head rest : Bytes} (h : got ++ more = head ++ rest) :
    (∃ extra, got = head ++ extra ∧ rest = extra ++ more) ∨
      ∃ head', head' ≠ [] ∧ head = got ++ head' ∧ more = head' ++ rest := by
  rcases List.append_eq_append_iff.mp h with ⟨head', hhead, hrest⟩ | ⟨extra, hextra, hrest⟩
  · by_cases hnil : head' = []
    · subst hnil
      exact .inl ⟨[], by simp [hhead], by simpa using hrest.symm⟩
    · exact .inr ⟨head', hnil, hhead, hrest⟩
  · exact .inl ⟨extra, hextra, hrest⟩

section LastRead

variable {self : HttpResponseParser} {head : Bytes}

/-- A read that contains the head is taken up to the end of the head. -/
theorem Finishes.after_head (h : Finishes self.parser.cs head) (extra : Bytes) :
    (scan ResponseAction.breaks (head ++ extra) self.parser.cs).p = head.length ∧
      (self.after (head ++ extra)).isFinished = true ∧
        responsePerformed self.parser.cs (head ++ extra) = responsePerformed self.parser.cs head := by
  have hscan := scan_append_of_stopped h.stopped extra
  obtain ⟨ts, hts, hfinished⟩ := h.finished
  have hcs : (self.after (head ++ extra)).parser.cs = some ts := (congrArg (·.cs) hscan).trans hts
  exact ⟨by rw [hscan, h.whole], by rw [HttpResponseParser.isFinished_of_cs hcs, hfinished], congrArg (·.st) hscan⟩

/-- A read that is a part of the head is taken whole, and the rest of the head is still to come. -/
theorem Finishes.after_part {got head' : Bytes} (h : Finishes self.parser.cs (got ++ head')) (hne : head' ≠ []) :
    Finishes (self.after got).parser.cs head' ∧
      (scan ResponseAction.breaks got self.parser.cs).p = got.length ∧ (self.after got).isFinished = false ∧
        responsePerformed self.parser.cs (got ++ head') = responsePerformed self.parser.cs got ++
          (responsePerformed (self.after got).parser.cs head').map (fun x => (x.1 + got.length, x.2)) := by
  obtain ⟨hgoes, hrest⟩ := h.of_append hne
  refine ⟨hrest, scan_p hgoes, ?_, ?_⟩
  · cases hcs : (self.after got).parser.cs with
    | none => rw [HttpResponseParser.isFinished, hcs]; rfl
    | some ts =>
      rw [HttpResponseParser.isFinished_of_cs hcs, (hrest.unfinished ts hcs).2]
      rfl
  · rw [responsePerformed, scan_append hgoes]
    rfl

end LastRead

/-- The loop over a head that announces chunks finishes with the head only. -/
theorem recvResponseHead_finished {buffSize : BufferSize} {rounds : ℕ} {self p : HttpResponseParser}
    {pieces pieces' : List Bytes} {left head rest : Bytes} (hhead : Finishes self.parser.cs head)
    (hne : head ≠ [])
    (hchunked : (self.parser.chunked ||
      (responsePerformed self.parser.cs head).any fun x => x.2.announces) = true)
    (hbody : self.data.body = []) (hflat : pieces.flatten = head ++ rest)
    (h : recvResponseHead buffSize rounds self [] pieces = .finished p left pieces') :
    LeftBehind buffSize pieces rest p left pieces' := by
  induction rounds generalizing self pieces head with
  | zero => exact absurd h nofun
  | succ rounds ih =>
    cases hread : readSome buffSize.size pieces with
    | none =>
      rw [recvResponseHead, List.length_nil, Nat.sub_zero, hread] at h
      exact absurd h nofun
    | some read =>
      obtain ⟨got, pieces₁⟩ := read
      obtain ⟨hgot, hfits⟩ := readSome_eq_some hread
      rw [recvResponseHead_succ rounds hread] at h
      split at h
      · exact absurd h nofun
      rename_i hgoes
      rw [Bool.not_eq_true] at hgoes
      simp only at h
      split at h
      · exact absurd h nofun
      split at h
      · exact absurd h nofun
      have hran : (self.ran got).self.parser.chunked =
          (self.parser.chunked || (responsePerformed self.parser.cs got).any fun x => x.2.announces) :=
        chunked_foldl hgoes
      rcases head_cases ((readSome_append hread).trans hflat) with ⟨extra, rfl, rfl⟩ | ⟨head', hne', rfl, hflat'⟩
      · obtain ⟨hp, hfinished, hperformed⟩ := hhead.after_head extra
        rw [hp, List.drop_left, hfinished] at h
        obtain ⟨rfl, rfl, rfl⟩ := ResponseHead.finished.inj h
        refine ⟨(body_after _ _).trans hbody, ?_, rfl, ?_, fun n hn => ?_⟩
        · rw [← hchunked, ← hperformed]
          exact hran
        · rw [List.length_append] at hfits
          omega
        · obtain ⟨hbound, hbounds⟩ := readSome_bounded hread hn
          have hpos := List.length_pos_iff.mpr hne
          rw [List.length_append] at hbound
          exact ⟨by omega, hbounds⟩
      · obtain ⟨hrest, hp, hnot, hperformed⟩ := hhead.after_part hne'
        rw [hnot, hp, List.drop_length] at h
        have hchunked' : ((self.after got).parser.chunked ||
            (responsePerformed (self.after got).parser.cs head').any fun x => x.2.announces) = true := by
          rw [← hchunked, hperformed, List.any_append, List.any_map, ← Bool.or_assoc, ← hran]
          rfl
        have hnext := ih hrest hne' hchunked' ((body_after _ _).trans hbody) hflat' h
        refine ⟨hnext.body, hnext.chunked, hnext.rest, hnext.fits, fun n hn => ?_⟩
        exact hnext.bounded n (readSome_bounded hread hn).2

/-! ## What is sent -/

/-- A hexadecimal digit. -/
def hexDigit (d : ℕ) : UInt8 :=
  UInt8.ofNat (if d < 10 then 48 + d else 87 + d)

/-- A size in hexadecimal. -/
def hexSize (n : ℕ) : Bytes :=
  if n = 0 then [48] else (Nat.digits 16 n).reverse.map hexDigit

/-- A size line. -/
def sizeLine (n : ℕ) : Bytes :=
  hexSize n ++ [13, 10]

/-- Chunks as they are sent, with the terminating one. -/
def chunkedBody (chunks : List Bytes) : Bytes :=
  (chunks.map fun c => sizeLine c.length ++ c ++ [13, 10]).flatten ++ sizeLine 0 ++ [13, 10]

/-- The size lines that are sent. -/
def sizeLines (chunks : List Bytes) : List Bytes :=
  chunks.map (fun c => sizeLine c.length) ++ [sizeLine 0]

/-- A size begins with a hexadecimal digit. -/
theorem hexSize_eq_cons (n : ℕ) : ∃ d < 16, ∃ more, hexSize n = hexDigit d :: more := by
  unfold hexSize
  split
  · exact ⟨0, by decide, [], rfl⟩
  · rename_i hn
    have hdigits : (Nat.digits 16 n).reverse ≠ [] := by
      simpa [Nat.digits_eq_nil_iff_eq_zero] using hn
    obtain ⟨d, ds, hds⟩ := List.exists_cons_of_ne_nil hdigits
    have hmem : d ∈ Nat.digits 16 n := by
      rw [← List.mem_reverse, hds]
      exact List.mem_cons_self
    exact ⟨d, Nat.digits_lt_base (by decide) hmem, ds.map hexDigit, by rw [hds]; rfl⟩

/-- What is sent begins with a hexadecimal digit. -/
theorem chunkedBody_eq_cons (chunks : List Bytes) :
    ∃ d < 16, ∃ more, chunkedBody chunks = hexDigit d :: more := by
  cases chunks with
  | nil => exact ⟨0, by decide, _, rfl⟩
  | cons c chunks =>
    obtain ⟨d, hd, more, hmore⟩ := hexSize_eq_cons c.length
    exact ⟨d, hd, _, by simp [chunkedBody, sizeLine, hmore]; rfl⟩

/-- Sending chunks takes less than reading their size lines twice. -/
theorem length_chunkedBody_lt (chunks : List Bytes) :
    (chunkedBody chunks).length < chunks.flatten.length + usedUp (sizeLines chunks) := by
  have hsum : ∀ chunks : List Bytes,
      ((chunks.map fun c => sizeLine c.length ++ c ++ [13, 10]).flatten).length ≤
        chunks.flatten.length + usedUp (chunks.map fun c => sizeLine c.length) := by
    intro chunks
    induction chunks with
    | nil => simp [usedUp]
    | cons c chunks ih =>
      simp only [usedUp, List.map_cons, List.flatten_cons, List.length_append, List.sum_cons, List.length_cons,
        List.length_nil] at ih ⊢
      omega
  have hlast : (sizeLine 0).length = 3 := rfl
  have hchunks := hsum chunks
  simp only [chunkedBody, sizeLines, usedUp, List.map_append, List.sum_append, List.length_append, List.map_cons,
    List.map_nil, List.sum_cons, List.sum_nil, List.length_cons, List.length_nil, hlast] at hchunks ⊢
  omega

/-! ## Receiving what is sent -/

/-- A run returns a response with the given body, and keeps `len` inside the buffer. -/
structure Receives (buffSize : BufferSize) (run : ChunkLog × ResponseOutcome) (body : Bytes) : Prop where
  returned : ∃ r, run.2 = .response r ∧ r.body = body
  inRange : ∀ len ∈ run.1.lens, 0 ≤ len ∧ len ≤ buffSize.size

/-- The machine on one hexadecimal digit. -/
theorem scan_hexDigit : ∀ d < 16,
    let e := scan ResponseAction.breaks [hexDigit d] (some httpclientParserStart)
    e.p = 1 ∧ e.st = [(0, .mark)] ∧ e.cs.isSome ∧
      (e.cs.elim false fun ts => isFinal ts && ts.all Rx.spent) = false := by
  decide +kernel

/-- One hexadecimal digit is consumed and does not finish a size line. -/
theorem execute_hexDigit (p : HttpResponseParser) {d : ℕ} (hd : d < 16) :
    (p.execute [hexDigit d] true).thrown = false ∧ (p.execute [hexDigit d] true).nparse = 1 ∧
      (p.execute [hexDigit d] true).self.isFinished = false := by
  obtain ⟨hp, hst, -, hfinished⟩ := scan_hexDigit d hd
  have hcs : (p.initialised true).parser.cs = some httpclientParserStart := rfl
  rw [p.execute_eq (List.cons_ne_nil _ _)]
  refine ⟨?_, ?_, ?_⟩
  · simp only [HttpResponseParser.ran, responsePerformed, hcs, hst]
    rfl
  · simp only [hcs, hp]
  · simp only [HttpResponseParser.isFinished, HttpResponseParser.after, hcs]
    exact hfinished

/-- A size line of which a single byte is read makes `len` negative. -/
theorem recvSizeLine_hexDigit (buffSize : BufferSize) (rounds : ℕ) (p : HttpResponseParser) {pieces : List Bytes}
    {d : ℕ} (hd : d < 16) {more : Bytes} (hpieces : pieces.flatten = hexDigit d :: more)
    (hbounded : ∀ piece ∈ pieces, piece.length ≤ 1) :
    (recvSizeLine buffSize rounds true p [] pieces).2 = .null ∨
      -1 ∈ (recvSizeLine buffSize rounds true p [] pieces).1.lens := by
  cases rounds with
  | zero => exact .inl rfl
  | succ rounds =>
    rw [recvSizeLine]
    cases hfill : fillBuffer buffSize true [] pieces with
    | none => exact .inl rfl
    | some filled =>
      obtain ⟨bytes, rest⟩ := filled
      obtain ⟨⟨got, pieces'⟩, hgot, hbytes⟩ := Option.map_eq_some_iff.mp hfill
      obtain ⟨rfl, rfl⟩ := Prod.mk.inj hbytes
      obtain ⟨hne, -⟩ := readSome_eq_some hgot
      have hone := (readSome_bounded hgot hbounded).1
      have hfirst : got = [hexDigit d] := by
        have happend := (readSome_append hgot).trans hpieces
        cases got with
        | nil => exact absurd rfl hne
        | cons c got =>
          obtain rfl : got = [] := by simpa using hone
          rw [(List.cons.inj happend).1]
      subst hfirst
      obtain ⟨hthrown, hnparse, hfinished⟩ := execute_hexDigit p hd
      simp only [List.nil_append, hthrown, hnparse, hfinished]
      have hzero : toInt (((1 : ℕ) : ℤ) - (1 : ℕ)) = 0 := by decide
      have hminus : toInt (0 - ((1 : ℕ) : ℤ)) = -1 := by decide
      have hpos := buffSize.pos
      simp only [List.length_singleton, hzero, hminus]
      split
      · exact absurd ‹_› (by decide)
      · split
        · exact .inl rfl
        · rw [if_neg (by omega), if_neg (by omega), if_pos (by decide)]
          exact .inr (by simp)

/-- What a run does with chunks that arrive byte by byte. -/
theorem recvChunks_hexDigit (buffSize : BufferSize) (rounds : ℕ) (p : HttpResponseParser) {pieces : List Bytes}
    {d : ℕ} (hd : d < 16) {more : Bytes} (hpieces : pieces.flatten = hexDigit d :: more)
    (hbounded : ∀ piece ∈ pieces, piece.length ≤ 1) :
    (recvChunks buffSize rounds p [] pieces []).2 = .null ∨
      -1 ∈ (recvChunks buffSize rounds p [] pieces []).1.lens := by
  cases rounds with
  | zero => exact .inl rfl
  | succ rounds =>
    rw [recvChunks]
    rcases recvSizeLine_hexDigit buffSize rounds p hd hpieces hbounded with hnull | hminus
    · simp only [hnull]
      exact .inl trivial
    · right
      cases (recvSizeLine buffSize rounds true p [] pieces).2 with
      | null => exact hminus
      | thrown => exact hminus
      | outOfRange => exact hminus
      | finished p₁ data₁ pieces₁ =>
        simp only
        split
        · exact hminus
        · split
          · exact List.mem_append_left _ hminus
          · exact List.mem_append_left _ (List.mem_append_left _ hminus)

/-- A head that announces chunks, as the loop over the head reads it. -/
theorem AnnouncesChunks.finishes {head : Bytes} (h : AnnouncesChunks head) :
    head ≠ [] ∧ Finishes (some httpclientParserStart) head ∧
      (responsePerformed (some httpclientParserStart) head).any (fun x => x.2.announces) = true := by
  have hne : head ≠ [] := by
    rintro rfl
    exact absurd h.whole (by decide)
  obtain ⟨hreturns, hvalid, hfinished, hwhole, hchunked⟩ := h
  rw [HttpResponseParser.fresh.execute_eq hne] at hreturns hvalid hfinished hwhole hchunked
  refine ⟨hne, ⟨?_, hwhole, ?_⟩, ?_⟩
  · rintro _ ⟨⟩
    refine ⟨fun t ht => ?_, by decide +kernel⟩
    rw [List.mem_singleton.mp ht]
    exact ⟨_, _, rfl⟩
  · change ((HttpResponseParser.fresh.after head).parser.cs.elim false fun ts => isFinal ts && ts.all Rx.spent) =
      true at hfinished
    cases hcs : (scan ResponseAction.breaks head (some httpclientParserStart)).cs with
    | none =>
      rw [show (HttpResponseParser.fresh.after head).parser.cs = none from hcs] at hfinished
      exact absurd hfinished (by decide)
    | some ts =>
      rw [show (HttpResponseParser.fresh.after head).parser.cs = some ts from hcs] at hfinished
      exact ⟨ts, rfl, hfinished⟩
  · have hran := chunked_foldl hreturns
    rw [← hchunked]
    exact hran.symm

/-- A response without an encoding has the body that was received. -/
theorem BodyOutcome.toResponse_eq {codecs : Codecs} {outcome : BodyOutcome} {r r' : HttpResponse}
    (h : outcome.toResponse codecs r = .response r') (hbody : r.body = [])
    (hencoding : r'.getHeader contentEncoding = []) : ∃ b, outcome = .body b ∧ r'.body = b := by
  cases outcome with
  | null => exact absurd h nofun
  | thrown => exact absurd h nofun
  | outOfRange => exact absurd h nofun
  | body b =>
    obtain rfl := ResponseOutcome.response.inj h
    refine ⟨b, rfl, ?_⟩
    split
    · rename_i hb
      rw [hb, hbody]
    · rename_i hb
      rw [if_neg hb] at hencoding
      have hplain : r.getHeader contentEncoding = [] := hencoding
      change decodeBody codecs r b = b
      rw [decodeBody, hplain]
      rfl

/-- Bytes can arrive one by one. -/
theorem exists_singles (bytes : Bytes) :
    ∃ reads : List Bytes, reads.flatten = bytes ∧ ∀ read ∈ reads, read.length = 1 := by
  induction bytes with
  | nil => exact ⟨[], rfl, by simp⟩
  | cons c bytes ih =>
    obtain ⟨reads, hflatten, hsingle⟩ := ih
    exact ⟨[c] :: reads, by simp [hflatten], List.forall_mem_cons.mpr ⟨rfl, hsingle⟩⟩

/-- No response that announces chunks is received under every split of what is sent, and under no split
is it received by a run that takes the size lines that were sent for size lines. -/
theorem chunks_never_received (codecs : Codecs) (buffSize : BufferSize) (rounds : ℕ) {head : Bytes}
    (hhead : AnnouncesChunks head) (chunks : List Bytes) :
    (∀ reads : List Bytes, reads.flatten = head ++ chunkedBody chunks →
        ∀ r, (recvResponse codecs buffSize rounds reads).2 = .response r → r.getHeader contentEncoding = [] →
          Receives buffSize (recvResponse codecs buffSize rounds reads) chunks.flatten →
            (recvResponse codecs buffSize rounds reads).1.lines ≠ sizeLines chunks) ∧
      ¬∀ reads : List Bytes, reads.flatten = head ++ chunkedBody chunks → (∀ read ∈ reads, read ≠ []) →
        Receives buffSize (recvResponse codecs buffSize rounds reads) chunks.flatten := by
  obtain ⟨hne, hfinishes, hannounces⟩ := hhead.finishes
  have hfresh : Finishes HttpResponseParser.fresh.parser.cs head := hfinishes
  have hleft : ∀ (reads : List Bytes) (p : HttpResponseParser) (left : Bytes) (pieces : List Bytes),
      reads.flatten = head ++ chunkedBody chunks →
        recvResponseHead buffSize rounds .fresh [] reads = .finished p left pieces →
          LeftBehind buffSize reads (chunkedBody chunks) p left pieces :=
    fun reads p left pieces hreads hfinished =>
      recvResponseHead_finished hfresh hne hannounces rfl hreads hfinished
  constructor
  · intro reads hreads r hr hencoding hreceives hlines
    obtain ⟨r', hr', hbody⟩ := hreceives.returned
    obtain rfl := ResponseOutcome.response.inj (hr.symm.trans hr')
    cases hhead : recvResponseHead buffSize rounds .fresh [] reads with
    | null => simp [recvResponse, hhead] at hr
    | thrown => simp [recvResponse, hhead] at hr
    | finished p left pieces =>
      have hbehind := hleft reads p left pieces hreads hhead
      simp only [recvResponse, hhead, hbehind.chunked, if_true] at hr hlines
      obtain ⟨b, hb, hrb⟩ := BodyOutcome.toResponse_eq hr hbehind.body hencoding
      have hused := recvChunks_available hbehind.fits hb
      have hsent := length_chunkedBody_lt chunks
      have havailable := congrArg List.length hbehind.rest
      rw [show (recvChunks buffSize rounds p left pieces []).1.lines = sizeLines chunks from hlines, ← hrb, hbody]
        at hused
      simp only [available, List.length_append, List.length_nil] at hused havailable
      omega
  · intro hall
    obtain ⟨reads, hflatten, hsingle⟩ := exists_singles (head ++ chunkedBody chunks)
    obtain ⟨hreturned, hrange⟩ := hall reads hflatten fun read hread hnil => by
      simpa [hnil] using hsingle read hread
    cases hhead : recvResponseHead buffSize rounds .fresh [] reads with
    | null => simp [recvResponse, hhead] at hreturned
    | thrown => simp [recvResponse, hhead] at hreturned
    | finished p left pieces =>
      have hbehind := hleft reads p left pieces hflatten hhead
      obtain ⟨hshort, hbounded⟩ := hbehind.bounded 1 fun read hread => (hsingle read hread).le
      obtain rfl : left = [] := List.length_eq_zero_iff.mp (Nat.lt_one_iff.mp hshort)
      obtain ⟨d, hd, more, hmore⟩ := chunkedBody_eq_cons chunks
      have hpieces : pieces.flatten = hexDigit d :: more := hbehind.rest.trans hmore
      simp only [recvResponse, hhead, hbehind.chunked, if_true] at hreturned hrange
      rcases recvChunks_hexDigit buffSize rounds p hd hpieces hbounded with hnull | hminus
      · simp [hnull, BodyOutcome.toResponse] at hreturned
      · exact absurd (hrange _ (List.mem_append_right _ hminus)).1 (by decide)

/-- The shortest head that announces chunks, and a body of one chunk. -/
theorem chunks_never_received_hello :
    let head := asciiText ['H', 'T', 'T', 'P', '/', '1', '.', '1', ' ', '2', '0', '0', ' ', 'O', 'K', '\r', '\n',
      'T', 'r', 'a', 'n', 's', 'f', 'e', 'r', '-', 'E', 'n', 'c', 'o', 'd', 'i', 'n', 'g', ':', ' ',
      'c', 'h', 'u', 'n', 'k', 'e', 'd', '\r', '\n', '\r', '\n']
    let hello := asciiText ['h', 'e', 'l', 'l', 'o']
    AnnouncesChunks head ∧
      ¬∀ reads : List Bytes, reads.flatten = head ++ chunkedBody [hello] → (∀ read ∈ reads, read ≠ []) →
        Receives ⟨4096, by decide, by decide⟩
          (recvResponse ⟨fun _ => none, id, id⟩ ⟨4096, by decide, by decide⟩ 64 reads) [hello].flatten := by
  intro head hello
  obtain ⟨hreturns, hvalid, hfinished, hwhole, hchunked⟩ :
      (HttpResponseParser.fresh.execute head false).thrown = false ∧
        (HttpResponseParser.fresh.execute head false).self.hasError = false ∧
          (HttpResponseParser.fresh.execute head false).self.isFinished = true ∧
            (HttpResponseParser.fresh.execute head false).nparse = head.length ∧
              (HttpResponseParser.fresh.execute head false).self.parser.chunked = true := by decide +kernel
  have hhead : AnnouncesChunks head := ⟨hreturns, hvalid, hfinished, hwhole, hchunked⟩
  exact ⟨hhead, (chunks_never_received _ _ 64 hhead [hello]).2⟩

/-- A head and one chunk that arrive in one read each: the terminating chunk makes `len` negative. -/
theorem chunk_counted_twice :
    let head := asciiText ['H', 'T', 'T', 'P', '/', '1', '.', '1', ' ', '2', '0', '0', ' ', 'O', 'K', '\r', '\n',
      'T', 'r', 'a', 'n', 's', 'f', 'e', 'r', '-', 'E', 'n', 'c', 'o', 'd', 'i', 'n', 'g', ':', ' ',
      'c', 'h', 'u', 'n', 'k', 'e', 'd', '\r', '\n', '\r', '\n']
    let hello := asciiText ['h', 'e', 'l', 'l', 'o']
    ¬Receives ⟨4096, by decide, by decide⟩
      (recvResponse ⟨fun _ => none, id, id⟩ ⟨4096, by decide, by decide⟩ 64 [head, chunkedBody [hello]])
        [hello].flatten := by
  intro head hello hreceives
  have hnegative : ∃ len ∈ (recvResponse ⟨fun _ => none, id, id⟩ ⟨4096, by decide, by decide⟩ 64
      [head, chunkedBody [hello]]).1.lens, len < 0 := by decide +kernel
  obtain ⟨len, hlen, hneg⟩ := hnegative
  exact absurd (hreceives.inRange len hlen).1 (Int.not_le.mpr hneg)

end Bobliew.Http
