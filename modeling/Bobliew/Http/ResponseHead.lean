import Bobliew.Http.ResponseRuns
import Bobliew.Http.RoundTrip

/-!
# What the parser stores of a response head

The runs of the response machine, with what its actions store. The mark of the parser and its field are known
only while a token is read, so they are part of what a machine state is reached with, and forgotten behind it.
-/

namespace Bobliew.Http

open Ragel ResponseMachine ResponseAction

/-! ## What is stored -/

/-- The response so far, and the places of the token and of the field that are being read. -/
structure HeadProgress where
  response : HttpResponse
  mark : Option ℕ
  field : Option (ℕ × ℕ)

/-- A place that is not recorded. -/
theorem noPlace {A : Type*} {P : A → Prop} : ∀ a ∈ (none : Option A), P a :=
  fun a ha => absurd ha (Option.not_mem_none a)

/-- A response, and nothing that is being read. -/
def HeadProgress.plain (r : HttpResponse) : HeadProgress := ⟨r, none, none⟩

/-- Nothing has been thrown, no error is set, no chunks are announced, this is the progress so far, and the
parser points to nothing behind a position. -/
structure Progressing (k : ℕ) (d : HeadProgress) (s : ResponseHandling) : Prop where
  thrown : s.thrown = false
  data : s.self.data = d.response
  error : s.self.error = 0
  chunked : s.self.parser.chunked = false
  mark_le : s.self.parser.mark ≤ k
  fieldStart_le : s.self.parser.fieldStart ≤ k
  fieldLen_le : s.self.parser.fieldLen ≤ k
  atMark : ∀ m ∈ d.mark, s.self.parser.mark = m
  atField : ∀ f ∈ d.field, s.self.parser.fieldStart = f.1 ∧ s.self.parser.fieldLen = f.2

/-- The actions of the response machine and what they store. -/
def headHandler : Handler ResponseAction ResponseHandling HeadProgress where
  breaks := ResponseAction.breaks
  perform := ResponseHandling.perform
  Holds := Progressing
  mono hle hs := { hs with
    mark_le := hs.mark_le.trans hle
    fieldStart_le := hs.fieldStart_le.trans hle
    fieldLen_le := hs.fieldLen_le.trans hle }

/-- A part of a head leads from one state and progress to others. -/
abbrev Stored (before : Bytes) (ts : List (Thread ResponseAction)) (d : HeadProgress) (part : Bytes)
    (ts' : List (Thread ResponseAction)) (d' : HeadProgress) : Prop :=
  headHandler.Carries before ts d part ts' d'

section Parts

variable {before part text rest : Bytes} {ts ts' : List (Thread ResponseAction)} {d : HeadProgress}
  {r : HttpResponse}

/-- The places are forgotten. -/
theorem Progressing.forget {k : ℕ} {s : ResponseHandling} (hs : Progressing k d s) :
    Progressing k (.plain d.response) s :=
  { hs with
    atMark := noPlace
    atField := noPlace }

/-- The mark is forgotten. -/
theorem Progressing.forgetMark {k : ℕ} {s : ResponseHandling} (hs : Progressing k d s) :
    Progressing k { d with mark := none } s :=
  { hs with atMark := noPlace }

/-- Both actions at the beginning of a token mark it. -/
theorem Progressing.perform_mark {k : ℕ} {s : ResponseHandling} (hs : Progressing k d s) (buffer : Bytes)
    {a : ResponseAction} (ha : a = mark ∨ a = startValue) :
    Progressing k { d with mark := some k } (ResponseHandling.perform buffer k a s) := by
  obtain ⟨⟨parser, data, error⟩, thrown⟩ := s
  obtain ⟨rfl, hdata, herror, hchunked, -, hstart, hlen, -, hfield⟩ := hs
  rcases ha with rfl | rfl <;>
  · simp only [ResponseHandling.perform, ResponseHandling.update, Bool.false_eq_true, if_false]
    exact ⟨rfl, hdata, herror, hchunked, le_rfl, hstart, hlen, fun m hm => Option.some.inj hm, hfield⟩

/-- A byte that is marked. -/
theorem stored_mark {c : UInt8} {a : ResponseAction} (ha : a = mark ∨ a = startValue)
    (hstep : step ts c = some (ts', [a])) :
    Stored before ts d [c] ts' { d with mark := some before.length } := by
  have hbreaks : ([a].all fun a => !ResponseAction.breaks a) = true := by
    rcases ha with rfl | rfl <;> rfl
  exact .atStart [a] (.byte hstep hbreaks) fun rest s hs => hs.perform_mark _ ha

/-- A token that is marked at its beginning. -/
theorem stored_token {c : UInt8} {a : ResponseAction} (ha : a = mark ∨ a = startValue)
    (hfirst : step ts c = some (ts', [a])) (hrest : ∀ x ∈ text, step ts' x = some (ts', [])) :
    Stored before ts d (c :: text) ts' { d with mark := some before.length } :=
  (stored_mark ha hfirst).append (.loop hrest)

/-! ## The status line -/

/-- A version and the blank behind it. -/
theorem stored_version (before : Bytes) (r : HttpResponse) {version : ℕ}
    (hversion : version = 0x10 ∨ version = 0x11) :
    Stored before httpclientParserStart (.plain r)
      (asciiText ['H', 'T', 'T', 'P', '/'] ++ decimal (version >>> 4) ++ asciiText ['.'] ++
        decimal (version &&& 0x0F) ++ asciiText [' ']) atStatus (.plain { r with version := version }) := by
  obtain ⟨minor, hminor, htext, hfound⟩ : ∃ minor ∈ [(48 : UInt8), 49],
      asciiText ['H', 'T', 'T', 'P', '/'] ++ decimal (version >>> 4) ++ asciiText ['.'] ++
        decimal (version &&& 0x0F) ++ asciiText [' '] =
          asciiText ['H', 'T', 'T', 'P', '/', '1', '.'] ++ [minor] ++ [32] ∧
      ∀ rest, requestVersion (asciiText ['H', 'T', 'T', 'P', '/', '1', '.'] ++ [minor] ++ rest) 8 = some version := by
    rcases hversion with rfl | rfl
    · exact ⟨48, by decide, by decide, fun _ => rfl⟩
    · exact ⟨49, by decide, by decide, fun _ => rfl⟩
  rw [htext]
  refine ⟨_, line_transitions.1 minor hminor, fun rest s hs => ?_⟩
  have hmemory : (before ++ (asciiText ['H', 'T', 'T', 'P', '/', '1', '.'] ++ [minor] ++ [32]) ++ rest).drop
      before.length = asciiText ['H', 'T', 'T', 'P', '/', '1', '.'] ++ [minor] ++ ([32] ++ rest) := by
    rw [List.append_assoc, List.drop_left, List.append_assoc]
  have hle : before.length ≤
      (before ++ (asciiText ['H', 'T', 'T', 'P', '/', '1', '.'] ++ [minor] ++ [32])).length := by
    rw [List.length_append]
    exact Nat.le_add_right _ _
  obtain ⟨⟨parser, data, error⟩, thrown⟩ := s
  obtain ⟨rfl, hdata, rfl, hchunked, -, hstart, hlen, -, -⟩ := hs
  dsimp only [HeadProgress.plain] at hdata
  subst hdata
  simp only [headHandler, Handler.performAlong_cons, Handler.performAlong_nil, ResponseHandling.perform,
    ResponseHandling.update, ResponseHandling.onResponseVersion, Bool.false_eq_true, if_false, Nat.zero_add,
    lenFrom_add, hmemory, hfound]
  exact ⟨rfl, rfl, rfl, hchunked, hle, hstart.trans hle, hlen.trans hle, noPlace,
    noPlace⟩

/-- Digits in front of other text. -/
theorem digitsFrom_append {v : Bytes} (hv : ∀ c ∈ v, digit.has c = true) (n : ℕ) (rest : Bytes) :
    digitsFrom 10 n (v ++ rest) = digitsFrom 10 (digitsFrom 10 n v) rest := by
  induction v generalizing n with
  | nil => rfl
  | cons c v ih =>
    have hc := hv c List.mem_cons_self
    have hvalue : digitValue c = some (c.toNat - 48) := if_pos hc
    have hlt : c.toNat - 48 < 10 := by
      simp only [digit, ByteSet.has, Bool.and_eq_true, Nat.ble_eq] at hc
      omega
    simp only [List.cons_append, digitsFrom, hvalue, hlt, if_true]
    exact ih (fun d hd => hv d (List.mem_cons_of_mem c hd)) _

/-- The bytes of a decimal number are digits of the grammar. -/
theorem has_digit_of_mem_decimal {n : ℕ} : ∀ c ∈ decimal n, digit.has c = true := by
  intro c hc
  obtain ⟨hlow, hhigh⟩ := digit_of_mem_decimal hc
  simp only [digit, ByteSet.has, Bool.and_eq_true, Nat.ble_eq]
  exact ⟨hlow, hhigh⟩

/-- The number that a decimal number is read as. -/
theorem digitsFrom_decimal (n : ℕ) : digitsFrom 10 0 (decimal n) = n := by
  have hdigit : ∀ d < 10, digitsFrom 10 0 (asciiText [d.digitChar]) = d ∧
      digitValue (UInt8.ofNat d.digitChar.toNat) = some d := by decide
  induction n using Nat.strong_induction_on with
  | _ n ih =>
    by_cases hn : n < 10
    · rw [decimal, Nat.toDigits_of_lt_base hn]
      exact (hdigit n hn).1
    · have hlast := (hdigit (n % 10) (Nat.mod_lt n (by decide))).2
      have hsplit : decimal n = decimal (n / 10) ++ asciiText [(n % 10).digitChar] := by
        rw [decimal, Nat.toDigits_of_base_le (by decide) (not_lt.mp hn), asciiText, List.map_append]
        rfl
      rw [hsplit, digitsFrom_append has_digit_of_mem_decimal, ih (n / 10) (by omega)]
      simp only [asciiText, List.map_cons, List.map_nil, digitsFrom, hlast, Nat.mod_lt n (by decide : 10 > 0), if_true]
      omega

/-- `strtol` on a decimal number that a byte follows which is neither a digit nor a letter. -/
theorem strtol_decimal {n : ℕ} (hn : n < 2 ^ 63) {c : UInt8} (hc : digitValue c = none) (rest : Bytes) :
    strtol 10 (decimal n ++ c :: rest) = n := by
  obtain ⟨d, text, htext⟩ := List.exists_cons_of_ne_nil (decimal_ne_nil n)
  obtain ⟨hlow, hhigh⟩ := digit_of_mem_decimal (htext ▸ List.mem_cons_self : d ∈ decimal n)
  have hspace : isSpace d = false := by
    rw [isSpace, ← Bool.not_eq_true]
    simp only [space, ByteSet.has, Bool.or_eq_true, Bool.and_eq_true, Nat.ble_eq]
    omega
  have hdrop : (decimal n ++ c :: rest).dropWhile isSpace = decimal n ++ c :: rest := by
    rw [htext, List.cons_append, List.dropWhile_cons_of_neg (by rw [hspace]; exact Bool.false_ne_true)]
  have hhead : (decimal n ++ c :: rest).head? = some d := by
    rw [htext]
    rfl
  have hminus : d ≠ 45 ∧ d ≠ 43 := by
    constructor <;>
    · rintro rfl
      exact absurd hlow (by decide)
  have hvalue : digitsFrom 10 0 (decimal n ++ c :: rest) = n := by
    rw [digitsFrom_append has_digit_of_mem_decimal, digitsFrom_decimal]
    simp only [digitsFrom, hc]
  simp only [strtol, hdrop, hhead, Option.some.injEq, hminus.1, hminus.2, if_false, or_self, hvalue,
    show (10 : ℕ) ≠ 16 by decide]
  omega

/-- The digits of a number. -/
theorem stored_digits {a : ResponseAction} (ha : a = mark ∨ a = startValue) {sets : List ByteSet}
    (hreps : represented sets digit [48] = true) (hfirst : settled sets [48] ts ts' [a] = true)
    (hrest : settled sets [48] ts' ts' [] = true) (before : Bytes) (d : HeadProgress) (n : ℕ) :
    Stored before ts d (decimal n) ts' { d with mark := some before.length } := by
  obtain ⟨c, text, htext⟩ := List.exists_cons_of_ne_nil (decimal_ne_nil n)
  have hdigits := has_digit_of_mem_decimal (n := n)
  rw [htext] at hdigits ⊢
  exact stored_token ha (step_of_settled hreps hfirst (hdigits c List.mem_cons_self))
    fun x hx => step_of_settled hreps hrest (hdigits x (List.mem_cons_of_mem c hx))

/-- A status code and the blank behind it. -/
theorem stored_status (before : Bytes) (r : HttpResponse) {status : ℤ} (hlow : -2 ^ 31 ≤ status)
    (hhigh : status < 2 ^ 31) :
    Stored before atStatus (.plain r) (decimal (status % 2 ^ 32).toNat ++ [32]) atReason
      (.plain { r with status := status }) := by
  obtain ⟨-, hfirst, hrest, hblank, -⟩ := line_transitions
  obtain ⟨n, hn, hvalue⟩ : ∃ n : ℕ, n = (status % 2 ^ 32).toNat ∧ toInt n = status := by
    refine ⟨_, rfl, ?_⟩
    rw [toInt, Int.toNat_of_nonneg (Int.emod_nonneg _ (by decide)), Int.bmod_def]
    split <;> omega
  have hlt : n < 2 ^ 63 := by omega
  rw [← hn]
  have hdigits := stored_digits (.inl rfl) text_classes.1 hfirst hrest before (.plain r) n
  refine hdigits.append (.atStart [statusCode] hblank fun rest s hs => ?_)
  obtain ⟨⟨parser, data, error⟩, thrown⟩ := s
  obtain ⟨rfl, hdata, herror, hchunked, hmark, hstart, hlen, hatMark, -⟩ := hs
  have hat : parser.mark = before.length := hatMark _ rfl
  have hmemory : (before ++ decimal n ++ [32] ++ rest).drop parser.mark = decimal n ++ 32 :: rest := by
    rw [hat, List.append_assoc, List.append_assoc, List.drop_left]
    rfl
  have hstatus : toInt (strtol 10 (decimal n ++ 32 :: rest)) = status := by
    rw [strtol_decimal hlt (by decide), hvalue]
  dsimp only [HeadProgress.plain] at hdata
  subst hdata
  simp only [headHandler, List.foldl_cons, List.foldl_nil, ResponseHandling.perform, ResponseHandling.store,
    Bool.false_eq_true, if_false, hmemory, hstatus]
  exact ⟨rfl, rfl, herror, hchunked, hmark, hstart, hlen, noPlace, noPlace⟩

/-- A byte of a reason or of a value. -/
def IsText (c : UInt8) : Prop := c ≠ 13 ∧ c ≠ 10

/-- The bytes of a text are those of a reason. -/
theorem has_textBytes {c : UInt8} (h : IsText c) : textBytes.has c = true := by
  have hreturn : c.toNat ≠ 13 := fun heq => h.1 (UInt8.toNat_inj.mp heq)
  have hfeed : c.toNat ≠ 10 := fun heq => h.2 (UInt8.toNat_inj.mp heq)
  have hlt := c.toNat_lt
  have hany : any.has c = true := by
    simp only [any, ByteSet.has, Bool.and_eq_true, Nat.ble_eq]
    omega
  rw [textBytes, ByteSet.has, hany, Bool.true_and, Bool.not_eq_true', ← Bool.not_eq_true, ByteSet.has,
    Bool.or_eq_true, ByteSet.has_one, ByteSet.has_one]
  omega

/-- A reason and the line end behind it. -/
theorem stored_reason (before : Bytes) (r : HttpResponse) (hne : text ≠ []) (htext : ∀ c ∈ text, IsText c) :
    Stored before atReason (.plain r) (text ++ lineEnd) atHeader (.plain { r with reason := text }) := by
  obtain ⟨-, -, -, -, hfirst, hrest, hend⟩ := line_transitions
  have hmarked : Stored before atReason (.plain r) text inReason { HeadProgress.plain r with mark := some before.length } := by
    obtain ⟨c, text, rfl⟩ := List.exists_cons_of_ne_nil hne
    exact stored_token (.inl rfl) (step_of_settled text_classes.2.1 hfirst (has_textBytes (htext c List.mem_cons_self)))
      fun x hx => step_of_settled text_classes.2.1 hrest (has_textBytes (htext x (List.mem_cons_of_mem c hx)))
  refine hmarked.append (.atStart [reasonPhrase] hend fun rest s hs => ?_)
  obtain ⟨⟨parser, data, error⟩, thrown⟩ := s
  obtain ⟨rfl, hdata, herror, hchunked, hmark, hstart, hlen, hatMark, -⟩ := hs
  have hat : parser.mark = before.length := hatMark _ rfl
  have hstring : stringAt (before ++ text ++ lineEnd ++ rest) parser.mark
      (lenFrom parser.mark (before ++ text).length) = some text := by
    rw [hat, List.length_append, Nat.add_comm, lenFrom_add]
    simp only [List.append_assoc]
    exact stringAt_middle before text _
  dsimp only [HeadProgress.plain] at hdata
  subst hdata
  simp only [headHandler, List.foldl_cons, List.foldl_nil, ResponseHandling.perform, ResponseHandling.store,
    Bool.false_eq_true, if_false, hstring]
  exact ⟨rfl, rfl, herror, hchunked, hmark, hstart, hlen, noPlace, noPlace⟩

/-! ## Headers -/

/-- A value is stored under the name of the field. -/
theorem Progressing.writeValue {k m start flen : ℕ} {s : ResponseHandling} {buffer name value : Bytes}
    (hs : Progressing k d s) (hmark : d.mark = some m) (hfield : d.field = some (start, flen)) (hflen : flen ≠ 0)
    (hname : stringAt buffer start flen = some name) (hvalue : stringAt buffer m (lenFrom m k) = some value) :
    Progressing k (.plain { d.response with headers := d.response.headers.set name value })
      (ResponseHandling.perform buffer k writeValue s) := by
  obtain ⟨⟨parser, data, error⟩, thrown⟩ := s
  obtain ⟨rfl, hdata, herror, hchunked, hle, hstart, hlen, hatMark, hatField⟩ := hs
  have hat : parser.mark = m := hatMark m hmark
  obtain ⟨hatStart, hatLen⟩ : parser.fieldStart = start ∧ parser.fieldLen = flen := hatField _ hfield
  dsimp only at hdata
  subst hdata
  simp only [ResponseHandling.perform, ResponseHandling.onResponseHttpField, ResponseHandling.store,
    Bool.false_eq_true, if_false, hat, hatStart, hatLen, hflen, hname, hvalue]
  exact ⟨rfl, rfl, herror, hchunked, hle, hstart, hlen, noPlace, noPlace⟩

/-- The name of a header that the grammar does not single out, and the colon behind it. -/
theorem stored_name (before : Bytes) (r : HttpResponse) {name : Bytes} (hne : name ≠ [])
    (hname : ∀ c ∈ name, ResponseGrammar.token.has c = true) (hother : name.map toLower ∉ knownNames) :
    Stored before atHeader (.plain r) (name ++ [58]) atValue ⟨r, none, some (before.length, name.length)⟩ := by
  refine ⟨_, reads_name hne hname hother, fun rest s hs => ?_⟩
  obtain ⟨⟨parser, data, error⟩, thrown⟩ := s
  obtain ⟨rfl, hdata, herror, hchunked, hmark, -, -, -, -⟩ := hs
  have hlength : (before ++ (name ++ [58])).length = before.length + (name.length + 1) := by simp
  simp only [headHandler, Handler.performAlong_cons, Handler.performAlong_nil, ResponseHandling.perform,
    ResponseHandling.update, Bool.false_eq_true, if_false, Nat.zero_add, lenFrom_add]
  dsimp only at hmark
  refine ⟨rfl, hdata, herror, hchunked, ?_, ?_, ?_, noPlace, ?_⟩ <;> dsimp only
  · omega
  · omega
  · omega
  · rintro f hf
    obtain rfl := Option.some.inj hf
    exact ⟨rfl, rfl⟩

/-- A byte that is dropped in front of a value. -/
theorem has_gapBytes {c : UInt8} (h : IsText c) (hspace : isSpace c = true) : gapBytes.has c = true := by
  have hreturn : c.toNat ≠ 13 := fun heq => h.1 (UInt8.toNat_inj.mp heq)
  have hfeed : c.toNat ≠ 10 := fun heq => h.2 (UInt8.toNat_inj.mp heq)
  rw [isSpace] at hspace
  rw [gapBytes, ByteSet.has, hspace, Bool.true_and, Bool.not_eq_true', ← Bool.not_eq_true, ByteSet.has,
    Bool.or_eq_true, ByteSet.has_one, ByteSet.has_one]
  omega

/-- A byte that is not. -/
theorem has_solidBytes {c : UInt8} (h : IsText c) (hspace : isSpace c = false) : solidBytes.has c = true := by
  rw [isSpace] at hspace
  rw [solidBytes, ByteSet.has, has_textBytes h, hspace]
  rfl

/-- The bytes in front of a value. -/
theorem stored_gap {gap : Bytes} (hgap : ∀ c ∈ gap, IsText c ∧ isSpace c = true) (hmark : d.mark = none) :
    Stored before atBlank d gap atBlank d := by
  obtain ⟨-, -, -, -, hreps⟩ := text_classes
  obtain ⟨-, hstay, -⟩ := value_transitions
  have hd : { d with mark := none } = d := by
    rw [← hmark]
  induction gap generalizing before with
  | nil => exact .nil before atBlank d
  | cons c gap ih =>
    obtain ⟨htext, hspace⟩ := hgap c List.mem_cons_self
    have hone : Stored before atBlank d [c] atBlank { d with mark := some before.length } :=
      stored_mark (.inr rfl) (step_of_settled hreps hstay (has_gapBytes htext hspace))
    have hforget : Stored before atBlank d [c] atBlank d :=
      hone.imp (fun _ _ hs => hs) fun _ _ hs => hd ▸ hs.forgetMark
    exact hforget.append (ih fun x hx => hgap x (List.mem_cons_of_mem c hx))

/-- The blank behind the colon of a header. -/
theorem stored_blank (hmark : d.mark = none) : Stored before atValue d [32] atBlank d := by
  have hd : { d with mark := none } = d := by
    rw [← hmark]
  have hone : Stored before atValue d [32] atBlank { d with mark := some before.length } :=
    .atStart [startValue] value_transitions.1 fun rest s hs =>
      hs.perform_mark (before ++ [32] ++ rest) (.inr rfl)
  exact hone.imp (fun _ _ hs => hs) fun _ _ hs => hd ▸ hs.forgetMark

/-- The value of a header without what is dropped in front of it, and the line end. -/
theorem stored_value {front name value : Bytes} {start : ℕ} (hbefore : before.drop start = name ++ front)
    (hstart : start ≤ before.length) (hne : name ≠ []) (htext : ∀ c ∈ value, IsText c)
    (hfirst : ∀ c ∈ value.head?, isSpace c = false) :
    Stored before atBlank ⟨r, none, some (start, name.length)⟩ (value ++ lineEnd) atHeader
      (.plain { r with headers := r.headers.set name value }) := by
  obtain ⟨-, -, -, hreps, hgaps⟩ := text_classes
  obtain ⟨-, -, hbegin, ⟨hsolid, hgap⟩, hempty, hend⟩ := value_transitions
  have hflen : name.length ≠ 0 := fun h => hne (List.length_eq_zero_iff.mp h)
  have hsplit : before = before.take start ++ (name ++ front) := by rw [← hbefore, List.take_append_drop]
  have hlength : (before.take start).length = start := List.length_take_of_le hstart
  have hname : ∀ rest, stringAt (before ++ rest) start name.length = some name := by
    intro rest
    have hmiddle := stringAt_middle (before.take start) name (front ++ rest)
    rw [hlength] at hmiddle
    rw [hsplit]
    simpa only [List.append_assoc] using hmiddle
  cases value with
  | nil =>
    refine .atStart [startValue, writeValue] hempty fun rest s hs => ?_
    have hmarked := hs.perform_mark (before ++ lineEnd ++ rest) (.inr rfl : startValue = mark ∨ _)
    have hvalue : stringAt (before ++ lineEnd ++ rest) before.length (lenFrom before.length before.length) = some [] := by
      have hmiddle := stringAt_middle before [] (lineEnd ++ rest)
      have hzero : lenFrom before.length before.length = 0 := by simp [lenFrom]
      rw [hzero, List.append_assoc]
      exact hmiddle
    refine hmarked.writeValue rfl rfl hflen ?_ hvalue
    rw [List.append_assoc]
    exact hname _
  | cons c value =>
    have hc := step_of_settled hreps hbegin
      (has_solidBytes (htext c List.mem_cons_self) (hfirst c rfl))
    have hrest : ∀ x ∈ value, step inValue x = some (inValue, []) := by
      intro x hx
      have hx' := htext x (List.mem_cons_of_mem c hx)
      by_cases hspace : isSpace x = true
      · exact step_of_settled hgaps hgap (has_gapBytes hx' hspace)
      · exact step_of_settled hreps hsolid (has_solidBytes hx' (Bool.not_eq_true _ ▸ hspace))
    refine (stored_token (.inr rfl) hc hrest).append (.atStart [writeValue] hend fun rest s hs => ?_)
    refine hs.writeValue rfl rfl hflen ?_ ?_
    · simp only [List.append_assoc]
      exact hname _
    · rw [List.length_append, Nat.add_comm, lenFrom_add]
      simp only [List.append_assoc]
      exact stringAt_middle before (c :: value) _

/-- A header of a map, as a response serialises it. -/
def headerText (x : Bytes × Bytes) : Bytes := x.1 ++ [58, 32] ++ x.2 ++ lineEnd

/-- A header that the grammar does not single out, and that the machine reads up to its line end. -/
structure PlainHeader (x : Bytes × Bytes) : Prop where
  name_ne : x.1 ≠ []
  name : ∀ c ∈ x.1, ResponseGrammar.token.has c = true
  other : x.1.map toLower ∉ knownNames
  value : ∀ c ∈ x.2, IsText c

/-- The value of a header as it is stored: without the spaces in front of it. -/
def storedValue (value : Bytes) : Bytes := value.dropWhile isSpace

/-- A header. -/
theorem stored_header (before : Bytes) (r : HttpResponse) {x : Bytes × Bytes} (hx : PlainHeader x) :
    Stored before atHeader (.plain r) (headerText x) atHeader
      (.plain { r with headers := r.headers.set x.1 (storedValue x.2) }) := by
  obtain ⟨name, value⟩ := x
  have hvalue : value = value.takeWhile isSpace ++ storedValue value := List.takeWhile_append_dropWhile.symm
  have hgap : ∀ c ∈ value.takeWhile isSpace, IsText c ∧ isSpace c = true := fun c hc =>
    ⟨hx.value c ((List.takeWhile_prefix _).subset hc), List.mem_takeWhile_imp hc⟩
  have htext : ∀ c ∈ storedValue value, IsText c := fun c hc =>
    hx.value c ((List.dropWhile_suffix _).subset hc)
  have hfirst : ∀ c ∈ (storedValue value).head?, isSpace c = false := by
    intro c hc
    have hhead := List.head?_dropWhile_not isSpace value
    rw [storedValue] at hc
    rw [hc] at hhead
    exact hhead
  have hparts := ((stored_name before r hx.name_ne hx.name hx.other).append (stored_blank rfl)).append
    (stored_gap hgap rfl)
  have hdrop : (before ++ (name ++ [58] ++ [32] ++ value.takeWhile isSpace)).drop before.length =
      name ++ ([58] ++ [32] ++ value.takeWhile isSpace) := by
    rw [List.drop_left]
    simp only [List.append_assoc]
  have hend := stored_value (r := r) hdrop (by simp) hx.name_ne htext hfirst
  have hall := hparts.append hend
  have hbytes : headerText (name, value) =
      name ++ [58] ++ [32] ++ value.takeWhile isSpace ++ (storedValue value ++ lineEnd) := by
    rw [headerText]
    dsimp only
    conv_lhs => rw [hvalue]
    simp
  rw [hbytes]
  exact hall

/-- Headers one after the other. -/
theorem stored_headers (before : Bytes) (r : HttpResponse) {m : List (Bytes × Bytes)}
    (hm : ∀ x ∈ m, PlainHeader x) :
    Stored before atHeader (.plain r) (m.flatMap headerText) atHeader
      (.plain { r with headers := m.foldl (fun m x => HeaderMap.set x.1 (storedValue x.2) m) r.headers }) := by
  have hfold : ∀ (m : List (Bytes × Bytes)) (r : HttpResponse),
      m.foldl (fun (d : HeadProgress) x =>
        .plain { d.response with headers := d.response.headers.set x.1 (storedValue x.2) }) (.plain r) =
        .plain { r with headers := m.foldl (fun m x => HeaderMap.set x.1 (storedValue x.2) m) r.headers } := by
    intro m
    induction m with
    | nil => exact fun r => rfl
    | cons x m ih => exact fun r => ih _
  rw [← hfold]
  exact .flatMap fun before d x hx =>
    (stored_header before d.response (hm x hx)).imp (fun _ _ hs => hs.forget) fun _ _ hs => hs

/-! ## The emitted headers -/

/-- A header with a fixed text, from what the machine performs on it. -/
theorem stored_fixed (before : Bytes) (r : HttpResponse) {name value : Bytes} (hne : name ≠ [])
    (hread : Reads ts (name ++ [58, 32] ++ value ++ lineEnd) ts'
      [(0, startField), (name.length, writeField), (name.length + 1, startValue), (name.length + 2, startValue),
        (name.length + 2 + value.length, writeValue)]) :
    Stored before ts (.plain r) (headerText (name, value)) ts' (.plain { r with headers := r.headers.set name value }) := by
  refine ⟨_, hread, fun rest s hs => ?_⟩
  have hname : stringAt (before ++ headerText (name, value) ++ rest) before.length name.length = some name := by
    simp only [headerText, List.append_assoc]
    exact stringAt_middle before name _
  have hvalue : stringAt (before ++ headerText (name, value) ++ rest) (name.length + 2 + before.length) value.length =
      some value := by
    have hmiddle := stringAt_middle (before ++ name ++ [58, 32]) value (lineEnd ++ rest)
    have hlength : (before ++ name ++ [58, 32]).length = name.length + 2 + before.length := by
      simp [Nat.add_comm]
    rw [hlength] at hmiddle
    simpa only [headerText, List.append_assoc] using hmiddle
  have hlength : (before ++ headerText (name, value)).length = before.length + (name.length + 2 + value.length + 2) := by
    simp only [headerText, lineEnd, List.length_append, List.length_cons, List.length_nil]
  have hflen : name.length ≠ 0 := fun h => hne (List.length_eq_zero_iff.mp h)
  obtain ⟨⟨parser, data, error⟩, thrown⟩ := s
  obtain ⟨rfl, hdata, herror, hchunked, hmark, -, -, -, -⟩ := hs
  dsimp only [HeadProgress.plain] at hdata
  subst hdata
  have hend : name.length + 2 + value.length + before.length = value.length + (name.length + 2 + before.length) := by
    omega
  simp only [headHandler, Handler.performAlong_cons, Handler.performAlong_nil, ResponseHandling.perform,
    ResponseHandling.update, ResponseHandling.onResponseHttpField, ResponseHandling.store, Bool.false_eq_true,
    if_false, Nat.zero_add, lenFrom_add, hname, hend, hvalue, hflen]
  refine ⟨rfl, rfl, herror, hchunked, ?_, ?_, ?_, noPlace, noPlace⟩ <;> dsimp only <;>
    omega

/-- The state behind the emitted `connection` header. -/
def behindConnection (close : Bool) : List (Thread ResponseAction) := if close then atHeaderClose else atHeader

/-- The emitted `connection` header. -/
theorem stored_connection (before : Bytes) (r : HttpResponse) (close : Bool) :
    Stored before atHeader (.plain r) (headerText (connectionName, connectionValue close)) (behindConnection close)
      (.plain { r with headers := r.headers.set connectionName (connectionValue close) }) := by
  obtain ⟨hkept, hclosed, -⟩ := emitted_transitions
  refine stored_fixed before r (by decide) ?_
  cases close
  · exact hkept
  · exact hclosed

/-- The emitted `content-length` header. -/
theorem stored_length (before : Bytes) (r : HttpResponse) (close : Bool) {n : ℕ} :
    Stored before (behindConnection close) (.plain r) (headerText (contentLengthName, decimal n)) atHeader
      (.plain { r with headers := r.headers.set contentLengthName (decimal n) }) := by
  obtain ⟨-, -, ⟨hkept, hclosed⟩, hfirst, hrest, hend⟩ := emitted_transitions
  have hname : Stored before (behindConnection close) (.plain r) (contentLengthName ++ [58, 32]) atLength
      ⟨r, none, some (before.length, contentLengthName.length)⟩ := by
    obtain ⟨early, hearly, hread⟩ : ∃ early, (early = [] ∨ early = [(0, writeConnectionClose)]) ∧
        Reads (behindConnection close) (contentLengthName ++ [58, 32]) atLength
          (early ++ [(0, startField), (14, writeField), (15, startValue)]) := by
      cases close
      · exact ⟨[], .inl rfl, hkept⟩
      · exact ⟨_, .inr rfl, hclosed⟩
    refine ⟨_, hread, fun rest s hs => ?_⟩
    obtain ⟨⟨parser, data, error⟩, thrown⟩ := s
    obtain ⟨rfl, hdata, herror, hchunked, hmark, -, -, -, -⟩ := hs
    have hlength : (before ++ (contentLengthName ++ [58, 32])).length = before.length + 16 := List.length_append
    rcases hearly with rfl | rfl <;>
    · simp only [headHandler, List.nil_append, List.cons_append, Handler.performAlong_cons,
        Handler.performAlong_nil, ResponseHandling.perform, ResponseHandling.update, Bool.false_eq_true, if_false,
        Nat.zero_add, lenFrom_add]
      refine ⟨rfl, hdata, herror, hchunked, ?_, ?_, ?_, noPlace, ?_⟩ <;> dsimp only
      · omega
      · omega
      · omega
      · rintro f hf
        obtain rfl := Option.some.inj hf
        exact ⟨rfl, rfl⟩
  have hdigits := stored_digits (.inr rfl) text_classes.2.2.1 hfirst hrest (before ++ (contentLengthName ++ [58, 32]))
    ⟨r, none, some (before.length, contentLengthName.length)⟩ n
  have hwrite : Stored (before ++ (contentLengthName ++ [58, 32] ++ decimal n)) inLength
      ⟨r, some (before ++ (contentLengthName ++ [58, 32])).length, some (before.length, contentLengthName.length)⟩
      lineEnd atHeader (.plain { r with headers := r.headers.set contentLengthName (decimal n) }) := by
    refine .atStart [writeContentLen, writeValue] hend fun rest s hs => ?_
    have hlen : ∀ (buffer : Bytes) (k : ℕ) (d : HeadProgress), Progressing k d s →
        Progressing k d (ResponseHandling.perform buffer k writeContentLen s) := by
      intro buffer k d hs
      obtain ⟨⟨parser, data, error⟩, thrown⟩ := s
      obtain ⟨rfl, hdata, herror, hchunked, hmark, hstart, hlen, hatMark, hatField⟩ := hs
      exact ⟨rfl, hdata, herror, hchunked, hmark, hstart, hlen, hatMark, hatField⟩
    refine (hlen _ _ _ hs).writeValue rfl rfl (by decide) ?_ ?_
    · simp only [List.append_assoc]
      exact stringAt_middle before contentLengthName _
    · have hmiddle := stringAt_middle (before ++ (contentLengthName ++ [58, 32])) (decimal n) (lineEnd ++ rest)
      have hlength : (before ++ (contentLengthName ++ [58, 32] ++ decimal n)).length =
          (decimal n).length + (before ++ (contentLengthName ++ [58, 32])).length := by
        simp only [List.length_append]
        omega
      rw [hlength, lenFrom_add]
      simpa only [List.append_assoc] using hmiddle
  have hall := (hname.append hdigits).append hwrite
  simpa only [headerText, List.append_assoc] using hall

/-! ## The end of the head -/

/-- The call of `execute` on a head that ends with the empty line: it finishes behind it, and holds the
response. -/
theorem stored_finishes {close : Bool}
    (h : Stored [] httpclientParserStart (.plain .fresh) part (behindConnection close) (.plain r)) (more : Bytes) :
    let e := HttpResponseParser.fresh.execute (part ++ lineEnd ++ more) false
    e.thrown = false ∧ e.self.hasError = false ∧ e.self.isFinished = true ∧ e.self.parser.chunked = false ∧
      e.self.data = r ∧ e.nparse = (part ++ lineEnd).length := by
  obtain ⟨early, hearly, hevents, hlength, hstopped, hfinal⟩ : ∃ early,
      (early = [] ∨ early = [(0, writeConnectionClose)]) ∧
      let e := scan ResponseAction.breaks lineEnd (some (behindConnection close))
      e.st = early ++ [(1, done)] ∧ e.p = 2 ∧ e.stopped = true ∧
        e.cs.elim false (fun ts => isFinal ts && ts.all Rx.spent) = true := by
    cases close
    · exact ⟨[], .inl rfl, end_transitions _ List.mem_cons_self⟩
    · exact ⟨_, .inr rfl, end_transitions _ (List.mem_cons_of_mem _ List.mem_cons_self)⟩
  have hentered : Progressing 0 (.plain .fresh) HttpResponseParser.fresh.entered.st :=
    ⟨rfl, rfl, rfl, rfl, le_rfl, le_rfl, le_rfl, noPlace, noPlace⟩
  obtain ⟨s, hs, hexec⟩ := h.exec hentered (lineEnd ++ more)
  have hscan := scan_append_of_stopped hstopped more
  generalize hcs : (scan ResponseAction.breaks lineEnd (some (behindConnection close))).cs = cs at hfinal hscan
  have hbreaks : headHandler.breaks = ResponseAction.breaks := rfl
  have hperform : headHandler.perform = ResponseHandling.perform := rfl
  have hentry : HttpResponseParser.fresh.entered =
      ⟨some httpclientParserStart, 0, HttpResponseParser.fresh.entered.st, false⟩ := rfl
  rw [hbreaks, hperform, hscan, ← hentry, ← List.append_assoc] at hexec
  obtain ⟨⟨parser, data, error⟩, thrown⟩ := s
  obtain ⟨rfl, hdata, herror, hchunked, hmark, hstart, hlen, -, -⟩ := hs
  dsimp only [HeadProgress.plain] at hdata herror hchunked hmark hstart hlen
  subst hdata herror
  have hlong : part.length < (part ++ lineEnd ++ more).length := by
    simp only [List.length_append, lineEnd, List.length_cons, List.length_nil]
    omega
  have hcount : 2 + part.length = (part ++ lineEnd).length := by
    rw [List.length_append, Nat.add_comm]
    rfl
  have hchecks : ∀ q : HttpclientParser, q.mark = parser.mark → q.fieldLen = parser.fieldLen →
      q.fieldStart = parser.fieldStart → HttpResponseParser.checks q (part ++ lineEnd ++ more).length = true := by
    intro q hm hl hs
    rw [HttpResponseParser.checks, hm, hl, hs, decide_eq_true (by omega), decide_eq_true (by omega),
      decide_eq_true (by omega)]
    rfl
  have hsome : cs.isNone = false := by
    cases cs with
    | none => cases hfinal
    | some ts => rfl
  simp only [HttpResponseParser.execute, Bool.false_eq_true, if_false]
  rw [hexec]
  rcases hearly with rfl | rfl <;>
  · simp only [hevents, hlength, hcount, hcs, List.nil_append, List.cons_append, List.foldl_cons, List.foldl_nil,
      ResponseHandling.perform, ResponseHandling.update, Bool.false_eq_true, if_false]
    refine ⟨trivial, ?_, hfinal, hchunked, trivial, if_pos (hchecks _ rfl rfl rfl)⟩
    simp only [HttpResponseParser.hasError, decide_true, Bool.not_true, Bool.false_or, hsome]

end Parts

end Bobliew.Http
