import Bobliew.Lib.RagelLanguage
import Bobliew.Http.RequestParser

/-!
# Runs of the request machine

The states that the request machine passes through while it reads a head, each given by a text that leads
to it, and what it performs from one to the next: over a method, a path, a query, a fragment, a version, and
the name and the value of a header.
-/

namespace Bobliew.Http

open Ragel

namespace RequestMachine

open RequestAction RequestGrammar

/-- The state of the machine behind a text. -/
def stateAfter (uriRelaxed : Bool) (cs : List Char) : List (Thread RequestAction) :=
  (scan RequestAction.breaks (asciiText cs) (some (httpParserStart uriRelaxed))).cs.getD []

/-- The machine reads a text between two states. -/
abbrev Reads (ts : List (Thread RequestAction)) (w : Bytes) (ts' : List (Thread RequestAction))
    (evs : List (ℕ × RequestAction)) : Prop :=
  Consumes RequestAction.breaks ts w ts' evs

/-! ## The method -/

/-- What surrounds a method in the thread that reads it. -/
structure MethodThread where
  done : ℕ × RequestAction
  leave : ℕ × RequestAction
  rest : Thread RequestAction
  headers : Thread RequestAction
  performs : leave.2 = requestMethod
  headers_null : headers.null = none

/-- The bytes of a method. -/
def methodBytes : ByteSet := .union upper digit

/-- The hexadecimal digits are alike, a blank is no byte of a method, and all methods of the table but one
are made of such bytes. -/
theorem byte_classes : represented [xdigit] xdigit [48] = true ∧
    (allBytes fun c => !methodBytes.has c || !(ByteSet.range 32 32).has c) = true ∧
    (httpMethodMap.all fun entry => decide (entry.1 = .msearch) ||
      (!entry.2.isEmpty && entry.2.all methodBytes.has && Nat.ble entry.2.length 20)) = true := by
  decide +kernel

namespace MethodThread

variable (q : MethodThread)

/-- The thread in a method that may have `n` more bytes. -/
def inside (n : ℕ) : Thread RequestAction :=
  .finish q.done (.cat (.cat (.leave q.leave (.upTo (.byte methodBytes) n)) (.cat (.chr ' ') q.rest)) q.headers)

/-- The thread behind the blank that ends the method. -/
def behind : Thread RequestAction := .finish q.done (q.rest.followedBy q.headers)

/-- A bounded repetition can be left. -/
theorem null_upTo (set : ByteSet) (n : ℕ) : (Rx.upTo (.byte set : Thread RequestAction) n).null = some [] := by
  cases n <;> rfl

/-- On a byte of the method. -/
theorem step_inside (n : ℕ) {c : UInt8} (hc : methodBytes.has c = true) :
    step [q.inside (n + 1)] c = some ([q.inside n], []) := by
  refine step_single (e := ⟨[], [], q.inside n⟩) ?_ rfl
  have hblank : (Rx.chr ' ' : Thread RequestAction).der c = [] := by
    refine Rx.der_nil fun s hs => ?_
    have hone := of_allBytes byte_classes.2.1 c
    rw [hc] at hone
    rw [List.mem_singleton.mp hs]
    exact Bool.not_eq_true' _ ▸ hone
  have hletter : (Rx.upTo (.byte methodBytes : Thread RequestAction) (n + 1)).der c =
      [⟨[], [], .upTo (.byte methodBytes) n⟩] := by
    simp [Rx.upTo, Rx.opt, Rx.der, hc, Rx.null, Rx.followedBy]
  have hnull : (Rx.chr ' ' : Thread RequestAction).null = none := rfl
  simp [inside, Rx.der, hletter, hblank, Rx.null, null_upTo, Rx.followedBy, hnull]

/-- On the blank behind the method. -/
theorem step_blank (n : ℕ) : step [q.inside n] 32 = some ([q.behind], [requestMethod]) := by
  have hbehind : (q.rest.followedBy q.headers).null = none := by
    rcases Rx.followedBy_cases q.rest q.headers with ⟨-, h⟩ | h
    · rw [h, q.headers_null]
    · rw [h, Rx.null, q.headers_null]
      cases q.rest.null <;> rfl
  rw [← q.performs]
  refine step_single (e := ⟨[q.leave], [], q.behind⟩) ?_ rfl
  have hblank : (Rx.chr ' ' : Thread RequestAction).der 32 = [⟨[], [], .empty⟩] := rfl
  have hletter : (Rx.upTo (.byte methodBytes : Thread RequestAction) n).der 32 = [] := by
    cases n <;> rfl
  have hrest : (Rx.empty : Thread RequestAction).followedBy q.rest = q.rest := rfl
  have hnull : (Rx.chr ' ' : Thread RequestAction).null = none := rfl
  simp [inside, behind, Rx.der, hletter, hblank, Rx.null, null_upTo, hbehind, hrest, hnull]

/-- Over the rest of a method and the blank behind it. -/
theorem reads_inside {text : Bytes} (htext : ∀ c ∈ text, methodBytes.has c = true) {n : ℕ} (hn : text.length ≤ n) :
    Reads [q.inside n] (text ++ [32]) [q.behind] [(text.length, requestMethod)] := by
  induction text generalizing n with
  | nil => exact .byte (q.step_blank n) rfl
  | cons c text ih =>
    cases n with
    | zero => exact absurd hn (Nat.not_succ_le_zero _)
    | succ n =>
      have hrest := ih (fun d hd => htext d (List.mem_cons_of_mem c hd)) (Nat.le_of_succ_le_succ hn)
      have hboth := (Consumes.byte (step_inside q n (htext c List.mem_cons_self)) rfl).append hrest
      simpa [shifted] using hboth

end MethodThread

/-- The thread that reads a method, in the start state. -/
theorem exists_methodThread (uriRelaxed : Bool) : ∃ q : MethodThread,
    ∀ c, methodBytes.has c = true → step (httpParserStart uriRelaxed) c = some ([q.inside 19], [mark]) := by
  obtain ⟨q, m, socket, hmark, hsocket, hstart⟩ : ∃ (q : MethodThread) (m : ℕ × RequestAction)
      (socket : Thread RequestAction), m.2 = mark ∧
      (socket.firsts.all fun s => allBytes fun c => !methodBytes.has c || !s.has c) = true ∧
      httpParserStart uriRelaxed = [.finish q.done (.alt
        (.cat (.cat (.leave q.leave (.enter m (.cat (.byte methodBytes) (.upTo (.byte methodBytes) 19))))
          (.cat (.chr ' ') q.rest)) q.headers) socket)] := by
    refine ⟨⟨_, _, _, _, ?_, ?_⟩, _, _, ?_, ?_, rfl⟩
    · rfl
    · rfl
    · rfl
    · cases uriRelaxed <;> decide +kernel
  refine ⟨q, fun c hc => ?_⟩
  have hnone : socket.der c = [] := by
    refine Rx.der_nil fun s hs => ?_
    have hone := of_allBytes (List.all_eq_true.mp hsocket s hs) c
    rw [hc] at hone
    exact Bool.not_eq_true' _ ▸ hone
  rw [hstart, ← hmark]
  refine step_single (e := ⟨[m], [], q.inside 19⟩) ?_ rfl
  have hnull : (Rx.chr ' ' : Thread RequestAction).null = none := rfl
  simp [MethodThread.inside, Rx.der, hc, hnone, Rx.null, MethodThread.null_upTo, hnull, Rx.followedBy]

/-! ## The request line -/

section Uri

variable (uriRelaxed : Bool)

/-- Behind the method. -/
def atUri : List (Thread RequestAction) := stateAfter uriRelaxed ['G', 'E', 'T', ' ']

/-- Behind the slash that begins a path. -/
def atPath : List (Thread RequestAction) := stateAfter uriRelaxed ['G', 'E', 'T', ' ', '/']

/-- Inside a path. -/
def inPath : List (Thread RequestAction) := stateAfter uriRelaxed ['G', 'E', 'T', ' ', '/', 'a']

/-- Behind the question mark. -/
def atQuery : List (Thread RequestAction) := stateAfter uriRelaxed ['G', 'E', 'T', ' ', '/', '?']

/-- Inside a query. -/
def inQuery : List (Thread RequestAction) := stateAfter uriRelaxed ['G', 'E', 'T', ' ', '/', '?', 'a']

/-- Behind the number sign. -/
def atFragment : List (Thread RequestAction) := stateAfter uriRelaxed ['G', 'E', 'T', ' ', '/', '#']

/-- Inside a fragment. -/
def inFragment : List (Thread RequestAction) := stateAfter uriRelaxed ['G', 'E', 'T', ' ', '/', '#', 'a']

/-- Behind the blank in front of the version. -/
def atVersion : List (Thread RequestAction) := stateAfter false ['G', 'E', 'T', ' ', '/', ' ']

/-- The byte sets that the machine distinguishes from a path on. -/
def uriSets : List ByteSet :=
  [.diff any ascii, unreserved, subDelims uriRelaxed] ++
    ['%', ':', '@', '/', '?', '#', ' '].map fun c => .range c.toNat c.toNat

/-- The bytes that stand for themselves in a path. -/
def pathBytes : ByteSet :=
  .union (.diff any ascii) (.union unreserved (.union (subDelims uriRelaxed) (charSet [':', '@'])))

/-- The bytes that stand for themselves in a query or a fragment. -/
def queryBytes : ByteSet := .union (pathBytes uriRelaxed) (charSet ['/', '?'])

/-- One byte of a path for each of the sets. -/
def pathReps : List UInt8 := asciiText ['a', '!', ':', '@'] ++ [128]

/-- One byte of a query for each of the sets. -/
def queryReps : List UInt8 := pathReps ++ asciiText ['/', '?']

/-- What the machine does on an escaped byte: it goes through two more states, and then it is inside. -/
def escapes (ts inside : List (Thread RequestAction)) (acts : List RequestAction) : Bool :=
  match step ts 37 with
  | none => false
  | some (first, acts') =>
    match step first 48 with
    | none => false
    | some (second, _) =>
      decide (acts' = acts) && settled [xdigit] [48] first second [] && settled [xdigit] [48] second inside []

/-- What the machine does between a request line's method and its version: at the slash, and inside and at
the end of a path, a query and a fragment. -/
theorem uri_transitions :
    (represented (uriSets uriRelaxed) (pathBytes uriRelaxed) pathReps = true ∧
      represented (uriSets uriRelaxed) (queryBytes uriRelaxed) queryReps = true) ∧
    (let before := scan RequestAction.breaks (asciiText ['G', 'E', 'T', ' ']) (some (httpParserStart uriRelaxed))
     let slash := scan RequestAction.breaks [47] (some (atUri uriRelaxed))
     before.stopped = false ∧ before.cs.isSome ∧ slash.cs.isSome ∧ slash.st = [(0, mark)] ∧
       slash.stopped = false) ∧
    (settled (uriSets uriRelaxed) pathReps (atPath uriRelaxed) (inPath uriRelaxed) [] = true ∧
      settled (uriSets uriRelaxed) pathReps (inPath uriRelaxed) (inPath uriRelaxed) [] = true ∧
      escapes (atPath uriRelaxed) (inPath uriRelaxed) [] = true ∧
      escapes (inPath uriRelaxed) (inPath uriRelaxed) [] = true ∧
      Reads (inPath uriRelaxed) [47] (inPath uriRelaxed) [] ∧
      ∀ ts ∈ [atPath uriRelaxed, inPath uriRelaxed],
        Reads ts [63] (atQuery uriRelaxed) [(0, requestPath)] ∧
        Reads ts [35] (atFragment uriRelaxed) [(0, requestPath), (0, requestUri)] ∧
        Reads ts [32] atVersion [(0, requestPath), (0, requestUri)]) ∧
    (settled (uriSets uriRelaxed) queryReps (atQuery uriRelaxed) (inQuery uriRelaxed) [startQuery] = true ∧
      settled (uriSets uriRelaxed) queryReps (inQuery uriRelaxed) (inQuery uriRelaxed) [] = true ∧
      escapes (atQuery uriRelaxed) (inQuery uriRelaxed) [startQuery] = true ∧
      escapes (inQuery uriRelaxed) (inQuery uriRelaxed) [] = true ∧
      Reads (inQuery uriRelaxed) [35] (atFragment uriRelaxed) [(0, queryString), (0, requestUri)] ∧
      Reads (inQuery uriRelaxed) [32] atVersion [(0, queryString), (0, requestUri)]) ∧
    settled (uriSets uriRelaxed) queryReps (atFragment uriRelaxed) (inFragment uriRelaxed) [mark] = true ∧
      settled (uriSets uriRelaxed) queryReps (inFragment uriRelaxed) (inFragment uriRelaxed) [] = true ∧
      escapes (atFragment uriRelaxed) (inFragment uriRelaxed) [mark] = true ∧
      escapes (inFragment uriRelaxed) (inFragment uriRelaxed) [] = true ∧
      Reads (inFragment uriRelaxed) [32] atVersion [(0, fragment)] := by
  cases uriRelaxed <;> decide +kernel

/-- The representatives of a path. -/
theorem represented_path : represented (uriSets uriRelaxed) (pathBytes uriRelaxed) pathReps = true :=
  (uri_transitions uriRelaxed).1.1

/-- The representatives of a query. -/
theorem represented_query : represented (uriSets uriRelaxed) (queryBytes uriRelaxed) queryReps = true :=
  (uri_transitions uriRelaxed).1.2

/-- The methods of the table are made of bytes of a method, with one exception. -/
theorem method_bytes {entry : HttpMethod × Bytes} (hentry : entry ∈ httpMethodMap) (hother : entry.1 ≠ .msearch) :
    entry.2 ≠ [] ∧ (∀ c ∈ entry.2, methodBytes.has c = true) ∧ entry.2.length ≤ 20 := by
  have hall := List.all_eq_true.mp byte_classes.2.2 entry hentry
  rw [decide_eq_false hother, Bool.false_or, Bool.and_eq_true, Bool.and_eq_true] at hall
  obtain ⟨⟨hne, hbytes⟩, hlength⟩ := hall
  exact ⟨by simpa using hne, List.all_eq_true.mp hbytes, Nat.le_of_ble_eq_true hlength⟩

/-- Over a method and the blank behind it. -/
theorem reads_methodBytes {text : Bytes} (hne : text ≠ []) (htext : ∀ c ∈ text, methodBytes.has c = true)
    (hlength : text.length ≤ 20) :
    Reads (httpParserStart uriRelaxed) (text ++ [32]) (atUri uriRelaxed)
      [(0, mark), (text.length, requestMethod)] := by
  obtain ⟨q, hq⟩ := exists_methodThread uriRelaxed
  have hread : ∀ {text : Bytes}, text ≠ [] → (∀ c ∈ text, methodBytes.has c = true) → text.length ≤ 20 →
      Reads (httpParserStart uriRelaxed) (text ++ [32]) [q.behind] [(0, mark), (text.length, requestMethod)] := by
    intro text hne htext hlength
    cases text with
    | nil => exact absurd rfl hne
    | cons c text =>
      have hrest := q.reads_inside (fun d hd => htext d (List.mem_cons_of_mem c hd)) (Nat.le_of_succ_le_succ hlength)
      have hboth := (Consumes.byte (hq c (htext c List.mem_cons_self)) rfl).append hrest
      simpa [shifted] using hboth
  have huri : atUri uriRelaxed = [q.behind] := by
    obtain ⟨hget, hbytes, hle⟩ := @method_bytes (.get, asciiText ['G', 'E', 'T']) (by decide) (by decide)
    have hget := hread hget hbytes hle
    exact congrArg (fun e => e.cs.getD []) hget
  rw [huri]
  exact hread hne htext hlength

/-- The machine on the methods of the table. -/
theorem reads_method {entry : HttpMethod × Bytes} (hentry : entry ∈ httpMethodMap) (hother : entry.1 ≠ .msearch) :
    Reads (httpParserStart uriRelaxed) (entry.2 ++ [32]) (atUri uriRelaxed)
      [(0, mark), (entry.2.length, requestMethod)] := by
  obtain ⟨hne, hbytes, hlength⟩ := method_bytes hentry hother
  exact reads_methodBytes uriRelaxed hne hbytes hlength

/-- The machine on the slash that begins a path. -/
theorem reads_slash : Reads (atUri uriRelaxed) [47] (atPath uriRelaxed) [(0, mark)] := by
  obtain ⟨hgoes, hbefore, hsome, hone, hgoes'⟩ := (uri_transitions uriRelaxed).2.1
  obtain ⟨ts, hts⟩ := Option.isSome_iff_exists.mp hbefore
  have huri : atUri uriRelaxed = ts := by rw [atUri, stateAfter, hts, Option.getD_some]
  have hslash := Consumes.behind hgoes (hts.trans (congrArg some huri.symm)) hsome hgoes'
  rwa [hone] at hslash

variable {uriRelaxed} {ts inside : List (Thread RequestAction)} {acts : List RequestAction}

/-- Over an escaped byte. -/
theorem moves_pctEncoded (h : escapes ts inside acts = true)
    (hacts : acts.all (fun a => !RequestAction.breaks a) = true) :
    Moves RequestAction.breaks ts pctEncoded inside (acts.map fun a => (0, a)) := by
  have hdigits := byte_classes.1
  unfold escapes at h
  split at h
  · cases h
  · rename_i first acts' hfirst
    split at h
    · cases h
    · simp only [Bool.and_eq_true, decide_eq_true_eq] at h
      obtain ⟨⟨rfl, hone⟩, htwo⟩ := h
      have hpercent : Moves RequestAction.breaks ts (.chr '%' : Expr) first (acts'.map fun a => (0, a)) := by
        intro w hw
        obtain rfl := (Rx.mem_lang_chr (by decide)).mp hw
        exact .byte hfirst hacts
      exact hpercent.cat ((Moves.byte hdigits hone rfl).cat (Moves.byte hdigits htwo rfl))

/-- Over one byte of a path, possibly escaped. -/
theorem moves_pchar (hstep : ∀ c, (pathBytes uriRelaxed).has c = true → step ts c = some (inside, acts))
    (hescapes : escapes ts inside acts = true) (hacts : acts.all (fun a => !RequestAction.breaks a) = true) :
    Moves RequestAction.breaks ts (pchar uriRelaxed) inside (acts.map fun a => (0, a)) := by
  have hone : ∀ set : ByteSet, (∀ c, set.has c = true → (pathBytes uriRelaxed).has c = true) →
      Moves RequestAction.breaks ts (.byte set : Expr) inside (acts.map fun a => (0, a)) := by
    rintro set hset w ⟨c, hc, rfl⟩
    exact .byte (hstep c (hset c hc)) hacts
  refine (hone _ fun c hc => ?_).alt ((hone _ fun c hc => ?_).alt ((moves_pctEncoded hescapes hacts).alt
    ((hone _ fun c hc => ?_).alt ((hone _ fun c hc => ?_).alt (hone _ fun c hc => ?_)))))
  all_goals simp only [pathBytes, charSet, ByteSet.has, Bool.or_eq_true] at hc ⊢; tauto

/-- Over one byte of a query or a fragment, possibly escaped. -/
theorem moves_queryChar (hsettled : settled (uriSets uriRelaxed) queryReps ts inside acts = true)
    (hescapes : escapes ts inside acts = true) (hacts : acts.all (fun a => !RequestAction.breaks a) = true) :
    Moves RequestAction.breaks ts (queryChar uriRelaxed) inside (acts.map fun a => (0, a)) := by
  have hstep : ∀ c, (queryBytes uriRelaxed).has c = true → step ts c = some (inside, acts) :=
    fun c hc => step_of_settled (represented_query uriRelaxed) hsettled hc
  have hpath : ∀ c, (pathBytes uriRelaxed).has c = true → step ts c = some (inside, acts) :=
    fun c hc => hstep c (by rw [queryBytes, ByteSet.has, hc, Bool.true_or])
  have hone : ∀ ch ∈ ['/', '?'],
      Moves RequestAction.breaks ts (.chr ch : Expr) inside (acts.map fun a => (0, a)) := by
    rintro ch hch w ⟨c, hc, rfl⟩
    refine .byte (hstep c ?_) hacts
    simp only [queryBytes, charSet, ByteSet.has, Bool.or_eq_true]
    rcases List.mem_pair.mp hch with rfl | rfl
    · exact .inr (.inl hc)
    · exact .inr (.inr hc)
  exact (moves_pchar hpath hescapes hacts).alt ((hone '/' (by decide)).alt (hone '?' (by decide)))

/-- Over a path, up to its last byte. -/
theorem reads_path {path : Bytes} (hpath : path ∈ (pathAbsolute uriRelaxed).lang) :
    ∃ ts ∈ [atPath uriRelaxed, inPath uriRelaxed], Reads (atUri uriRelaxed) path ts [(0, mark)] := by
  obtain ⟨hfirst, hmore, hfirstEscapes, hmoreEscapes, hslash, -⟩ := (uri_transitions uriRelaxed).2.2.1
  have hchar : Moves RequestAction.breaks (inPath uriRelaxed) (pchar uriRelaxed) (inPath uriRelaxed) [] :=
    moves_pchar (fun c hc => step_of_settled (represented_path uriRelaxed) hmore hc) hmoreEscapes rfl
  have hbegin : Moves RequestAction.breaks (atPath uriRelaxed) (pchar uriRelaxed) (inPath uriRelaxed) [] :=
    moves_pchar (fun c hc => step_of_settled (represented_path uriRelaxed) hfirst hc) hfirstEscapes rfl
  have hsegments : Moves RequestAction.breaks (inPath uriRelaxed) (segments uriRelaxed) (inPath uriRelaxed) [] := by
    refine Moves.star (Moves.cat (fun w hw => ?_) hchar.star)
    obtain rfl := (Rx.mem_lang_chr (by decide)).mp hw
    exact hslash
  obtain ⟨slash, hone, rest, hrest, rfl⟩ := Rx.mem_lang_cat.mp hpath
  obtain rfl := (Rx.mem_lang_chr (by decide)).mp hone
  rcases Rx.mem_lang_alt.mp hrest with hrest | hnil
  · refine ⟨inPath uriRelaxed, List.mem_cons_of_mem _ List.mem_cons_self, ?_⟩
    exact (reads_slash uriRelaxed).append (((hbegin.cat hchar.star).cat hsegments) rest hrest)
  · obtain rfl := Rx.mem_lang_empty.mp hnil
    exact ⟨atPath uriRelaxed, List.mem_cons_self, reads_slash uriRelaxed⟩

/-- Over a query or a fragment that is not empty. -/
theorem reads_nonempty {text : Bytes} (hfirst : Moves RequestAction.breaks ts (queryChar uriRelaxed) inside
      (acts.map fun a => (0, a)))
    (hmore : Moves RequestAction.breaks inside (queryChar uriRelaxed) inside [])
    (htext : text ∈ (Rx.star (queryChar uriRelaxed)).lang) (hne : text ≠ []) :
    Reads ts text inside (acts.map fun a => (0, a)) := by
  obtain ⟨ws, rfl, hws⟩ := Rx.mem_lang_star.mp htext
  cases ws with
  | nil => exact absurd rfl hne
  | cons w ws =>
    have hrest : ws.flatten ∈ (Rx.star (queryChar uriRelaxed)).lang :=
      Rx.mem_lang_star.mpr ⟨ws, rfl, fun x hx => hws x (List.mem_cons_of_mem w hx)⟩
    have hboth := (hfirst w (hws w List.mem_cons_self)).append (hmore.star _ hrest)
    simpa [shifted] using hboth

/-- Over a query. -/
theorem reads_query {text : Bytes} (htext : text ∈ (query uriRelaxed).lang) (hne : text ≠ []) :
    Reads (atQuery uriRelaxed) text (inQuery uriRelaxed) [(0, startQuery)] := by
  obtain ⟨hfirst, hmore, hfirstEscapes, hmoreEscapes, -⟩ := (uri_transitions uriRelaxed).2.2.2.1
  exact reads_nonempty (moves_queryChar hfirst hfirstEscapes rfl) (moves_queryChar hmore hmoreEscapes rfl) htext hne

/-- Over a fragment. -/
theorem reads_fragment {text : Bytes} (htext : text ∈ (fragmentPart uriRelaxed).lang) (hne : text ≠ []) :
    Reads (atFragment uriRelaxed) text (inFragment uriRelaxed) [(0, mark)] := by
  obtain ⟨hfirst, hmore, hfirstEscapes, hmoreEscapes, -⟩ := (uri_transitions uriRelaxed).2.2.2.2
  exact reads_nonempty (moves_queryChar hfirst hfirstEscapes rfl) (moves_queryChar hmore hmoreEscapes rfl) htext hne

end Uri

/-! ## The headers -/

/-- A request line. -/
def lineOnly : List Char := ['G', 'E', 'T', ' ', '/', ' ', 'H', 'T', 'T', 'P', '/', '1', '.', '1', '\n']

/-- Behind the line end of the request line or of a header. -/
def atHeader : List (Thread RequestAction) := stateAfter false lineOnly

/-- Inside the name of a header. -/
def inName : List (Thread RequestAction) := stateAfter false (lineOnly ++ ['a'])

/-- Behind a carriage return that may begin a name or the empty line. -/
def atReturn : List (Thread RequestAction) := stateAfter false (lineOnly ++ ['\r'])

/-- Behind the colon. -/
def atValue : List (Thread RequestAction) := stateAfter false (lineOnly ++ ['a', ':'])

/-- Behind a blank in front of a value. -/
def atBlank : List (Thread RequestAction) := stateAfter false (lineOnly ++ ['a', ':', ' '])

/-- Inside the value of a header. -/
def inValue : List (Thread RequestAction) := stateAfter false (lineOnly ++ ['a', ':', 'a'])

/-- Behind a blank inside a value. -/
def inBlank : List (Thread RequestAction) := stateAfter false (lineOnly ++ ['a', ':', 'a', ' '])

/-- The byte sets that the machine distinguishes in a name. -/
def nameSets : List ByteSet := [token, .range 13 13, .range 10 10, .range 58 58]

/-- The bytes of a name that are not those of a line end. -/
def nameBytes : ByteSet := .diff token (.union (.range 13 13) (.range 10 10))

/-- The byte sets that the machine distinguishes in a value. -/
def valueSets : List ByteSet := [.diff any httpCtl, blank, .range 13 13, .range 10 10]

/-- The bytes of a value that are neither blanks nor control characters. -/
def valueBytes : ByteSet := .diff (.range 33 255) (.range 127 127)

/-- Whether a header value may hold a byte: blanks, and no control characters. -/
def isPrintable (c : UInt8) : Prop := 32 ≤ c.toNat ∧ c.toNat ≠ 127

/-- What the machine does on a version, inside and at the end of a name and of a value, and on the empty
line or a line feed in its place. -/
theorem header_transitions :
    (∀ minor ∈ [(48 : UInt8), 49],
      Reads atVersion (asciiText ['H', 'T', 'T', 'P', '/', '1', '.'] ++ [minor] ++ [13, 10]) atHeader
        [(0, mark), (8, httpVersion)]) ∧
    (represented nameSets nameBytes [97] = true ∧
      settled nameSets [97] atHeader inName [startField] = true ∧
      (∀ ts ∈ [inName, atReturn], settled nameSets [97] ts inName [] = true ∧ Reads ts [13] inName [] ∧
        Reads ts [58] atValue [(0, writeField)]) ∧
      Reads atHeader [13] atReturn [(0, startField)] ∧ Reads inName [10] inName []) ∧
    (represented valueSets valueBytes [97] = true ∧
      settled valueSets [97] atValue inValue [startValue] = true ∧
      Reads atValue [32] atBlank [(0, startValue)] ∧ settled valueSets [97] atBlank inValue [startValue] = true ∧
      Reads atValue [13, 10] atHeader [(0, startValue), (0, writeValue)] ∧
      ∀ ts ∈ [inValue, inBlank], settled valueSets [97] ts inValue [] = true ∧ Reads ts [32] inBlank [] ∧
        Reads ts [13, 10] atHeader [(0, writeValue)]) ∧
    ∀ line ∈ [([13, 10] : Bytes), [10]],
      let e := scan RequestAction.breaks line (some atHeader)
      e.st = [(0, startField), (line.length - 1, done)] ∧ e.p = line.length ∧ e.stopped = true ∧
        e.cs.elim false isFinal = true := by
  decide +kernel

/-- A byte of a value that is not a blank. -/
theorem has_valueBytes {c : UInt8} (h : isPrintable c) (hblank : c ≠ 32) : valueBytes.has c = true := by
  obtain ⟨hle, hdel⟩ := h
  have hne : c.toNat ≠ 32 := fun h => hblank (UInt8.toNat_inj.mp h)
  have hlt := c.toNat_lt
  have hiff : valueBytes.has c = true ↔
      (33 ≤ c.toNat ∧ c.toNat ≤ 255) ∧ ¬(127 ≤ c.toNat ∧ c.toNat ≤ 127) := by
    rw [valueBytes, ByteSet.has, Bool.and_eq_true, Bool.not_eq_true', ← Bool.not_eq_true]
    simp only [ByteSet.has, Bool.and_eq_true, Nat.ble_eq]
  exact hiff.mpr ⟨by omega, by omega⟩

/-- Over the rest of a value. -/
theorem reads_printable {text : Bytes} (htext : ∀ c ∈ text, isPrintable c) {ts : List (Thread RequestAction)}
    (hts : ts ∈ [inValue, inBlank]) : ∃ ts' ∈ [inValue, inBlank], Reads ts text ts' [] := by
  obtain ⟨hreps, -, -, -, -, hinside⟩ := header_transitions.2.2.1
  induction text generalizing ts with
  | nil => exact ⟨ts, hts, .nil ts⟩
  | cons c text ih =>
    obtain ⟨hplain, hblank, -⟩ := hinside ts hts
    have hprintable := htext c List.mem_cons_self
    have hrest : ∀ d ∈ text, isPrintable d := fun d hd => htext d (List.mem_cons_of_mem c hd)
    by_cases hc : c = 32
    · obtain ⟨ts', hts', hread⟩ := ih hrest (List.mem_cons_of_mem _ List.mem_cons_self : inBlank ∈ [inValue, inBlank])
      exact ⟨ts', hts', hc ▸ hblank.append hread⟩
    · obtain ⟨ts', hts', hread⟩ := ih hrest (List.mem_cons_self : inValue ∈ [inValue, inBlank])
      have hbyte := step_of_settled hreps hplain (has_valueBytes hprintable hc)
      exact ⟨ts', hts', (Consumes.byte hbyte rfl).append hread⟩

/-- Over a value that does not begin with a blank, and the line end behind it. -/
theorem reads_value {text : Bytes} (htext : ∀ c ∈ text, isPrintable c) (hfirst : text.head? ≠ some 32) :
    Reads atValue (text ++ [13, 10]) atHeader [(0, startValue), (text.length, writeValue)] := by
  obtain ⟨hreps, hbegin, -, -, hempty, hinside⟩ := header_transitions.2.2.1
  cases text with
  | nil => exact hempty
  | cons c text =>
    have hc : c ≠ 32 := fun h => hfirst (congrArg some h)
    have hone : Reads atValue [c] inValue [(0, startValue)] :=
      .byte (step_of_settled hreps hbegin (has_valueBytes (htext c List.mem_cons_self) hc)) rfl
    obtain ⟨ts, hts, hread⟩ := reads_printable (fun d hd => htext d (List.mem_cons_of_mem c hd))
      (List.mem_cons_self : inValue ∈ [inValue, inBlank])
    have hall := (hone.append hread).append (hinside ts hts).2.2
    simpa [shifted] using hall

/-- Over a value that has a blank in front of it, and the line end behind it. -/
theorem reads_valueBehindBlank {text : Bytes} (htext : ∀ c ∈ text, isPrintable c) (hne : text ≠ [])
    (hfirst : text.head? ≠ some 32) :
    Reads atValue ([32] ++ text ++ [13, 10]) atHeader
      [(0, startValue), (1, startValue), (1 + text.length, writeValue)] := by
  obtain ⟨hreps, -, hblank, hbegin, -, hinside⟩ := header_transitions.2.2.1
  cases text with
  | nil => exact absurd rfl hne
  | cons c text =>
    have hc : c ≠ 32 := fun h => hfirst (congrArg some h)
    have hone : Reads atBlank [c] inValue [(0, startValue)] :=
      .byte (step_of_settled hreps hbegin (has_valueBytes (htext c List.mem_cons_self) hc)) rfl
    obtain ⟨ts, hts, hread⟩ := reads_printable (fun d hd => htext d (List.mem_cons_of_mem c hd))
      (List.mem_cons_self : inValue ∈ [inValue, inBlank])
    have hall := ((hblank.append hone).append hread).append (hinside ts hts).2.2
    simpa [shifted, Nat.add_comm] using hall

/-- Whether a name begins with a line end, which ends the head. -/
def EndsHead (name : Bytes) : Prop := name.head? = some 10 ∨ name.take 2 = [13, 10]

instance (name : Bytes) : Decidable (EndsHead name) :=
  inferInstanceAs (Decidable (name.head? = some 10 ∨ name.take 2 = [13, 10]))

/-- A byte of a name that is not one of a line end. -/
theorem has_nameBytes {c : UInt8} (h : token.has c = true) (hreturn : c ≠ 13) (hfeed : c ≠ 10) :
    nameBytes.has c = true := by
  have hreturn' : c.toNat ≠ 13 := fun h => hreturn (UInt8.toNat_inj.mp h)
  have hfeed' : c.toNat ≠ 10 := fun h => hfeed (UInt8.toNat_inj.mp h)
  rw [nameBytes, ByteSet.has, h, Bool.true_and, Bool.not_eq_true', ← Bool.not_eq_true, ByteSet.has, Bool.or_eq_true,
    ByteSet.has_one, ByteSet.has_one]
  omega

/-- Over the rest of a name. -/
theorem reads_token {text : Bytes} (htext : ∀ c ∈ text, token.has c = true) {ts : List (Thread RequestAction)}
    (hts : ts ∈ [inName, atReturn]) (hfirst : ts = inName ∨ text.head? ≠ some 10) :
    ∃ ts' ∈ [inName, atReturn], Reads ts text ts' [] := by
  obtain ⟨hreps, -, hinside, -, hfeed⟩ := header_transitions.2.1
  induction text generalizing ts with
  | nil => exact ⟨ts, hts, .nil ts⟩
  | cons c text ih =>
    obtain ⟨hplain, hreturn, -⟩ := hinside ts hts
    have hone : Reads ts [c] inName [] := by
      by_cases hc : c = 13
      · exact hc ▸ hreturn
      · by_cases hc' : c = 10
        · have hname : ts = inName := hfirst.resolve_right fun h => h (congrArg some hc')
          rw [hname, hc']
          exact hfeed
        · exact .byte (step_of_settled hreps hplain (has_nameBytes (htext c List.mem_cons_self) hc hc')) rfl
    obtain ⟨ts', hts', hread⟩ := ih (fun d hd => htext d (List.mem_cons_of_mem c hd))
      (List.mem_cons_self : inName ∈ [inName, atReturn]) (.inl rfl)
    exact ⟨ts', hts', hone.append hread⟩

/-- Over a name that does not end the head, and the colon behind it. -/
theorem reads_name {name : Bytes} (hne : name ≠ []) (hname : ∀ c ∈ name, token.has c = true)
    (hends : ¬EndsHead name) :
    Reads atHeader (name ++ [58]) atValue [(0, startField), (name.length, writeField)] := by
  obtain ⟨hreps, hbegin, hinside, hreturn, -⟩ := header_transitions.2.1
  cases name with
  | nil => exact absurd rfl hne
  | cons c name =>
    have hfeed : c ≠ 10 := fun h => hends (.inl (congrArg some h))
    obtain ⟨ts, hts, hone, hfirst⟩ : ∃ ts ∈ [inName, atReturn], Reads atHeader [c] ts [(0, startField)] ∧
        (ts = inName ∨ name.head? ≠ some 10) := by
      by_cases hc : c = 13
      · refine ⟨atReturn, List.mem_cons_of_mem _ List.mem_cons_self, hc ▸ hreturn, .inr fun hhead => ?_⟩
        cases name with
        | nil => cases hhead
        | cons d name =>
          refine hends (.inr ?_)
          rw [hc, Option.some.inj hhead]
          rfl
      · have hbyte := has_nameBytes (hname c List.mem_cons_self) hc hfeed
        refine ⟨inName, List.mem_cons_self, .byte (step_of_settled hreps hbegin hbyte) rfl, .inl rfl⟩
    obtain ⟨ts', hts', hread⟩ := reads_token (fun d hd => hname d (List.mem_cons_of_mem c hd)) hts hfirst
    have hall := (hone.append hread).append (hinside ts' hts').2.2
    simpa [shifted] using hall

/-- Over a header. -/
theorem reads_header {name value : Bytes} (hne : name ≠ []) (hname : ∀ c ∈ name, token.has c = true)
    (hends : ¬EndsHead name) (hvalue : ∀ c ∈ value, isPrintable c) (hfirst : value.head? ≠ some 32) :
    Reads atHeader (name ++ [58] ++ (value ++ [13, 10])) atHeader
      [(0, startField), (name.length, writeField), (name.length + 1, startValue),
        (name.length + 1 + value.length, writeValue)] := by
  have hboth := (reads_name hne hname hends).append (reads_value hvalue hfirst)
  simpa [shifted, Nat.add_comm, Nat.add_left_comm] using hboth

end RequestMachine

end Bobliew.Http
