import Bobliew.Http.Server
import Bobliew.Lib.RagelParts

/-!
# Runs of the response machine

The states that the response machine passes through while it reads a head, each given by a text that leads to
it, and what it performs from one to the next. While it reads the name of a header it is in a state of its own
for each part of the three names that the grammar singles out, and in one further state for all other names,
so a name is read letter by letter along these three names until it leaves them.

Behind `connection: close` the machine has still to perform an action of the line that it has read, and it does
so on the next byte, whichever that is.
-/

namespace Bobliew.Http

open Ragel

namespace ResponseMachine

open ResponseAction ResponseGrammar

/-- The state of the machine behind a text. -/
def stateAfter (w : Bytes) : List (Thread ResponseAction) :=
  (scan ResponseAction.breaks w (some httpclientParserStart)).cs.getD []

/-- The machine reads a text between two states. -/
abbrev Reads (ts : List (Thread ResponseAction)) (w : Bytes) (ts' : List (Thread ResponseAction))
    (evs : List (ℕ × ResponseAction)) : Prop :=
  Consumes ResponseAction.breaks ts w ts' evs

/-- A version and the blank behind it. -/
def versionOnly : Bytes := asciiText ['H', 'T', 'T', 'P', '/', '1', '.', '1', ' ']

/-- A status line. -/
def lineOnly : Bytes := versionOnly ++ asciiText ['2', ' ', 'a', '\n']

/-! ## States -/

/-- Behind the version. -/
def atStatus : List (Thread ResponseAction) := stateAfter versionOnly

/-- Inside the status code. -/
def inStatus : List (Thread ResponseAction) := stateAfter (versionOnly ++ asciiText ['2'])

/-- Behind the status code. -/
def atReason : List (Thread ResponseAction) := stateAfter (versionOnly ++ asciiText ['2', ' '])

/-- Inside the reason. -/
def inReason : List (Thread ResponseAction) := stateAfter (versionOnly ++ asciiText ['2', ' ', 'a'])

/-- Behind the line end of the status line or of a header. -/
def atHeader : List (Thread ResponseAction) := stateAfter lineOnly

/-- Behind the line end of a header that asks to close the connection. -/
def atHeaderClose : List (Thread ResponseAction) :=
  stateAfter (lineOnly ++ connectionName ++ [58] ++ connectionValue true ++ [10])

/-- Behind the colon. -/
def atValue : List (Thread ResponseAction) := stateAfter (lineOnly ++ asciiText ['z', ':'])

/-- Behind a blank in front of a value. -/
def atBlank : List (Thread ResponseAction) := stateAfter (lineOnly ++ asciiText ['z', ':', ' '])

/-- Inside the value of a header. -/
def inValue : List (Thread ResponseAction) := stateAfter (lineOnly ++ asciiText ['z', ':', 'a'])

/-- In front of the number of a length. -/
def atLength : List (Thread ResponseAction) := stateAfter (lineOnly ++ contentLengthName ++ [58, 32])

/-- Inside the number of a length. -/
def inLength : List (Thread ResponseAction) := stateAfter (lineOnly ++ contentLengthName ++ [58, 32, 48])

/-! ## Lines with a fixed text -/

/-- The bytes that a reason or a value may hold. -/
def textBytes : ByteSet := .diff any (.union (.range 13 13) (.range 10 10))

/-- The bytes of a value that are not dropped in front of it. -/
def solidBytes : ByteSet := .diff textBytes space

/-- The bytes that are dropped in front of a value. -/
def gapBytes : ByteSet := .diff space (.union (.range 13 13) (.range 10 10))

/-- The byte sets that the machine distinguishes in a status line. -/
def lineSets : List ByteSet := [.diff any (.range 10 10), digit, .range 32 32, .range 13 13, .range 10 10]

/-- The byte sets that the machine distinguishes in a value. -/
def valueSets : List ByteSet := [any, space, digit, .range 13 13, .range 10 10]

/-- The bytes of each class are alike for the machine, except that a reason may hold digits and blanks. -/
theorem text_classes :
    represented lineSets digit [48] = true ∧ represented lineSets textBytes [97, 48, 32] = true ∧
      represented valueSets digit [48] = true ∧ represented valueSets solidBytes [97, 48] = true ∧
      represented valueSets gapBytes [32] = true := by
  decide +kernel

/-- What the machine does on a status line. -/
theorem line_transitions :
    (∀ minor ∈ [(48 : UInt8), 49],
      Reads httpclientParserStart (asciiText ['H', 'T', 'T', 'P', '/', '1', '.'] ++ [minor] ++ [32]) atStatus
        [(0, mark), (8, httpVersion)]) ∧
    settled lineSets [48] atStatus inStatus [mark] = true ∧ settled lineSets [48] inStatus inStatus [] = true ∧
      Reads inStatus [32] atReason [(0, statusCode)] ∧
    settled lineSets [97, 48, 32] atReason inReason [mark] = true ∧
      settled lineSets [97, 48, 32] inReason inReason [] = true ∧
      Reads inReason lineEnd atHeader [(0, reasonPhrase)] := by
  decide +kernel

/-- What the machine does on a value, and on the line end behind it. -/
theorem value_transitions :
    Reads atValue [32] atBlank [(0, startValue)] ∧
    settled valueSets [32] atBlank atBlank [startValue] = true ∧
    settled valueSets [97, 48] atBlank inValue [startValue] = true ∧
    (settled valueSets [97, 48] inValue inValue [] = true ∧ settled valueSets [32] inValue inValue [] = true) ∧
    Reads atBlank lineEnd atHeader [(0, startValue), (0, writeValue)] ∧
    Reads inValue lineEnd atHeader [(0, writeValue)] := by
  decide +kernel

/-- What the machine does on the emitted headers. -/
theorem emitted_transitions :
    Reads atHeader (connectionName ++ [58, 32] ++ connectionValue false ++ lineEnd) atHeader
      [(0, startField), (10, writeField), (11, startValue), (12, startValue), (22, writeValue)] ∧
    Reads atHeader (connectionName ++ [58, 32] ++ connectionValue true ++ lineEnd) atHeaderClose
      [(0, startField), (10, writeField), (11, startValue), (12, startValue), (17, writeValue)] ∧
    (Reads atHeader (contentLengthName ++ [58, 32]) atLength
        [(0, startField), (14, writeField), (15, startValue)] ∧
      Reads atHeaderClose (contentLengthName ++ [58, 32]) atLength
        [(0, writeConnectionClose), (0, startField), (14, writeField), (15, startValue)]) ∧
    settled valueSets [48] atLength inLength [startValue] = true ∧
      settled valueSets [48] inLength inLength [] = true ∧
      Reads inLength lineEnd atHeader [(0, writeContentLen), (0, writeValue)] := by
  decide +kernel

/-- What the machine does on the empty line: it breaks out of its loop in its first final state. -/
theorem end_transitions : ∀ start ∈ [(atHeader, ([] : List (ℕ × ResponseAction))),
      (atHeaderClose, [(0, writeConnectionClose)])],
    let e := scan ResponseAction.breaks lineEnd (some start.1)
    e.st = start.2 ++ [(1, done)] ∧ e.p = 2 ∧ e.stopped = true ∧
      e.cs.elim false (fun ts => isFinal ts && ts.all Rx.spent) = true := by
  decide +kernel

/-! ## Names -/

/-- `"transfer-encoding"`. -/
def transferEncodingName : Bytes :=
  asciiText ['t', 'r', 'a', 'n', 's', 'f', 'e', 'r', '-', 'e', 'n', 'c', 'o', 'd', 'i', 'n', 'g']

/-- The names that the grammar singles out. -/
def knownNames : List Bytes := [contentLengthName, connectionName, transferEncodingName]

/-- Whether a text begins one of these names. -/
def isKnown (w : Bytes) : Bool := knownNames.any fun name => w.isPrefixOf name

/-- The letters of these names. -/
def knownLetters : Bytes := knownNames.flatten.dedup

/-- The letters that continue a text to the beginning of one of these names. -/
def nextLetters (w : Bytes) : Bytes := knownLetters.filter fun c => isKnown (w ++ [c])

/-- The state inside a name of which a part is read. -/
def inName (w : Bytes) : List (Thread ResponseAction) :=
  stateAfter (lineOnly ++ if isKnown w then w else asciiText ['z'])

/-- A letter in both cases. -/
def bothCases (c : UInt8) : ByteSet :=
  .union (.range c.toNat c.toNat) (if c = 45 then .range 45 45 else .range (c - 32).toNat (c - 32).toNat)

/-- The byte sets that the machine distinguishes inside a name. -/
def nameSets (w : Bytes) : List ByteSet :=
  [token, .range 13 13, .range 10 10, .range 58 58] ++ (nextLetters w).map bothCases

/-- The actions on a byte of a name: the first one starts it. -/
def nameActions (w : Bytes) : List ResponseAction := if w = [] then [startField] else []

/-- The parts of the known names, and one text that is not among them. -/
def nameParts : List Bytes := (asciiText ['z'] :: knownNames.flatMap List.inits).dedup

/-- What the machine does inside a name, on the letters that continue it and on another one, and on the colon
behind any other name than these. -/
theorem name_transitions : nameParts.all (fun w =>
    beginsIn (inName w) (nameSets w) &&
      (122 :: nextLetters w).all (fun c => decide (step (inName w) c = some (inName (w ++ [c]), nameActions w))) &&
      (w.isEmpty || decide (w ∈ knownNames) || decide (step (inName w) 58 = some (atValue, [writeField])))) = true := by
  decide +kernel

/-- The letters of the known names are tokens, and each is told apart from all other bytes but its upper case. -/
theorem letter_classes : (122 :: knownLetters).all (fun l => token.has l && decide (toLower l = l) &&
      ((l == 122) || allBytes fun c => (bothCases l).has c == decide (toLower c = l))) = true ∧
    (122 ∉ knownLetters ∧ !isKnown (asciiText ['z'])) ∧
    [13, 10, 58].all (fun c => !token.has c) = true := by
  decide +kernel

variable {w : Bytes} {c : UInt8}

/-- A text begins a known name if it is a prefix of one. -/
theorem isKnown_iff : isKnown w = true ↔ ∃ name ∈ knownNames, w <+: name := by
  simp [isKnown, List.any_eq_true, List.isPrefixOf_iff_prefix]

/-- What a known name begins with is made of its letters. -/
theorem isKnown_concat (h : isKnown (w ++ [c]) = true) : isKnown w = true ∧ c ∈ knownLetters := by
  obtain ⟨name, hname, hprefix⟩ := isKnown_iff.mp h
  refine ⟨isKnown_iff.mpr ⟨name, hname, (List.prefix_append w [c]).trans hprefix⟩, List.mem_dedup.mpr ?_⟩
  exact List.mem_flatten.mpr ⟨name, hname, hprefix.subset (List.mem_append_right w List.mem_cons_self)⟩

/-- The letters that continue a text. -/
theorem mem_nextLetters : c ∈ nextLetters w ↔ isKnown (w ++ [c]) = true := by
  rw [nextLetters, List.mem_filter]
  exact and_iff_right_of_imp fun h => (isKnown_concat h).2

/-- There is one state for all texts that begin no known name. -/
theorem inName_congr {v : Bytes} (hw : isKnown w = false) (hv : isKnown v = false) : inName w = inName v := by
  simp only [inName, hw, hv, Bool.false_eq_true, if_false]

/-- A byte of a name is like the letter that continues the name, or like one that does not. -/
theorem alike_letter (hc : token.has c = true) :
    alike (nameSets w) c (if toLower c ∈ nextLetters w then toLower c else 122) = true := by
  obtain ⟨hletters, ⟨hother, -⟩, hnone⟩ := letter_classes
  generalize hd : (if toLower c ∈ nextLetters w then toLower c else 122) = d
  have hmem : d ∈ 122 :: knownLetters := by
    rw [← hd]
    split
    · rename_i hnext
      exact List.mem_cons_of_mem _ (isKnown_concat (mem_nextLetters.mp hnext)).2
    · exact List.mem_cons_self
  have hd' := List.all_eq_true.mp hletters d hmem
  rw [Bool.and_eq_true, Bool.and_eq_true, decide_eq_true_eq] at hd'
  obtain ⟨⟨htoken, hlower⟩, -⟩ := hd'
  refine List.all_eq_true.mpr fun s hs => ?_
  rcases List.mem_append.mp hs with hfixed | hcases
  · have hnot : ∀ l ∈ [(13 : UInt8), 10, 58], l ≠ c ∧ l ≠ d := by
      intro l hl
      have hl' := List.all_eq_true.mp hnone l hl
      constructor <;>
      · rintro rfl
        simp_all
    have hrange : ∀ l ∈ [(13 : UInt8), 10, 58],
        (ByteSet.range l.toNat l.toNat).has c = (ByteSet.range l.toNat l.toNat).has d := by
      intro l hl
      rw [Bool.eq_iff_iff, ByteSet.has_one, ByteSet.has_one]
      exact iff_of_false (fun h => (hnot l hl).1 (UInt8.toNat_inj.mp h.symm))
        fun h => (hnot l hl).2 (UInt8.toNat_inj.mp h.symm)
    simp only [List.mem_cons, List.not_mem_nil, or_false] at hfixed
    rcases hfixed with rfl | rfl | rfl | rfl
    · rw [hc, htoken]
      rfl
    · exact beq_iff_eq.mpr (hrange 13 (by decide))
    · exact beq_iff_eq.mpr (hrange 10 (by decide))
    · exact beq_iff_eq.mpr (hrange 58 (by decide))
  · obtain ⟨l, hl, rfl⟩ := List.mem_map.mp hcases
    have hknown := (isKnown_concat (mem_nextLetters.mp hl)).2
    have hl' := List.all_eq_true.mp hletters l (List.mem_cons_of_mem _ hknown)
    rw [Bool.and_eq_true, Bool.or_eq_true] at hl'
    have hboth := hl'.2.resolve_left fun h => hother (beq_iff_eq.mp h ▸ hknown)
    have hcase : ∀ x, (bothCases l).has x = decide (toLower x = l) :=
      fun x => beq_iff_eq.mp (of_allBytes hboth x)
    rw [hcase, hcase, hlower, ← hd]
    split
    · exact beq_iff_eq.mpr rfl
    · rename_i hnext
      have hneC : toLower c ≠ l := fun h => hnext (h ▸ hl)
      have hneZ : (122 : UInt8) ≠ l := fun h => hother (h ▸ hknown)
      simp [hneC, hneZ]

/-- On a byte of a name. -/
theorem step_name (hc : token.has c = true) :
    step (inName w) c = some (inName (w ++ [toLower c]), nameActions w) := by
  obtain ⟨-, ⟨hother, hz⟩, -⟩ := letter_classes
  rw [Bool.not_eq_true'] at hz
  obtain ⟨v, hv, hpart, hstate, hacts⟩ : ∃ v, v = (if isKnown w then w else asciiText ['z']) ∧ v ∈ nameParts ∧
      inName w = inName v ∧ nameActions w = nameActions v := by
    by_cases hw : isKnown w = true
    · obtain ⟨name, hname, hprefix⟩ := isKnown_iff.mp hw
      refine ⟨w, by rw [if_pos hw], List.mem_dedup.mpr (List.mem_cons_of_mem _ ?_), rfl, rfl⟩
      exact List.mem_flatMap.mpr ⟨name, hname, (List.mem_inits w name).mpr hprefix⟩
    · have hempty : w ≠ [] := fun h => hw (by rw [h]; rfl)
      refine ⟨asciiText ['z'], by rw [if_neg hw], List.mem_dedup.mpr List.mem_cons_self,
        inName_congr (Bool.not_eq_true _ ▸ hw) hz, ?_⟩
      rw [nameActions, if_neg hempty]
      rfl
  have htable := List.all_eq_true.mp name_transitions v hpart
  rw [Bool.and_eq_true, Bool.and_eq_true] at htable
  obtain ⟨⟨hsets, hletters⟩, -⟩ := htable
  rw [hstate, hacts, step_congr hsets (alike_letter hc)]
  by_cases hnext : toLower c ∈ nextLetters v
  · have hknown := mem_nextLetters.mp hnext
    have hsame : v = w := by
      by_cases hw : isKnown w = true
      · rw [hv, if_pos hw]
      · rw [hv, if_neg hw] at hknown
        exact absurd (isKnown_concat hknown).1 (by rw [hz]; exact Bool.false_ne_true)
    rw [if_pos hnext, of_decide_eq_true (List.all_eq_true.mp hletters _ (List.mem_cons_of_mem _ hnext)), hsame]
  · rw [if_neg hnext, of_decide_eq_true (List.all_eq_true.mp hletters _ List.mem_cons_self)]
    have hleft : isKnown (v ++ [122]) = false := by
      rw [← Bool.not_eq_true]
      exact fun h => hother (isKnown_concat h).2
    have hright : isKnown (w ++ [toLower c]) = false := by
      rw [← Bool.not_eq_true]
      intro h
      rw [hv, if_pos (isKnown_concat h).1] at hnext
      exact hnext (mem_nextLetters.mpr h)
    rw [inName_congr hleft hright]

/-- Over the rest of a name. -/
theorem reads_token {text : Bytes} (htext : ∀ c ∈ text, token.has c = true) (hw : w ≠ []) :
    Reads (inName w) text (inName (w ++ text.map toLower)) [] := by
  induction text generalizing w with
  | nil => simpa using Consumes.nil (inName w)
  | cons c text ih =>
    have hone := step_name (w := w) (htext c List.mem_cons_self)
    rw [nameActions, if_neg hw] at hone
    have hrest := ih (w := w ++ [toLower c]) (fun d hd => htext d (List.mem_cons_of_mem c hd)) (by simp)
    have hboth := (Consumes.byte hone rfl).append hrest
    simpa [shifted] using hboth

/-- Over a name and the colon behind it, if the grammar does not single the name out. -/
theorem reads_name {name : Bytes} (hne : name ≠ []) (hname : ∀ c ∈ name, token.has c = true)
    (hother : name.map toLower ∉ knownNames) :
    Reads atHeader (name ++ [58]) atValue [(0, startField), (name.length, writeField)] := by
  have hstart : atHeader = inName [] := rfl
  obtain ⟨c, name, rfl⟩ := List.exists_cons_of_ne_nil hne
  have hfirst := step_name (w := []) (hname c List.mem_cons_self)
  have hrest := reads_token (w := [toLower c]) (fun d hd => hname d (List.mem_cons_of_mem c hd)) (by simp)
  have hall : Reads atHeader (c :: name) (inName ((c :: name).map toLower)) [(0, startField)] := by
    have hboth := (Consumes.byte hfirst rfl).append hrest
    simpa [shifted, hstart, nameActions] using hboth
  have hcolon : step (inName ((c :: name).map toLower)) 58 = some (atValue, [writeField]) := by
    generalize hw : (c :: name).map toLower = w at hother
    have hempty : w ≠ [] := by
      rintro rfl
      cases hw
    obtain ⟨v, hpart, hstate, hv, hv'⟩ : ∃ v ∈ nameParts, inName w = inName v ∧ v ≠ [] ∧ v ∉ knownNames := by
      by_cases hknown : isKnown w = true
      · obtain ⟨known, hmem, hprefix⟩ := isKnown_iff.mp hknown
        refine ⟨w, List.mem_dedup.mpr (List.mem_cons_of_mem _ ?_), rfl, hempty, hother⟩
        exact List.mem_flatMap.mpr ⟨known, hmem, (List.mem_inits w known).mpr hprefix⟩
      · obtain ⟨-, ⟨-, hz⟩, -⟩ := letter_classes
        rw [Bool.not_eq_true'] at hz
        exact ⟨asciiText ['z'], List.mem_dedup.mpr List.mem_cons_self,
          inName_congr (Bool.not_eq_true _ ▸ hknown) hz, by decide, by decide⟩
    have htable := List.all_eq_true.mp name_transitions v hpart
    rw [Bool.and_eq_true, Bool.or_eq_true, Bool.or_eq_true, List.isEmpty_iff, decide_eq_true_eq,
      decide_eq_true_eq] at htable
    rw [hstate]
    exact htable.2.resolve_left fun h => h.elim hv hv'
  have hboth := hall.append (Consumes.byte hcolon rfl)
  simpa [shifted] using hboth

end ResponseMachine

end Bobliew.Http
