import Bobliew.Http.Request

/-!
# The patterns of log formatters

`LogFormatter::init` scans a pattern into tokens and makes an item of each. A `%` and the letters behind it
name an item, braces behind these hold a text for it, and `%%` is meant to stand for a `%`.

The escape appends a `%` and goes on at its second character, which is then the start of an item or of another
escape. A pattern is understood exactly if it holds no escape.
-/

namespace Bobliew

open Http (Bytes asciiText)

namespace LogFormatter

/-! ## Items -/

/-- The twelve classes of items. -/
inductive ItemClass where
  | message
  | level
  | elapse
  | name
  | threadId
  | newLine
  | dateTime
  | filename
  | line
  | tab
  | fiberId
  | threadName
  deriving DecidableEq

/-- A `FormatItem`: a text, or an item of one of the classes made with a format. -/
inductive FormatItem where
  | string (m_string : Bytes)
  | item (cls : ItemClass) (fmt : Bytes)
  deriving DecidableEq

/-- `s_format_items`. -/
def formatItems : List (Bytes × ItemClass) :=
  [([109], .message), ([112], .level), ([114], .elapse), ([99], .name), ([116], .threadId), ([110], .newLine),
    ([100], .dateTime), ([102], .filename), ([108], .line), ([84], .tab), ([70], .fiberId), ([78], .threadName)]

/-! ## The scanner -/

/-- A tuple that the scanner collects: a text, or a name and a format. -/
structure Token where
  str : Bytes
  fmt : Bytes
  isItem : Bool

/-- What the scanner has collected: its tokens, the text since the last one, and whether it met an error. -/
structure Scanned where
  vec : List Token
  nstr : Bytes
  m_error : Bool

/-- The variables of the inner loop. -/
structure ItemScan where
  n : ℕ
  inBraces : Bool
  fmt_begin : ℕ
  str : Bytes
  fmt : Bytes

/-- `isalpha` of a byte. -/
def isalpha (c : UInt8) : Bool :=
  (decide (65 ≤ c.toNat) && decide (c.toNat ≤ 90)) || (decide (97 ≤ c.toNat) && decide (c.toNat ≤ 122))

/-- `m_pattern.substr(pos, len)`. -/
def substr (m_pattern : Bytes) (pos len : ℕ) : Bytes := (m_pattern.drop pos).take len

/-- The inner loop of `LogFormatter::init`, over the characters of the pattern from `n` on; `i` is where the item
starts. -/
def scanItem (m_pattern : Bytes) (i : ℕ) : Bytes → ItemScan → ItemScan
  | [], s => s
  | c :: rest, s =>
    if s.inBraces = false ∧ isalpha c = false ∧ c ≠ 123 ∧ c ≠ 125 then
      { s with str := substr m_pattern (i + 1) (s.n - i - 1) }
    else if s.inBraces = false ∧ c = 123 then
      scanItem m_pattern i rest
        { s with str := substr m_pattern (i + 1) (s.n - i - 1), inBraces := true, fmt_begin := s.n, n := s.n + 1 }
    else if s.inBraces = true ∧ c = 125 then
      { s with fmt := substr m_pattern (s.fmt_begin + 1) (s.n - s.fmt_begin - 1), inBraces := false, n := s.n + 1 }
    else
      scanItem m_pattern i rest
        { s with
          n := s.n + 1
          str := if s.n + 1 = m_pattern.length ∧ s.str = [] then m_pattern.drop (i + 1) else s.str }

/-- The item that starts at `i`. -/
def itemAt (m_pattern : Bytes) (i : ℕ) : ItemScan :=
  scanItem m_pattern i (m_pattern.drop (i + 1)) ⟨i + 1, false, 0, [], []⟩

/-- The text that is kept back, as a token. -/
def Scanned.flush (s : Scanned) : List Token := if s.nstr = [] then s.vec else s.vec ++ [⟨s.nstr, [], false⟩]

/-- One round of the outer loop of `LogFormatter::init` at `i`, with the place where the next one goes on. -/
def initStep (m_pattern : Bytes) (i : ℕ) (s : Scanned) : Option (ℕ × Scanned) :=
  match m_pattern[i]? with
  | none => none
  | some c =>
    if c ≠ 37 then some (i + 1, { s with nstr := s.nstr ++ [c] })
    else if m_pattern[i + 1]? = some 37 then some (i + 1, { s with nstr := s.nstr ++ [37] })
    else
      let item := itemAt m_pattern i
      if item.inBraces = false then
        some (item.n - 1 + 1, { s with vec := s.flush ++ [⟨item.str, item.fmt, true⟩], nstr := [] })
      else
        some (i + 1, { s with vec := s.vec ++ [⟨asciiText "<<pattern_error>>".toList, item.fmt, false⟩],
                              m_error := true })

/-- The outer loop of `LogFormatter::init` with a bound on its rounds. -/
def initLoop (m_pattern : Bytes) : ℕ → ℕ → Scanned → Option Scanned
  | 0, _, _ => none
  | fuel + 1, i, s =>
    match initStep m_pattern i s with
    | none => some s
    | some next => initLoop m_pattern fuel next.1 next.2

/-- The class of the item that a token names. -/
def Token.class? (t : Token) : Option ItemClass := formatItems.lookup t.str

/-- The item made of a token. -/
def Token.formatItem (t : Token) : FormatItem :=
  if t.isItem then
    match t.class? with
    | some cls => .item cls t.fmt
    | none => .string (asciiText "<<error_format %".toList ++ t.str ++ asciiText ">>".toList)
  else .string t.str

/-- Whether no item has the name in a token. -/
def Token.unknown (t : Token) : Bool := t.isItem && t.class?.isNone

end LogFormatter

/-- A `LogFormatter` object. -/
structure LogFormatter where
  m_pattern : Bytes
  m_items : List LogFormatter.FormatItem
  m_error : Bool
  deriving DecidableEq

namespace LogFormatter

/-- The formatter made of what the scanner collected. -/
def ofScanned (m_pattern : Bytes) (s : Scanned) : LogFormatter where
  m_pattern := m_pattern
  m_items := s.flush.map Token.formatItem
  m_error := s.m_error || s.flush.any Token.unknown

/-- `LogFormatter::init`, with a bound on the rounds of its outer loop. -/
def init (fuel : ℕ) (m_pattern : Bytes) : Option LogFormatter :=
  (initLoop m_pattern fuel 0 ⟨[], [], false⟩).map (ofScanned m_pattern)

/-- `LogFormatter::format`, over what the items of each class write for an event. -/
def format (write : ItemClass → Bytes → Bytes) (f : LogFormatter) : Bytes :=
  f.m_items.flatMap fun
    | .string m_string => m_string
    | .item cls fmt => write cls fmt

/-! ## Patterns -/

/-- The letter that the documentation of the patterns gives to a class. -/
def ItemClass.letter : ItemClass → UInt8
  | .message => 109
  | .level => 112
  | .elapse => 114
  | .name => 99
  | .threadId => 116
  | .newLine => 110
  | .dateTime => 100
  | .filename => 102
  | .line => 108
  | .tab => 84
  | .fiberId => 70
  | .threadName => 78

/-- A part of a pattern. -/
inductive Piece where
  | literal (text : Bytes)
  | escape
  | item (cls : ItemClass)
  | braced (cls : ItemClass) (fmt : Bytes)
  deriving DecidableEq

/-- How a part is written. -/
def Piece.text : Piece → Bytes
  | .literal text => text
  | .escape => [37, 37]
  | .item cls => [37, cls.letter]
  | .braced cls fmt => [37, cls.letter, 123] ++ fmt ++ [125]

/-- A pattern is written part by part. -/
def patternOf (pieces : List Piece) : Bytes := pieces.flatMap Piece.text

/-- What may follow a letter without braces. -/
def endsItem (c : UInt8) : Prop := isalpha c = false ∧ c ≠ 123 ∧ c ≠ 125

/-- Parts that can be told apart: texts without `%`, formats without a closing brace, and items without a format
only at the end or before a character that ends them. -/
def Readable : List Piece → Prop
  | [] => True
  | .literal text :: rest => 37 ∉ text ∧ Readable rest
  | .escape :: rest => Readable rest
  | .item _ :: rest => (∀ c, (patternOf rest).head? = some c → endsItem c) ∧ Readable rest
  | .braced _ fmt :: rest => 125 ∉ fmt ∧ Readable rest

/-- What is put out: single characters and items. -/
inductive Atom where
  | char (c : UInt8)
  | item (cls : ItemClass) (fmt : Bytes)
  deriving DecidableEq

/-- What an item puts out. -/
def FormatItem.atoms : FormatItem → List Atom
  | .string m_string => m_string.map .char
  | .item cls fmt => [.item cls fmt]

/-- What a part is meant to put out. -/
def Piece.atoms : Piece → List Atom
  | .literal text => text.map .char
  | .escape => [.char 37]
  | .item cls => [.item cls []]
  | .braced cls fmt => [.item cls fmt]

/-- What the items of a formatter put out, in order. -/
def outline (f : LogFormatter) : List Atom := f.m_items.flatMap FormatItem.atoms

/-- What an atom writes. -/
def Atom.write (write : ItemClass → Bytes → Bytes) : Atom → Bytes
  | .char c => [c]
  | .item cls fmt => write cls fmt

/-- A formatter writes its outline. -/
theorem format_eq (write : ItemClass → Bytes → Bytes) (f : LogFormatter) :
    f.format write = f.outline.flatMap (Atom.write write) := by
  rw [format, outline, List.flatMap_assoc]
  refine List.flatMap_congr fun item _ => ?_
  cases item with
  | string m_string => simp [FormatItem.atoms, List.flatMap_map, Atom.write]
  | item cls fmt => simp [FormatItem.atoms, Atom.write]

/-- A pattern is understood: `init` ends, without an error, and its items put out what the parts are meant to. -/
def Understood (pieces : List Piece) : Prop :=
  ∃ f, (∀ fuel, (patternOf pieces).length < fuel → init fuel (patternOf pieces) = some f) ∧
    f.m_error = false ∧ f.outline = pieces.flatMap Piece.atoms

/-! ## Rounds of the outer loop -/

variable {p : Bytes} {i : ℕ} {s : Scanned} {r : Scanned}

/-- The inner loop does not go back. -/
theorem le_scanItem (p : Bytes) (i : ℕ) (rest : Bytes) (s : ItemScan) : s.n ≤ (scanItem p i rest s).n := by
  induction rest generalizing s with
  | nil => exact le_refl _
  | cons c rest ih =>
    rw [scanItem]
    split
    · exact le_refl _
    · split
      · refine le_trans ?_ (ih _)
        exact Nat.le_succ s.n
      · split
        · exact Nat.le_succ s.n
        · refine le_trans ?_ (ih _)
          exact Nat.le_succ s.n

/-- A round goes forward, and there is none behind the end of the pattern. -/
theorem lt_of_initStep {next : ℕ × Scanned} (h : initStep p i s = some next) : i < next.1 ∧ i < p.length := by
  have hitem : i + 1 ≤ (itemAt p i).n := le_scanItem p i (p.drop (i + 1)) ⟨i + 1, false, 0, [], []⟩
  unfold initStep at h
  split at h
  · cases h
  · rename_i c hc
    refine ⟨?_, (List.getElem?_eq_some_iff.mp hc).1⟩
    dsimp only at h
    split_ifs at h <;> obtain rfl := Option.some.inj h
    · exact Nat.lt_succ_self i
    · exact Nat.lt_succ_self i
    · change i < (itemAt p i).n - 1 + 1
      omega
    · exact Nat.lt_succ_self i

/-- From `i` the outer loop ends with `r`, on every bound that exceeds the rest of the pattern. -/
def Ends (p : Bytes) (i : ℕ) (s r : Scanned) : Prop := ∀ fuel, p.length - i < fuel → initLoop p fuel i s = some r

/-- Behind the last character the loop ends. -/
theorem Ends.stop (h : initStep p i s = none) : Ends p i s s := by
  intro fuel hfuel
  obtain ⟨fuel, rfl⟩ := Nat.exists_eq_succ_of_ne_zero (Nat.ne_zero_of_lt hfuel)
  rw [initLoop, h]

/-- A round, and the rounds after it. -/
theorem Ends.step {next : ℕ × Scanned} (h : initStep p i s = some next) (hrest : Ends p next.1 next.2 r) :
    Ends p i s r := by
  obtain ⟨hforward, hinside⟩ := lt_of_initStep h
  intro fuel hfuel
  obtain ⟨fuel, rfl⟩ := Nat.exists_eq_succ_of_ne_zero (Nat.ne_zero_of_lt hfuel)
  rw [initLoop, h]
  exact hrest fuel (by omega)

/-- The outer loop ends from every place. -/
theorem exists_ends (p : Bytes) (i : ℕ) (s : Scanned) : ∃ r, Ends p i s r := by
  induction hmeasure : p.length - i using Nat.strong_induction_on generalizing i s with
  | h measure ih =>
    cases hstep : initStep p i s with
    | none => exact ⟨s, Ends.stop hstep⟩
    | some next =>
      obtain ⟨hforward, hinside⟩ := lt_of_initStep hstep
      obtain ⟨r, hr⟩ := ih (p.length - next.1) (by omega) next.1 next.2 rfl
      exact ⟨r, Ends.step hstep hr⟩

/-- The loop ends in one way. -/
theorem Ends.unique {r' : Scanned} (h : Ends p i s r) (h' : Ends p i s r') : r = r' :=
  Option.some.inj ((h _ (Nat.lt_succ_self _)).symm.trans (h' _ (Nat.lt_succ_self _)))

/-! ## What is put out so far -/

/-- What a token puts out. -/
def Token.atoms (t : Token) : List Atom := t.formatItem.atoms

/-- What has been collected puts out, with the text that is kept back. -/
def Scanned.outline (s : Scanned) : List Atom := s.vec.flatMap Token.atoms ++ s.nstr.map .char

/-- No error was met, and every name is known. -/
def Scanned.Clean (s : Scanned) : Prop := s.m_error = false ∧ s.vec.any Token.unknown = false

/-- The text that is kept back becomes a token that puts it out. -/
theorem Scanned.flush_atoms (s : Scanned) : s.flush.flatMap Token.atoms = s.outline := by
  unfold Scanned.flush Scanned.outline
  split
  · rename_i hnil
    rw [hnil, List.map_nil, List.append_nil]
  · simp [Token.atoms, Token.formatItem, FormatItem.atoms]

/-- The text that is kept back has no unknown name. -/
theorem Scanned.flush_unknown (s : Scanned) : s.flush.any Token.unknown = s.vec.any Token.unknown := by
  unfold Scanned.flush
  split
  · rfl
  · simp [Token.unknown]

/-- The formatter puts out what was collected. -/
theorem outline_ofScanned (p : Bytes) (s : Scanned) : (ofScanned p s).outline = s.outline := by
  rw [outline, ofScanned, List.flatMap_map]
  exact s.flush_atoms

/-- The formatter has no error exactly if what was collected is clean. -/
theorem m_error_ofScanned (p : Bytes) (s : Scanned) : (ofScanned p s).m_error = false ↔ s.Clean := by
  rw [ofScanned, s.flush_unknown, Bool.or_eq_false_iff, Scanned.Clean]

/-- A known item puts out one atom. -/
theorem Token.atoms_of_known {str fmt : Bytes} (h : (Token.mk str fmt true).unknown = false) :
    ∃ cls, (Token.mk str fmt true).class? = some cls ∧ (Token.mk str fmt true).atoms = [.item cls fmt] := by
  unfold Token.unknown at h
  cases hclass : (Token.mk str fmt true).class? with
  | none => simp [hclass] at h
  | some cls => exact ⟨cls, rfl, by simp [Token.atoms, Token.formatItem, hclass, FormatItem.atoms]⟩

/-- What a round makes of a place, and the item of a place where no text and no escape stands. -/
inductive Round (p : Bytes) (i : ℕ) (s : Scanned) : ℕ × Scanned → Prop
  | char (c : UInt8) : Round p i s (i + 1, { s with nstr := s.nstr ++ [c] })
  | item : (itemAt p i).inBraces = false →
      Round p i s ((itemAt p i).n - 1 + 1,
        { s with vec := s.flush ++ [⟨(itemAt p i).str, (itemAt p i).fmt, true⟩], nstr := [] })
  | failed (vec : List Token) : Round p i s (i + 1, { s with vec := vec, m_error := true })

/-- A round keeps a character, collects an item, or fails. -/
theorem round_of_initStep {next : ℕ × Scanned} (h : initStep p i s = some next) : Round p i s next := by
  unfold initStep at h
  split at h
  · cases h
  · dsimp only at h
    split_ifs at h with _ _ hitem <;> obtain rfl := Option.some.inj h
    · exact .char _
    · exact .char _
    · exact .item hitem
    · exact .failed _

/-- A round that leaves something clean started clean and puts out more. -/
theorem Round.extends {next : ℕ × Scanned} (h : Round p i s next) (hclean : next.2.Clean) :
    s.Clean ∧ s.outline <+: next.2.outline := by
  obtain ⟨herror, hknown⟩ := hclean
  cases h with
  | char c =>
    refine ⟨⟨herror, hknown⟩, ?_⟩
    simp [Scanned.outline]
  | item _ =>
    simp only [List.any_append, Bool.or_eq_false_iff, s.flush_unknown] at hknown
    refine ⟨⟨herror, hknown.1⟩, ?_⟩
    change s.outline <+: (s.flush ++ [_]).flatMap Token.atoms ++ List.map Atom.char []
    rw [List.flatMap_append, s.flush_atoms, List.append_assoc]
    exact List.prefix_append _ _
  | failed vec => cases herror

/-- Rounds that end clean started clean and put out more. -/
theorem Ends.extends (h : Ends p i s r) (hclean : r.Clean) : s.Clean ∧ s.outline <+: r.outline := by
  induction hmeasure : p.length - i using Nat.strong_induction_on generalizing i s with
  | h measure ih =>
    cases hstep : initStep p i s with
    | none =>
      obtain rfl := (Ends.stop hstep).unique h
      exact ⟨hclean, List.prefix_refl _⟩
    | some next =>
      obtain ⟨hforward, hinside⟩ := lt_of_initStep hstep
      obtain ⟨r', hr'⟩ := exists_ends p next.1 next.2
      obtain rfl := (Ends.step hstep hr').unique h
      obtain ⟨hnext, hmore⟩ := ih (p.length - next.1) (by omega) hr' rfl
      obtain ⟨hs, hfirst⟩ := (round_of_initStep hstep).extends hnext
      exact ⟨hs, hfirst.trans hmore⟩

/-! ## The parts of a pattern -/

variable {b rest : Bytes}

/-- A text without `%` is kept back, character by character. -/
theorem Ends.literal {text : Bytes} (htext : 37 ∉ text) (hp : p = b ++ (text ++ rest))
    (h : Ends p (b.length + text.length) { s with nstr := s.nstr ++ text } r) : Ends p b.length s r := by
  induction text generalizing b s with
  | nil => simpa using h
  | cons c text ih =>
    simp only [List.mem_cons, not_or] at htext
    have hstep : initStep p b.length s = some (b.length + 1, { s with nstr := s.nstr ++ [c] }) := by
      have hc : p[b.length]? = some c := by simp [hp]
      have hne : c ≠ 37 := fun heq => htext.1 heq.symm
      rw [initStep, hc]
      exact if_pos hne
    refine Ends.step hstep ?_
    have hnext := ih (b := b ++ [c]) (s := { s with nstr := s.nstr ++ [c] }) htext.2 (by simp [hp])
    simp only [List.length_append, List.length_singleton] at hnext
    refine hnext ?_
    simp only [List.append_assoc, List.singleton_append, List.length_cons] at h ⊢
    rwa [show b.length + 1 + text.length = b.length + (text.length + 1) by omega]

/-- Of two `%` the first one is kept back, and the loop goes on at the second one. -/
theorem initStep_percents (hp : p = b ++ 37 :: 37 :: rest) :
    initStep p b.length s = some (b.length + 1, { s with nstr := s.nstr ++ [37] }) := by
  have hfirst : p[b.length]? = some 37 := by simp [hp]
  have hsecond : p[b.length + 1]? = some 37 := by simp [hp]
  simp [initStep, hfirst, hsecond]

/-- A `%` that none follows starts an item. -/
theorem initStep_item (hp : p = b ++ 37 :: rest) (hrest : rest.head? ≠ some 37)
    (hbraces : (itemAt p b.length).inBraces = false) :
    initStep p b.length s = some ((itemAt p b.length).n - 1 + 1,
      { s with vec := s.flush ++ [⟨(itemAt p b.length).str, (itemAt p b.length).fmt, true⟩], nstr := [] }) := by
  have hfirst : p[b.length]? = some 37 := by simp [hp]
  have hsecond : p[b.length + 1]? = rest.head? := by
    rw [hp, List.getElem?_append_right (Nat.le_succ _), List.head?_eq_getElem?, Nat.succ_sub (le_refl _),
      Nat.sub_self]
    rfl
  simp [initStep, hfirst, hsecond, hrest, hbraces]

/-- The letters of the items are letters. -/
theorem ItemClass.isalpha_letter (cls : ItemClass) :
    isalpha cls.letter = true ∧ cls.letter ≠ 123 ∧ cls.letter ≠ 125 := by
  cases cls <;> decide

/-- The item of a class is found under its letter. -/
theorem ItemClass.lookup_letter (cls : ItemClass) : formatItems.lookup [cls.letter] = some cls := by
  cases cls <;> decide

/-- A letter is passed over. -/
theorem scanItem_letter {x : UInt8} (hx : isalpha x = true ∧ x ≠ 123 ∧ x ≠ 125) (st : ItemScan) :
    scanItem p i (x :: rest) st = scanItem p i rest
      { st with n := st.n + 1, str := if st.n + 1 = p.length ∧ st.str = [] then p.drop (i + 1) else st.str } := by
  rw [scanItem, if_neg (by simp [hx.1]), if_neg (by simp [hx.2.1]), if_neg (by simp [hx.2.2])]

/-- The text in braces is passed over up to the closing brace. -/
theorem scanItem_braces {fmt : Bytes} (hfmt : 125 ∉ fmt) (st : ItemScan) (hbraces : st.inBraces = true)
    (hstr : st.str ≠ []) :
    scanItem p i (fmt ++ 125 :: rest) st =
      { st with
        fmt := substr p (st.fmt_begin + 1) (st.n + fmt.length - st.fmt_begin - 1)
        inBraces := false
        n := st.n + fmt.length + 1 } := by
  induction fmt generalizing st with
  | nil =>
    rw [List.nil_append, scanItem, if_neg (by simp [hbraces]), if_neg (by simp [hbraces]), if_pos ⟨hbraces, rfl⟩]
    rfl
  | cons c fmt ih =>
    simp only [List.mem_cons, not_or] at hfmt
    have hne : c ≠ 125 := fun heq => hfmt.1 heq.symm
    rw [List.cons_append, scanItem, if_neg (by simp [hbraces]), if_neg (by simp [hbraces]), if_neg (by simp [hne])]
    simp only [hstr, and_false, if_false]
    rw [ih hfmt.2 { st with n := st.n + 1 } hbraces hstr, List.length_cons]
    simp only
    rw [show st.n + 1 + fmt.length = st.n + (fmt.length + 1) by omega]

/-- The item of a letter alone. -/
theorem itemAt_letter {x : UInt8} (hx : isalpha x = true ∧ x ≠ 123 ∧ x ≠ 125) (hp : p = b ++ 37 :: x :: rest)
    (hrest : ∀ c, rest.head? = some c → endsItem c) :
    itemAt p b.length = ⟨b.length + 2, false, 0, [x], []⟩ := by
  have hdrop : p.drop (b.length + 1) = x :: rest := by simp [hp]
  rw [itemAt, hdrop, scanItem_letter hx]
  cases rest with
  | nil =>
    have hlength : b.length + 1 + 1 = p.length := by simp [hp]
    simp [scanItem, hlength, hdrop]
  | cons c rest =>
    obtain ⟨halpha, hopen, hclose⟩ := hrest c rfl
    rw [scanItem, if_pos ⟨rfl, halpha, hopen, hclose⟩, substr, hdrop,
      show b.length + 1 + 1 - b.length - 1 = 1 by omega]
    rfl

/-- The item of a letter and a format in braces. -/
theorem itemAt_braced {x : UInt8} {fmt : Bytes} (hx : isalpha x = true ∧ x ≠ 123 ∧ x ≠ 125) (hfmt : 125 ∉ fmt)
    (hp : p = b ++ 37 :: x :: 123 :: (fmt ++ 125 :: rest)) :
    itemAt p b.length = ⟨b.length + fmt.length + 4, false, b.length + 2, [x], fmt⟩ := by
  have hdrop : p.drop (b.length + 1) = x :: 123 :: (fmt ++ 125 :: rest) := by simp [hp]
  have hlength : ¬ b.length + 1 + 1 = p.length := by
    rw [hp, List.length_append, List.length_cons, List.length_cons, List.length_cons]
    omega
  have hformat : p.drop (b.length + 3) = fmt ++ 125 :: rest := by simp [hp]
  have hname : substr p (b.length + 1) (b.length + 1 + 1 - b.length - 1) = [x] := by
    rw [substr, hdrop, show b.length + 1 + 1 - b.length - 1 = 1 by omega]
    rfl
  have hinside : substr p (b.length + 3) (b.length + 3 + fmt.length - (b.length + 2) - 1) = fmt := by
    rw [substr, hformat, show b.length + 3 + fmt.length - (b.length + 2) - 1 = fmt.length by omega]
    exact List.take_left
  rw [itemAt, hdrop, scanItem_letter hx]
  simp only [hlength, false_and, if_false]
  rw [scanItem, if_neg (by simp), if_pos ⟨rfl, rfl⟩]
  simp only [hname]
  rw [scanItem_braces hfmt _ rfl (List.cons_ne_nil x [])]
  simp only [ItemScan.mk.injEq, true_and]
  exact ⟨by omega, hinside⟩

/-- An item whose braces do not close is an error. -/
theorem initStep_failed (hp : p = b ++ 37 :: rest) (hrest : rest.head? ≠ some 37)
    (hbraces : (itemAt p b.length).inBraces = true) :
    ∃ vec, initStep p b.length s = some (b.length + 1, { s with vec := vec, m_error := true }) := by
  have hfirst : p[b.length]? = some 37 := by simp [hp]
  have hsecond : p[b.length + 1]? = rest.head? := by
    rw [hp, List.getElem?_append_right (Nat.le_succ _), List.head?_eq_getElem?, Nat.succ_sub (le_refl _),
      Nat.sub_self]
    rfl
  simp [initStep, hfirst, hsecond, hrest, hbraces]

/-- Where an item starts and all ends clean, an item is put out next. -/
theorem Ends.exists_item (hp : p = b ++ 37 :: rest) (hrest : rest.head? ≠ some 37) (h : Ends p b.length s r)
    (hclean : r.Clean) : ∃ cls fmt more, r.outline = s.outline ++ .item cls fmt :: more := by
  cases hbraces : (itemAt p b.length).inBraces with
  | true =>
    obtain ⟨vec, hstep⟩ := initStep_failed (s := s) hp hrest hbraces
    obtain ⟨r', hr'⟩ := exists_ends p (b.length + 1) { s with vec := vec, m_error := true }
    obtain rfl := (Ends.step hstep hr').unique h
    have herror := (hr'.extends hclean).1.1
    cases herror
  | false =>
    have hstep := initStep_item (s := s) hp hrest hbraces
    obtain ⟨r', hr'⟩ := exists_ends p ((itemAt p b.length).n - 1 + 1)
      { s with vec := s.flush ++ [⟨(itemAt p b.length).str, (itemAt p b.length).fmt, true⟩], nstr := [] }
    obtain rfl := (Ends.step hstep hr').unique h
    obtain ⟨hnext, more, hmore⟩ := hr'.extends hclean
    obtain ⟨_, hknown⟩ := hnext
    simp only [List.any_append, List.any_cons, List.any_nil, Bool.or_false, Bool.or_eq_false_iff] at hknown
    obtain ⟨cls, _, hatoms⟩ := Token.atoms_of_known hknown.2
    refine ⟨cls, (itemAt p b.length).fmt, more, ?_⟩
    rw [← hmore, Scanned.outline, List.flatMap_append, s.flush_atoms, List.flatMap_singleton, hatoms]
    simp

/-- What follows a text, a `%` or an item is written in the parts after it. -/
theorem patternOf_cons (piece : Piece) (pieces : List Piece) :
    patternOf (piece :: pieces) = piece.text ++ patternOf pieces := List.flatMap_cons

/-- One `%` more is kept back when another one follows. -/
theorem Ends.keeps_percent {base : List Atom} {m : ℕ} (hp : p = b ++ 37 :: 37 :: rest)
    (hs : s.outline = base ++ List.replicate m (.char 37)) (h : Ends p b.length s r) :
    ∃ s', s'.outline = base ++ List.replicate (m + 1) (.char 37) ∧ Ends p (b ++ [37]).length s' r := by
  obtain ⟨r', hr'⟩ := exists_ends p (b.length + 1) { s with nstr := s.nstr ++ [37] }
  obtain rfl := (Ends.step (initStep_percents hp) hr').unique h
  refine ⟨_, ?_, by rwa [List.length_append]⟩
  rw [List.replicate_succ', ← List.append_assoc, ← hs]
  simp [Scanned.outline]

/-- **A stray `%`.** A `%` too many in front of the parts of a pattern spoils what is put out, however many have
been kept back already. -/
theorem outline_ne_of_stray {pieces : List Piece} (hread : Readable pieces) {base : List Atom} {m : ℕ}
    (hp : p = b ++ 37 :: patternOf pieces) (hs : s.outline = base ++ List.replicate m (.char 37))
    (h : Ends p b.length s r) (hclean : r.Clean) : r.outline ≠ base ++ pieces.flatMap Piece.atoms := by
  induction pieces generalizing b s base m with
  | nil =>
    obtain ⟨cls, fmt, more, hitem⟩ := h.exists_item hp (by simp [patternOf]) hclean
    rw [hitem, hs, List.append_assoc]
    simp
  | cons piece pieces ih =>
    rw [patternOf_cons] at hp
    cases piece with
    | literal text =>
      cases text with
      | nil => exact ih hread.2 hp hs h
      | cons c text =>
        have hne : c ≠ 37 := fun heq => hread.1 (heq ▸ List.mem_cons_self)
        obtain ⟨cls, fmt, more, hitem⟩ := h.exists_item hp (by simpa [Piece.text] using hne) hclean
        rw [hitem, hs, List.append_assoc]
        cases m with
        | zero => simp [Piece.atoms]
        | succ m => simpa [Piece.atoms, List.replicate_succ] using fun heq : 37 = c => absurd heq.symm hne
    | escape =>
      obtain ⟨s', hs', h'⟩ := h.keeps_percent hp hs
      have hp' : p = (b ++ [37]) ++ 37 :: 37 :: patternOf pieces := by simp [hp, Piece.text]
      obtain ⟨s'', hs'', h''⟩ := h'.keeps_percent hp' hs'
      -- The escape accounts for one of the two, the other one remains.
      have hbase : s''.outline = (base ++ [.char 37]) ++ List.replicate (m + 1) (.char 37) := by
        rw [hs'', List.replicate_succ, List.append_assoc]
        rfl
      have hrest := ih (b := b ++ [37] ++ [37]) hread (by simp [hp, Piece.text]) hbase h''
      simpa [Piece.atoms] using hrest
    | item cls =>
      obtain ⟨s', hs', h'⟩ := h.keeps_percent hp hs
      obtain ⟨more, hmore⟩ := (h'.extends hclean).2
      rw [← hmore, hs', List.append_assoc]
      simp [Piece.atoms, List.replicate_succ]
    | braced cls fmt =>
      obtain ⟨s', hs', h'⟩ := h.keeps_percent hp hs
      obtain ⟨more, hmore⟩ := (h'.extends hclean).2
      rw [← hmore, hs', List.append_assoc]
      simp [Piece.atoms, List.replicate_succ]

/-- Where an item of a class stands alone, it is collected and the loop goes on behind it. -/
theorem Ends.item {x : UInt8} {fmt : Bytes} {n : ℕ} {inner : ItemScan} (hp : p = b ++ 37 :: x :: rest) (hx : x ≠ 37)
    (hitem : itemAt p b.length = inner) (hbraces : inner.inBraces = false) (hn : inner.n = n + 1)
    (hstr : inner.str = [x]) (hfmt : inner.fmt = fmt)
    (h : Ends p (n + 1) { s with vec := s.flush ++ [⟨[x], fmt, true⟩], nstr := [] } r) : Ends p b.length s r := by
  have hstep := initStep_item (s := s) hp (by simpa using hx) (hitem ▸ hbraces)
  rw [hitem, hn, hstr, hfmt, Nat.add_sub_cancel] at hstep
  exact Ends.step hstep h

/-- A collected item of a class is put out behind the rest, and leaves it clean. -/
theorem Scanned.collect (hs : s.Clean) (cls : ItemClass) (fmt : Bytes) :
    ({ s with vec := s.flush ++ [⟨[cls.letter], fmt, true⟩], nstr := [] } : Scanned).Clean ∧
      ({ s with vec := s.flush ++ [⟨[cls.letter], fmt, true⟩], nstr := [] } : Scanned).outline =
        s.outline ++ [.item cls fmt] := by
  have hclass : (Token.mk [cls.letter] fmt true).class? = some cls := cls.lookup_letter
  constructor
  · refine ⟨hs.1, ?_⟩
    rw [List.any_append, s.flush_unknown, hs.2]
    simp [Token.unknown, hclass]
  · rw [Scanned.outline, List.flatMap_append, s.flush_atoms]
    simp [Token.atoms, Token.formatItem, hclass, FormatItem.atoms]

/-- From a place where the parts of a pattern start, the loop ends clean with what they are meant to put out
exactly if none of them is an escape. -/
theorem exists_ends_parts {pieces : List Piece} (hread : Readable pieces) (hp : p = b ++ patternOf pieces)
    (hs : s.Clean) :
    ∃ r, Ends p b.length s r ∧
      (r.Clean ∧ r.outline = s.outline ++ pieces.flatMap Piece.atoms ↔ Piece.escape ∉ pieces) := by
  induction pieces generalizing b s with
  | nil =>
    have hstop : initStep p b.length s = none := by simp [initStep, hp, patternOf]
    exact ⟨s, Ends.stop hstop, by simp [hs]⟩
  | cons piece pieces ih =>
    rw [patternOf_cons] at hp
    cases piece with
    | literal text =>
      have hclean : ({ s with nstr := s.nstr ++ text } : Scanned).Clean := hs
      obtain ⟨r, hr, hiff⟩ := ih (b := b ++ text) hread.2 (by simp [hp, Piece.text]) hclean
      rw [List.length_append] at hr
      refine ⟨r, Ends.literal hread.1 hp hr, ?_⟩
      simpa [Scanned.outline, Piece.atoms] using hiff
    | escape =>
      obtain ⟨r, hr⟩ := exists_ends p b.length s
      refine ⟨r, hr, iff_of_false (fun ⟨hclean, heq⟩ => ?_) (by simp)⟩
      have hkept : s.outline = s.outline ++ List.replicate 0 (.char 37) := by simp
      obtain ⟨s', hs', h'⟩ := hr.keeps_percent (by simpa [Piece.text] using hp) hkept
      have hplace : p = (b ++ [37]) ++ 37 :: patternOf pieces := by simp [hp, Piece.text]
      -- The one that was kept back is the one to be put out; the other one is too many.
      have hbase : s'.outline = (s.outline ++ [.char 37]) ++ List.replicate 0 (.char 37) := by simpa using hs'
      have hread' : Readable pieces := hread
      refine outline_ne_of_stray hread' hplace hbase h' hclean ?_
      rw [heq]
      simp [Piece.atoms]
    | item cls =>
      have hx := cls.isalpha_letter
      have hletter : cls.letter ≠ 37 := by cases cls <;> decide
      have hplace : p = b ++ 37 :: cls.letter :: patternOf pieces := by simpa [Piece.text] using hp
      obtain ⟨hclean, houtline⟩ := Scanned.collect hs cls []
      obtain ⟨r, hr, hiff⟩ := ih (b := b ++ [37, cls.letter]) hread.2 (by simp [hplace]) hclean
      rw [List.length_append] at hr
      refine ⟨r, Ends.item hplace hletter (itemAt_letter hx hplace hread.1) rfl rfl rfl rfl hr, ?_⟩
      rw [houtline, List.append_assoc] at hiff
      simpa [Piece.atoms] using hiff
    | braced cls fmt =>
      have hx := cls.isalpha_letter
      have hletter : cls.letter ≠ 37 := by cases cls <;> decide
      have hplace : p = b ++ 37 :: cls.letter :: 123 :: (fmt ++ 125 :: patternOf pieces) := by
        simpa [Piece.text] using hp
      obtain ⟨hclean, houtline⟩ := Scanned.collect hs cls fmt
      obtain ⟨r, hr, hiff⟩ := ih (b := b ++ ([37, cls.letter, 123] ++ fmt ++ [125])) hread.2 (by simp [hplace]) hclean
      have hlength : (b ++ ([37, cls.letter, 123] ++ fmt ++ [125])).length = b.length + fmt.length + 3 + 1 := by
        simp
        omega
      rw [hlength] at hr
      refine ⟨r, Ends.item hplace hletter (itemAt_braced hx hread.1 hplace) rfl rfl rfl rfl hr, ?_⟩
      rw [houtline, List.append_assoc] at hiff
      simpa [Piece.atoms] using hiff

/-- `init` ends for every pattern. -/
theorem init_ends (p : Bytes) : ∃ f, ∀ fuel, p.length < fuel → init fuel p = some f := by
  obtain ⟨r, hr⟩ := exists_ends p 0 ⟨[], [], false⟩
  refine ⟨ofScanned p r, fun fuel hfuel => ?_⟩
  rw [init, hr fuel (by simpa using hfuel)]
  rfl

/-- **When a pattern is understood.** `init` ends for every string. For a pattern it ends without an error and
with items that put out what the parts of the pattern are meant to exactly if no part is an escape. -/
theorem understood_iff (pattern : Bytes) (pieces : List Piece) :
    (∃ f, ∀ fuel, pattern.length < fuel → init fuel pattern = some f) ∧
      (Readable pieces → (Understood pieces ↔ Piece.escape ∉ pieces)) := by
  refine ⟨init_ends pattern, fun hread => ?_⟩
  have hclean : (⟨[], [], false⟩ : Scanned).Clean := ⟨rfl, rfl⟩
  obtain ⟨r, hr, hiff⟩ := exists_ends_parts (p := patternOf pieces) (b := []) hread rfl hclean
  have hr : Ends (patternOf pieces) 0 ⟨[], [], false⟩ r := hr
  have hinit : ∀ fuel, (patternOf pieces).length < fuel →
      init fuel (patternOf pieces) = some (ofScanned (patternOf pieces) r) := by
    intro fuel hfuel
    rw [init, hr fuel (by simpa using hfuel)]
    rfl
  rw [← hiff, Understood]
  constructor
  · rintro ⟨f, hf, herror, houtline⟩
    obtain rfl := Option.some.inj ((hinit _ (Nat.lt_succ_self _)).symm.trans (hf _ (Nat.lt_succ_self _)))
    exact ⟨(m_error_ofScanned _ r).mp herror, (outline_ofScanned _ r).symm.trans houtline⟩
  · rintro ⟨hclean, houtline⟩
    exact ⟨_, hinit, (m_error_ofScanned _ r).mpr hclean, (outline_ofScanned _ r).trans houtline⟩

/-- The pattern `[%m%d{%Y}` is understood. -/
theorem understood_dated : Understood [.literal [91], .item .message, .braced .dateTime [37, 89]] := by
  have hread : Readable [.literal [91], .item .message, .braced .dateTime [37, 89]] := by
    refine ⟨by decide, ⟨fun c hc => ?_, by decide, trivial⟩⟩
    obtain rfl : 37 = c := by simpa [patternOf, Piece.text] using hc
    exact ⟨by decide, by decide, by decide⟩
  exact ((understood_iff [] _).2 hread).mpr (by decide)

/-- The pattern `%%` is not understood. -/
theorem not_understood_escape :
    ¬ ((∀ p : Bytes, ∃ f, ∀ fuel, p.length < fuel → init fuel p = some f) ∧
      ∀ pieces, Readable pieces → Understood pieces) := by
  intro h
  obtain ⟨f, hf, herror, _⟩ := h.2 [.escape] trivial
  have hinit := hf 3 (by decide)
  have hwrong : (init 3 (patternOf [.escape])).map LogFormatter.m_error = some true := by decide
  rw [hinit, Option.map_some, herror] at hwrong
  cases hwrong

end LogFormatter

end Bobliew
