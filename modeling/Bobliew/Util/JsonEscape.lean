import Bobliew.Http.Request

/-!
# Escaping for JSON

`JsonUtil::Escape` counts the size of the escaped text in a first pass and returns the argument when nothing is
to be escaped. Otherwise a second pass writes the escapes. It appends them to a string that has been resized to
the counted size, so the escaped text stands behind that many nulls; and its cases for `\n` and `\b` go on into
the next case, so these characters are written with escapes of others behind them.

What the function is for is stated apart: its text reads back as the argument and is as long as the escapes
make it. So it is exactly for the strings with nothing to escape.
-/

namespace Bobliew.JsonUtil

open Http (Bytes asciiText)

/-! ## The purpose -/

/-- The seven characters and the letter that denotes each behind a backslash: `\f`, `\t`, `\r`, `\n`, `\b`, `"`
and the backslash. -/
def letters : List (UInt8 × UInt8) := [(12, 102), (9, 116), (13, 114), (10, 110), (8, 98), (34, 34), (92, 92)]

/-- The letter of a character that is escaped. -/
def letter? (c : UInt8) : Option UInt8 := letters.lookup c

/-- The character that a letter denotes. -/
def denoted? (x : UInt8) : Option UInt8 := (letters.map Prod.swap).lookup x

/-- The backslash. -/
def backslash : UInt8 := 92

/-- Replace each pair of a backslash and one of the seven letters by the character it denotes. -/
def unescape : Bytes → Bytes
  | [] => []
  | [c] => [c]
  | c :: x :: rest =>
    if c = backslash then
      match denoted? x with
      | some d => d :: unescape rest
      | none => c :: unescape (x :: rest)
    else c :: unescape (x :: rest)

/-- A character as it stands in a literal. -/
def jsonEscapeChar (c : UInt8) : Bytes :=
  match letter? c with
  | some x => [backslash, x]
  | none => [c]

/-- A string as it stands in a literal. -/
def jsonEscape (v : Bytes) : Bytes := v.flatMap jsonEscapeChar

/-- The characters of a string that are escaped. -/
def escaped (v : Bytes) : Bytes := v.filter fun c => (letter? c).isSome

/-! ## The code -/

/-- `JsonUtil::NeedEscape`. -/
def needEscape (v : Bytes) : Bool :=
  v.any fun c => c = 12 || c = 9 || c = 13 || c = 10 || c = 8 || c = 34 || c = 92

/-- The size that the first pass of `JsonUtil::Escape` counts. -/
def countSize : ℕ → Bytes → ℕ
  | size, [] => size
  | size, c :: rest =>
    if c = 12 || c = 9 || c = 13 || c = 10 || c = 8 || c = 34 || c = 92 then countSize (size + 2) rest
    else countSize (size + 1) rest

/-- What the second pass of `JsonUtil::Escape` appends for a character. The cases of `\n` and `\b` have no `break`. -/
def appendFor (c : UInt8) : Bytes :=
  if c = 12 then [92, 102]
  else if c = 9 then [92, 116]
  else if c = 13 then [92, 114]
  else if c = 10 then [92, 110] ++ [92, 98] ++ [92, 34]
  else if c = 8 then [92, 98] ++ [92, 34]
  else if c = 34 then [92, 34]
  else if c = 92 then [92, 92]
  else [c]

/-- `JsonUtil::Escape`: `rt.resize(size)` fills `rt` with nulls. -/
def escape (v : Bytes) : Bytes :=
  let size := countSize 0 v
  if size = v.length then v else v.foldl (fun rt c => rt ++ appendFor c) (List.replicate size 0)

/-- What is said of the escaped text of a string. -/
structure EscapesTo (v text : Bytes) : Prop where
  unescape_eq : unescape text = v
  length_eq : text.length = v.length + (escaped v).length
  eq_self_iff : text = v ↔ needEscape v = false

variable {v : Bytes} {c : UInt8}

/-- A character is one of the seven exactly if it has a letter. -/
theorem isSome_letter? (c : UInt8) :
    (letter? c).isSome = (c = 12 || c = 9 || c = 13 || c = 10 || c = 8 || c = 34 || c = 92 : Bool) := by
  rw [Bool.eq_iff_iff, letter?, List.lookup_isSome_iff]
  simp [letters, or_assoc]

/-- Each letter denotes the character it was chosen for. -/
theorem denoted?_of_letter? {x : UInt8} (h : letter? c = some x) : denoted? x = some c := by
  have hmem : (c, x) ∈ letters := by
    unfold letter? at h
    obtain ⟨earlier, later, heq, _⟩ := List.lookup_eq_some_iff.mp h
    rw [heq]
    simp
  have hall : ∀ e ∈ letters, denoted? e.2 = some e.1 := by
    simp [letters, denoted?, List.lookup]
  exact hall (c, x) hmem

/-- A character that is not a backslash is read as itself. -/
theorem unescape_cons (h : c ≠ backslash) (rest : Bytes) : unescape (c :: rest) = c :: unescape rest := by
  cases rest with
  | nil => rfl
  | cons x rest => rw [unescape, if_neg h]

/-- Reading the escapes gives the string back. -/
theorem unescape_jsonEscape (v : Bytes) : unescape (jsonEscape v) = v := by
  induction v with
  | nil => rfl
  | cons c rest ih =>
    simp only [jsonEscape, List.flatMap_cons, jsonEscapeChar] at ih ⊢
    cases h : letter? c with
    | none =>
      have hne : c ≠ backslash := by
        rintro rfl
        revert h
        decide
      simp only [List.singleton_append]
      rw [unescape_cons hne, ih]
    | some x =>
      simp only [List.cons_append, List.nil_append]
      rw [unescape, if_pos rfl, denoted?_of_letter? h]
      simp only [ih]

/-- Nothing needs to be escaped exactly if no character is one of the seven. -/
theorem needEscape_eq_false_iff : needEscape v = false ↔ escaped v = [] := by
  unfold needEscape escaped
  rw [List.filter_eq_nil_iff, List.any_eq_false]
  simp only [isSome_letter?]

/-- A string with nothing to escape stands in a literal as it is. -/
theorem jsonEscape_of_escaped_eq_nil (h : escaped v = []) : jsonEscape v = v := by
  have hnone := List.filter_eq_nil_iff.mp h
  induction v with
  | nil => rfl
  | cons c rest ih =>
    have hc : letter? c = none := by simpa using hnone c List.mem_cons_self
    have hrest : ∀ a ∈ rest, ¬ (letter? a).isSome = true := fun a ha => hnone a (List.mem_cons_of_mem c ha)
    have htail := ih (List.filter_eq_nil_iff.mpr hrest) hrest
    simp only [jsonEscape, List.flatMap_cons, jsonEscapeChar, hc, List.singleton_append] at htail ⊢
    rw [htail]

/-- The first pass counts a character for each one and one more for each that is escaped. -/
theorem countSize_eq (size : ℕ) (v : Bytes) : countSize size v = size + v.length + (escaped v).length := by
  induction v generalizing size with
  | nil => rfl
  | cons c rest ih =>
    simp only [countSize, ← isSome_letter?]
    cases h : (letter? c).isSome with
    | true =>
      simp only [if_true, ih, escaped, List.filter_cons, h, List.length_cons]
      omega
    | false =>
      simp only [Bool.false_eq_true, if_false, ih, escaped, List.filter_cons, h, List.length_cons]
      omega

/-- The second pass appends to what it is given. -/
theorem foldl_appendFor (start v : Bytes) :
    v.foldl (fun rt c => rt ++ appendFor c) start = start ++ v.flatMap appendFor := by
  induction v generalizing start with
  | nil => simp
  | cons c rest ih => rw [List.foldl_cons, ih, List.flatMap_cons, List.append_assoc]

/-- With nothing to escape the string is returned. -/
theorem escape_of_escaped_eq_nil (h : escaped v = []) : escape v = v := by
  unfold escape
  simp [countSize_eq, h]

/-- With something to escape as many nulls as the whole text should be long stand in front. -/
theorem escape_of_escaped_ne_nil (h : escaped v ≠ []) :
    escape v = List.replicate (v.length + (escaped v).length) 0 ++ v.flatMap appendFor := by
  have hpos : 0 < (escaped v).length := List.length_pos_of_ne_nil h
  have hsize : countSize 0 v = v.length + (escaped v).length := by
    rw [countSize_eq, Nat.zero_add]
  unfold escape
  rw [hsize, if_neg (by omega), foldl_appendFor]

/-- The second pass appends something for every character. -/
theorem appendFor_ne_nil (c : UInt8) : appendFor c ≠ [] := by
  unfold appendFor
  split_ifs <;> simp

/-- The text is longer than it should be as soon as something is escaped. -/
theorem length_escape_of_ne_nil (h : escaped v ≠ []) :
    v.length + (escaped v).length < (escape v).length := by
  rw [escape_of_escaped_ne_nil h]
  obtain ⟨c, hc⟩ := List.exists_mem_of_ne_nil _ h
  have hmem : c ∈ v := (List.mem_filter.mp hc).1
  have hpos : v.flatMap appendFor ≠ [] := fun hnil =>
    appendFor_ne_nil c (List.flatMap_eq_nil_iff.mp hnil c hmem)
  have hlength := List.length_pos_of_ne_nil hpos
  simp only [List.length_append, List.length_replicate]
  omega

/-- **When a string is escaped.** The result of `Escape` reads back as its argument, has the length it should
have and equals the argument exactly when nothing is to be escaped, all of this exactly if no character of the
argument is one of the seven. -/
theorem escapesTo_escape_iff (v : Bytes) :
    EscapesTo v (escape v) ↔ ∀ c ∈ v, c ∉ [12, 9, 13, 10, 8, 34, 92] := by
  have hcond : (∀ c ∈ v, c ∉ [12, 9, 13, 10, 8, 34, 92]) ↔ escaped v = [] := by
    unfold escaped
    rw [List.filter_eq_nil_iff]
    simp only [isSome_letter?]
    simp [and_assoc]
  rw [hcond]
  constructor
  · intro hto
    by_contra hne
    have hlong := length_escape_of_ne_nil hne
    have hlength := hto.length_eq
    omega
  · intro hnil
    have hself := escape_of_escaped_eq_nil hnil
    refine ⟨?_, ?_, iff_of_true hself (needEscape_eq_false_iff.mpr hnil)⟩
    · rw [hself]
      conv_lhs => rw [← jsonEscape_of_escaped_eq_nil hnil]
      exact unescape_jsonEscape v
    · rw [hself, hnil]
      rfl

/-- A line end is escaped behind two nulls, with two more escapes behind it. -/
theorem not_escapesTo_lineEnd : ¬ ∀ v : Bytes, EscapesTo v (escape v) := by
  intro h
  exact absurd (h [10]).length_eq (by decide)

end Bobliew.JsonUtil
