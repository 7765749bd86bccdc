import Bobliew.Http.Params

/-!
# URL encoding and decoding

`StringUtil::UrlEncode` and `StringUtil::UrlDecode` copy a string only from its first change on: as long as
nothing has changed there is no result yet, and at the first change the characters passed so far are copied.
A string without a change is returned as it is.

Both are what they are without this delay, and decoding undoes encoding.
-/

namespace Bobliew.Http

namespace StringUtil

/-- `uri_chars`. -/
def uriChars : List ℕ := [
  0, 0, 0, 0, 0, 0, 0, 0, 0, 0, 0, 0, 0, 0, 0, 0,
  0, 0, 0, 0, 0, 0, 0, 0, 0, 0, 0, 0, 0, 0, 0, 0,
  0, 0, 0, 0, 0, 0, 0, 0, 0, 0, 0, 0, 0, 1, 1, 0,
  1, 1, 1, 1, 1, 1, 1, 1, 1, 1, 0, 0, 0, 1, 0, 0,
  0, 1, 1, 1, 1, 1, 1, 1, 1, 1, 1, 1, 1, 1, 1, 1,
  1, 1, 1, 1, 1, 1, 1, 1, 1, 1, 1, 0, 0, 0, 0, 1,
  0, 1, 1, 1, 1, 1, 1, 1, 1, 1, 1, 1, 1, 1, 1, 1,
  1, 1, 1, 1, 1, 1, 1, 1, 1, 1, 1, 0, 0, 0, 1, 0] ++ List.replicate 128 0

/-- `CHAR_IS_UNRESERVED`. -/
def charIsUnreserved (c : UInt8) : Bool := uriChars.getD c.toNat 0 != 0

/-- `hexdigits`. -/
def hexdigits : Bytes :=
  asciiText ['0', '1', '2', '3', '4', '5', '6', '7', '8', '9', 'A', 'B', 'C', 'D', 'E', 'F']

/-- What `UrlEncode` appends for a reserved character. -/
def encodeChar (spaceAsPlus : Bool) (c : UInt8) : Bytes :=
  if c = 32 ∧ spaceAsPlus then [43]
  else [37, hexdigits.getD (c >>> 4).toNat 0, hexdigits.getD (c &&& 15).toNat 0]

/-- The loop of `UrlEncode` behind the characters `seen`, with the result `ss` if there is one. -/
def urlEncodeLoop (spaceAsPlus : Bool) : Bytes → Bytes → Option Bytes → Option Bytes
  | _, [], ss => ss
  | seen, c :: rest, ss =>
    if charIsUnreserved c then urlEncodeLoop spaceAsPlus (seen ++ [c]) rest (ss.map (· ++ [c]))
    else urlEncodeLoop spaceAsPlus (seen ++ [c]) rest (some (ss.getD seen ++ encodeChar spaceAsPlus c))

/-- `UrlEncode`. -/
def urlEncode (str : Bytes) (spaceAsPlus : Bool) : Bytes :=
  (urlEncodeLoop spaceAsPlus [] str none).getD str

/-- The loop of `UrlDecode` behind the characters `seen`, with the result `ss` if there is one. -/
def urlDecodeLoop (spaceAsPlus : Bool) : Bytes → Bytes → Option Bytes → Option Bytes
  | _, [], ss => ss
  | seen, 37 :: a :: b :: rest, ss =>
    match xdigitValue a, xdigitValue b with
    | some high, some low =>
      urlDecodeLoop spaceAsPlus (seen ++ [37, a, b]) rest (some (ss.getD seen ++ [high <<< 4 ||| low]))
    | _, _ => urlDecodeLoop spaceAsPlus (seen ++ [37]) (a :: b :: rest) (ss.map (· ++ [37]))
  | seen, c :: rest, ss =>
    if c = 43 ∧ spaceAsPlus then urlDecodeLoop spaceAsPlus (seen ++ [c]) rest (some (ss.getD seen ++ [32]))
    else urlDecodeLoop spaceAsPlus (seen ++ [c]) rest (ss.map (· ++ [c]))

/-- `UrlDecode`. -/
def urlDecode (str : Bytes) (spaceAsPlus : Bool) : Bytes :=
  (urlDecodeLoop spaceAsPlus [] str none).getD str

/-! ## Without the delay -/

/-- Encode character by character. -/
def plainEncode (spaceAsPlus : Bool) (str : Bytes) : Bytes :=
  str.flatMap fun c => if charIsUnreserved c then [c] else encodeChar spaceAsPlus c

/-- Decode from left to right: a percent sign in front of two hexadecimal digits stands for their byte, a plus
for a space if asked for, and every other byte for itself. -/
def plainDecode (spaceAsPlus : Bool) : Bytes → Bytes
  | [] => []
  | 37 :: a :: b :: rest =>
    match xdigitValue a, xdigitValue b with
    | some high, some low => (high <<< 4 ||| low) :: plainDecode spaceAsPlus rest
    | _, _ => 37 :: plainDecode spaceAsPlus (a :: b :: rest)
  | c :: rest => (if c = 43 ∧ spaceAsPlus then 32 else c) :: plainDecode spaceAsPlus rest

variable {spaceAsPlus : Bool}

/-- A character that is copied goes to the result if there is one, and to the characters passed. -/
theorem getD_map_append (ss : Option Bytes) (seen : Bytes) (c : UInt8) :
    (ss.map (· ++ [c])).getD (seen ++ [c]) = ss.getD seen ++ [c] := by
  cases ss <;> rfl

/-- The loop of `UrlEncode` appends the encoded rest. -/
theorem getD_urlEncodeLoop (seen rest : Bytes) (ss : Option Bytes) :
    (urlEncodeLoop spaceAsPlus seen rest ss).getD (seen ++ rest) =
      ss.getD seen ++ plainEncode spaceAsPlus rest := by
  induction rest generalizing seen ss with
  | nil => simp [urlEncodeLoop, plainEncode]
  | cons c rest ih =>
    have hrest := ih (seen ++ [c])
    rw [List.append_assoc, List.singleton_append] at hrest
    rw [urlEncodeLoop, plainEncode, List.flatMap_cons]
    split
    · rw [hrest, getD_map_append, List.append_assoc]
      rfl
    · rw [hrest, Option.getD_some, List.append_assoc]
      rfl

/-- The loop of `UrlDecode` appends the decoded rest. -/
theorem getD_urlDecodeLoop (seen rest : Bytes) (ss : Option Bytes) :
    (urlDecodeLoop spaceAsPlus seen rest ss).getD (seen ++ rest) =
      ss.getD seen ++ plainDecode spaceAsPlus rest := by
  induction rest using plainDecode.induct generalizing seen ss with
  | case1 => simp [urlDecodeLoop, plainDecode]
  | case2 a b rest high low hlow hhigh ih =>
    have hrest := ih (seen ++ [37, a, b]) (some (ss.getD seen ++ [high <<< 4 ||| low]))
    rw [urlDecodeLoop, plainDecode, hhigh, hlow]
    simpa using hrest
  | case3 a b rest hdigits ih =>
    have hrest := ih (seen ++ [37]) (ss.map (· ++ [37]))
    rw [getD_map_append, List.append_assoc, List.singleton_append] at hrest
    rw [urlDecodeLoop, plainDecode]
    split
    · rename_i high low hhigh hlow
      exact absurd hlow (hdigits high low hhigh)
    · rw [hrest, List.append_assoc]
      rfl
  | case4 c rest hlong ih =>
    have hcopy := ih (seen ++ [c]) (ss.map (· ++ [c]))
    have hspace := ih (seen ++ [c]) (some (ss.getD seen ++ [32]))
    rw [getD_map_append, List.append_assoc, List.singleton_append] at hcopy
    rw [List.append_assoc, List.singleton_append] at hspace
    rw [urlDecodeLoop.eq_3 _ _ _ _ _ hlong, plainDecode.eq_3 _ _ _ hlong]
    split
    · rw [hspace, Option.getD_some, List.append_assoc]
      rfl
    · rw [hcopy, List.append_assoc]
      rfl

/-- `UrlEncode` encodes character by character. -/
theorem urlEncode_eq (str : Bytes) : urlEncode str spaceAsPlus = plainEncode spaceAsPlus str :=
  getD_urlEncodeLoop [] str none

/-- `UrlDecode` decodes from left to right. -/
theorem urlDecode_eq (str : Bytes) : urlDecode str spaceAsPlus = plainDecode spaceAsPlus str :=
  getD_urlDecodeLoop [] str none

/-- The decoding of parameters takes a plus for a space. -/
theorem plainDecode_true (str : Bytes) : plainDecode true str = Http.urlDecode str := by
  induction str using plainDecode.induct with
  | case1 => rfl
  | case2 a b rest high low hlow hhigh ih =>
    rw [plainDecode, Http.urlDecode, hhigh, hlow]
    exact congrArg (_ :: ·) ih
  | case3 a b rest hdigits ih =>
    have hcopied : ∀ joined : UInt8 → UInt8 → Bytes, (match xdigitValue a, xdigitValue b with
        | some high, some low => joined high low
        | _, _ => 37 :: Http.urlDecode (a :: b :: rest)) = 37 :: Http.urlDecode (a :: b :: rest) := by
      intro joined
      split
      · rename_i high low hhigh hlow
        exact absurd hlow (hdigits high low hhigh)
      · rfl
    rw [plainDecode, Http.urlDecode, ih]
    exact (hcopied _).trans (hcopied _).symm
  | case4 c rest hlong ih =>
    rw [plainDecode.eq_3 _ _ _ hlong, ih]
    by_cases hplus : c = 43
    · rw [hplus]
      rfl
    · rw [if_neg fun h => hplus h.1, Http.urlDecode.eq_4 _ _ hplus hlong]

/-! ## Decoding what was encoded -/

/-- The characters that begin something else than themselves, and the ampersand, are reserved. -/
theorem ne_of_charIsUnreserved {c : UInt8} (hc : charIsUnreserved c = true) : c ≠ 37 ∧ c ≠ 43 ∧ c ≠ 38 := by
  refine ⟨?_, ?_, ?_⟩ <;> rintro rfl <;> exact absurd hc (by decide)

/-- The digits of `UrlEncode` are hexadecimal digits. -/
theorem xdigitValue_hexdigits : ∀ d < 16, xdigitValue (hexdigits.getD d 0) = some (UInt8.ofNat d) := by
  decide

/-- The two halves of a byte. -/
theorem join_halves (c : UInt8) : (c >>> 4) <<< 4 ||| (c &&& 15) = c := by
  have hall : ∀ n < 256, (UInt8.ofNat n >>> 4) <<< 4 ||| (UInt8.ofNat n &&& 15) = UInt8.ofNat n := by
    decide +kernel
  have hc := hall c.toNat c.toNat_lt
  rwa [UInt8.ofNat_toNat] at hc

/-- Both halves of a byte have a digit. -/
theorem halves_lt (c : UInt8) : (c >>> 4).toNat < 16 ∧ (c &&& 15).toNat < 16 := by
  have hc := c.toNat_lt
  have hlow : c.toNat &&& 15 = c.toNat % 16 := Nat.and_two_pow_sub_one_eq_mod c.toNat 4
  constructor
  · simp only [UInt8.toNat_shiftRight, Nat.shiftRight_eq_div_pow]
    change c.toNat / 16 < 16
    omega
  · simp only [UInt8.toNat_and]
    change c.toNat &&& 15 < 16
    omega

/-- A byte that is not a percent sign. -/
theorem plainDecode_cons {c : UInt8} (hc : c ≠ 37) (rest : Bytes) :
    plainDecode spaceAsPlus (c :: rest) =
      (if c = 43 ∧ spaceAsPlus then 32 else c) :: plainDecode spaceAsPlus rest :=
  plainDecode.eq_3 _ _ _ fun _ _ _ h => absurd h hc

/-- An encoded character is decoded in front of anything. -/
theorem plainDecode_encoded (c : UInt8) (rest : Bytes) :
    plainDecode spaceAsPlus ((if charIsUnreserved c then [c] else encodeChar spaceAsPlus c) ++ rest) =
      c :: plainDecode spaceAsPlus rest := by
  by_cases hc : charIsUnreserved c
  · obtain ⟨hpercent, hplus, _⟩ := ne_of_charIsUnreserved hc
    rw [if_pos hc, List.singleton_append, plainDecode_cons hpercent, if_neg fun h => hplus h.1]
  · rw [if_neg hc, encodeChar]
    by_cases hspace : c = 32 ∧ spaceAsPlus
    · rw [if_pos hspace, List.singleton_append, plainDecode_cons (by decide), if_pos ⟨rfl, hspace.2⟩, hspace.1]
    · obtain ⟨hhigh, hlow⟩ := halves_lt c
      rw [if_neg hspace, List.cons_append, List.cons_append, List.singleton_append, plainDecode,
        xdigitValue_hexdigits _ hhigh, xdigitValue_hexdigits _ hlow]
      dsimp only
      rw [UInt8.ofNat_toNat, UInt8.ofNat_toNat, join_halves]

/-- Decoding undoes encoding. -/
theorem plainDecode_plainEncode (str : Bytes) : plainDecode spaceAsPlus (plainEncode spaceAsPlus str) = str := by
  induction str with
  | nil => rfl
  | cons c str ih =>
    rw [plainEncode, List.flatMap_cons, plainDecode_encoded]
    exact congrArg (c :: ·) ih

/-- `UrlDecode` undoes `UrlEncode`, and on every string it is the decoder that goes from left to right. -/
theorem urlDecode_urlEncode (spaceAsPlus : Bool) :
    (∀ s, urlDecode (urlEncode s spaceAsPlus) spaceAsPlus = s) ∧
      ∀ t, urlDecode t spaceAsPlus = plainDecode spaceAsPlus t := by
  constructor
  · intro s
    rw [urlDecode_eq, urlEncode_eq, plainDecode_plainEncode]
  · intro t
    exact urlDecode_eq t

end StringUtil

end Bobliew.Http
