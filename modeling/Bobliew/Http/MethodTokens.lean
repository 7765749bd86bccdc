import Bobliew.Http.RequestParser
import Bobliew.Lib.RagelLanguage

/-!
# Method tokens

`on_request_method` looks the method up with `CharsToHttpMethod`, which compares the memory at the token with the
names of the table as far as the names go and does not use the length of the token. A token that begins with a
name and goes on is taken for that method. `StringToHttpMethod` compares whole strings.
-/

namespace Bobliew.Http

open Ragel

/-- `StringToHttpMethod`; `none` is `INVALID_METHOD`. -/
def stringToHttpMethod (m : Bytes) : Option HttpMethod :=
  (httpMethodMap.find? fun entry => decide (entry.2 = m.takeWhile fun c => !decide (c = 0))).map (·.1)

/-- `on_request_method` on a token goes by the whole token: it stores the method of that name, or the error 1000
if there is none. -/
structure TakenWhole (token rest : Bytes) : Prop where
  agree : charsToHttpMethod (token ++ 32 :: rest) = stringToHttpMethod token
  stores : ∀ p : HttpRequestParser, p.onRequestMethod (token ++ 32 :: rest) =
    (stringToHttpMethod token).elim { p with error := 1000 } fun m =>
      { p with data := { p.data with method := m } }

variable {token rest : Bytes}

/-- No name of the table contains a blank. -/
theorem httpMethodMap_no_blank : ∀ entry ∈ httpMethodMap, (32 : UInt8) ∉ entry.2 := by
  decide +kernel

/-- No name of the table begins with another one. -/
theorem httpMethodMap_prefix_free : ∀ entry ∈ httpMethodMap, ∀ other ∈ httpMethodMap,
    entry.2.isPrefixOf other.2 = true → entry.2 = other.2 := by
  decide +kernel

/-- The bytes of a method token are upper-case letters and digits. -/
theorem has_of_mem_method (htoken : token ∈ (RequestGrammar.method).lang) :
    ∀ c ∈ token, (ByteSet.union upper digit).has c = true := by
  have hrepeat : ∀ (n : ℕ) (w : Bytes), w ∈ (Rx.upTo (.byte (.union upper digit)) n : Rx RequestAction).lang →
      ∀ c ∈ w, (ByteSet.union upper digit).has c = true := by
    intro n
    induction n with
    | zero =>
      intro w hw
      rw [Rx.mem_lang_empty.mp hw]
      exact fun c hc => absurd hc List.not_mem_nil
    | succ n ih =>
      intro w hw
      rcases Rx.mem_lang_alt.mp hw with hw | hw
      · obtain ⟨u, hu, v, hv, rfl⟩ := Rx.mem_lang_cat.mp hw
        obtain ⟨d, hd, rfl⟩ := Rx.mem_lang_byte.mp hu
        exact List.forall_mem_cons.mpr ⟨hd, ih v hv⟩
      · rw [Rx.mem_lang_empty.mp hw]
        exact fun c hc => absurd hc List.not_mem_nil
  obtain ⟨u, hu, v, hv, rfl⟩ := Rx.mem_lang_cat.mp htoken
  obtain ⟨d, hd, rfl⟩ := Rx.mem_lang_byte.mp hu
  exact List.forall_mem_cons.mpr ⟨hd, hrepeat 19 v hv⟩

/-- The comparison with a name stops at the blank behind the token. -/
theorem isPrefixOf_token {name : Bytes} (hname : 32 ∉ name) :
    name.isPrefixOf (token ++ 32 :: rest) = name.isPrefixOf token := by
  rw [Bool.eq_iff_iff, List.isPrefixOf_iff_prefix, List.isPrefixOf_iff_prefix]
  constructor
  · intro h
    rcases List.prefix_or_prefix_of_prefix h (List.prefix_append (token ++ [32]) rest |>.trans (by simp)) with
      hinside | hbeyond
    · rcases List.prefix_concat_iff.mp hinside with rfl | hinside
      · exact absurd (List.mem_append_right token (List.mem_singleton_self 32)) hname
      · exact hinside
    · exact absurd (hbeyond.subset (List.mem_append_right token (List.mem_singleton_self 32))) hname
  · exact fun h => h.trans (List.prefix_append _ _)

/-- `CharsToHttpMethod` at a token finds the first name that the token begins with. -/
theorem charsToHttpMethod_token : charsToHttpMethod (token ++ 32 :: rest) =
    (httpMethodMap.find? fun entry => entry.2.isPrefixOf token).map (·.1) := by
  unfold charsToHttpMethod
  congr 1
  refine List.find?_congr fun entry hentry => ?_
  exact isPrefixOf_token (httpMethodMap_no_blank entry hentry)

/-- `StringToHttpMethod` of a token without NUL. -/
theorem stringToHttpMethod_token (hnul : 0 ∉ token) :
    stringToHttpMethod token = (httpMethodMap.find? fun entry => decide (entry.2 = token)).map (·.1) := by
  have hall : ∀ c ∈ token, (!decide (c = 0)) = true := by
    intro c hc
    simpa using fun h : c = 0 => hnul (h ▸ hc)
  rw [stringToHttpMethod, List.takeWhile_eq_self_iff.mpr hall]

/-- A method token is taken whole exactly when no name of the table is a proper beginning of it. -/
theorem takenWhole_iff (htoken : token ∈ (RequestGrammar.method).lang) (rest : Bytes) :
    TakenWhole token rest ↔ ∀ entry ∈ httpMethodMap, entry.2 <+: token → entry.2 = token := by
  have hnul : 0 ∉ token := by
    intro hmem
    have hbyte := has_of_mem_method htoken 0 hmem
    exact absurd hbyte (by decide)
  constructor
  · intro h entry hentry hprefix
    have hagree := h.agree
    rw [charsToHttpMethod_token, stringToHttpMethod_token hnul] at hagree
    cases hfound : httpMethodMap.find? fun entry => entry.2.isPrefixOf token with
    | none =>
      have hnot := List.find?_eq_none.mp hfound entry hentry
      exact absurd (List.isPrefixOf_iff_prefix.mpr hprefix) hnot
    | some first =>
      rw [hfound] at hagree
      obtain ⟨whole, hwhole, _⟩ := Option.map_eq_some_iff.mp hagree.symm
      have hfind := List.find?_some hwhole
      have heq : whole.2 = token := of_decide_eq_true hfind
      rw [← heq] at hprefix ⊢
      exact httpMethodMap_prefix_free entry hentry whole (List.mem_of_find?_eq_some hwhole)
        (List.isPrefixOf_iff_prefix.mpr hprefix)
  · intro hwhole
    have hagree : charsToHttpMethod (token ++ 32 :: rest) = stringToHttpMethod token := by
      rw [charsToHttpMethod_token, stringToHttpMethod_token hnul]
      congr 1
      refine List.find?_congr fun entry hentry => ?_
      rw [Bool.eq_iff_iff, List.isPrefixOf_iff_prefix, decide_eq_true_iff]
      exact ⟨hwhole entry hentry, fun h => h ▸ List.prefix_rfl⟩
    refine ⟨hagree, fun p => ?_⟩
    rw [HttpRequestParser.onRequestMethod, hagree]
    cases stringToHttpMethod token <;> rfl

/-- A token in the language of the grammar, byte by byte. -/
theorem mem_method_of_bytes (hne : token ≠ []) (hbytes : ∀ d ∈ token, (ByteSet.union upper digit).has d = true)
    (hlength : token.length ≤ 20) : token ∈ (RequestGrammar.method).lang := by
  have hrepeat : ∀ (n : ℕ) (w : Bytes), (∀ d ∈ w, (ByteSet.union upper digit).has d = true) → w.length ≤ n →
      w ∈ (Rx.upTo (.byte (.union upper digit)) n : Rx RequestAction).lang := by
    intro n
    induction n with
    | zero =>
      intro w _ hw
      exact Rx.mem_lang_empty.mpr (List.length_eq_zero_iff.mp (Nat.le_zero.mp hw))
    | succ n ih =>
      intro w hw hle
      cases w with
      | nil => exact Rx.mem_lang_alt.mpr (.inr (Rx.mem_lang_empty.mpr rfl))
      | cons d w =>
        obtain ⟨hd, hrest⟩ := List.forall_mem_cons.mp hw
        refine Rx.mem_lang_alt.mpr (.inl (Rx.mem_lang_cat.mpr ⟨[d], Rx.mem_lang_byte.mpr ⟨d, hd, rfl⟩, w, ?_, rfl⟩))
        exact ih w hrest (Nat.le_of_succ_le_succ hle)
  cases token with
  | nil => exact absurd rfl hne
  | cons c cs =>
    obtain ⟨hc, hcs⟩ := List.forall_mem_cons.mp hbytes
    refine Rx.mem_lang_cat.mpr ⟨[c], Rx.mem_lang_byte.mpr ⟨c, hc, rfl⟩, cs, ?_, rfl⟩
    exact hrepeat 19 cs hcs (Nat.le_of_succ_le_succ hlength)

/-- The token `GET`. -/
theorem takenWhole_get : TakenWhole (asciiText ['G', 'E', 'T']) [47] :=
  (takenWhole_iff (mem_method_of_bytes (by decide) (by decide +kernel) (by decide)) [47]).mpr (by decide +kernel)

/-- The token `GETX` is taken for the method GET. -/
theorem not_takenWhole_getx : asciiText ['G', 'E', 'T', 'X'] ∈ (RequestGrammar.method).lang ∧
    ¬ TakenWhole (asciiText ['G', 'E', 'T', 'X']) [47] := by
  refine ⟨mem_method_of_bytes (by decide) (by decide +kernel) (by decide), fun h => ?_⟩
  exact absurd h.agree (by decide +kernel)

end Bobliew.Http
