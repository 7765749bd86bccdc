import Bobliew.Http.Request
import Bobliew.Uri.Reference

/-!
# The components of a reference

A reference as the record of its components, and its text. What the grammar derives is what the components
derive. The components of a text are told apart by their delimiters: the scheme ends at the first colon, the
authority at the first slash, question mark or number sign behind it, the path at the first question mark or
number sign, the query at the first number sign, the user information at the `@`, and the host at a colon
outside brackets.
-/

namespace Bobliew

open Ragel Http

/-- The components of an authority. -/
structure Authority where
  userinfo : Option Bytes
  host : Bytes
  port : Option Bytes
  deriving DecidableEq

/-- The components of a reference. -/
structure Reference where
  scheme : Option Bytes
  authority : Option Authority
  path : Bytes
  query : Option Bytes
  fragment : Option Bytes
  deriving DecidableEq

/-- A component behind its delimiter, if there is one. -/
def behind (delimiter : UInt8) (part : Option Bytes) : Bytes := part.elim [] (delimiter :: ·)

/-- A component in front of its delimiter, if there is one. -/
def before (delimiter : UInt8) (part : Option Bytes) : Bytes := part.elim [] (· ++ [delimiter])

/-- The text of an authority, with its `@` and `:`. -/
def Authority.text (a : Authority) : Bytes := before 64 a.userinfo ++ (a.host ++ behind 58 a.port)

/-- The text of an optional authority, with its `//`. -/
def authorityText (authority : Option Authority) : Bytes := authority.elim [] fun a => 47 :: 47 :: a.text

/-- The query and the fragment, with their `?` and `#`. -/
def Reference.tail (r : Reference) : Bytes := behind 63 r.query ++ behind 35 r.fragment

/-- The text of a reference. -/
def Reference.text (r : Reference) : Bytes :=
  before 58 r.scheme ++ (authorityText r.authority ++ (r.path ++ r.tail))

/-! ## Derivations -/

/-- The path that the grammar has with and without a scheme and an authority. -/
def Rfc3986.path (scheme authority : Bool) : Language UInt8 :=
  if authority then pathAbempty else pathAbsolute + (if scheme then pathRootless else pathNoscheme) + 1

/-- The components of an authority are derived by the grammar. -/
structure Authority.Derives (host : Language UInt8) (a : Authority) : Prop where
  userinfo : ∀ u ∈ a.userinfo, u ∈ Rfc3986.userinfo
  host : a.host ∈ host
  port : ∀ p ∈ a.port, p ∈ Rfc3986.port

/-- The components of a reference are derived by the grammar. -/
structure Reference.Derives (host : Language UInt8) (r : Reference) : Prop where
  scheme : ∀ s ∈ r.scheme, s ∈ Rfc3986.scheme
  authority : ∀ a ∈ r.authority, a.Derives host
  path : r.path ∈ Rfc3986.path r.scheme.isSome r.authority.isSome
  query : ∀ q ∈ r.query, q ∈ Rfc3986.query
  fragment : ∀ f ∈ r.fragment, f ∈ Rfc3986.query

namespace Rfc3986

variable {host l m : Language UInt8} {w : Bytes}

/-- A character stands for its byte. -/
theorem mem_chr {c : Char} (hc : c.toNat < 256) : w ∈ chr c ↔ w = [UInt8.ofNat c.toNat] :=
  Rx.mem_lang_chr (A := Unit) hc

/-- A word whose bytes are words of a language is a repetition of it. -/
theorem mem_kstar_of_bytes (h : ∀ c ∈ w, [c] ∈ l) : w ∈ KStar.kstar l := by
  have hflat : (w.map fun c => [c]).flatten = w := by
    rw [← List.flatMap_def, List.flatMap_singleton']
  refine Language.mem_kstar.mpr ⟨_, hflat.symm, fun x hx => ?_⟩
  obtain ⟨c, hc, rfl⟩ := List.mem_map.mp hx
  exact h c hc

/-- A character in front of a word. -/
theorem mem_chr_mul {c : Char} (hc : c.toNat < 256) :
    w ∈ chr c * l ↔ ∃ v ∈ l, w = UInt8.ofNat c.toNat :: v := by
  rw [Language.mem_mul]
  constructor
  · rintro ⟨u, hu, v, hv, rfl⟩
    obtain rfl := (mem_chr hc).mp hu
    exact ⟨v, hv, rfl⟩
  · rintro ⟨v, hv, rfl⟩
    exact ⟨_, (mem_chr hc).mpr rfl, v, hv, rfl⟩

/-- An optional component behind its delimiter. -/
theorem mem_opt_behind {c : Char} (hc : c.toNat < 256) :
    w ∈ opt (chr c * l) ↔ ∃ part : Option Bytes, (∀ p ∈ part, p ∈ l) ∧ w = behind (UInt8.ofNat c.toNat) part := by
  rw [opt, Language.mem_add, mem_chr_mul hc, Language.mem_one]
  constructor
  · rintro (⟨v, hv, rfl⟩ | rfl)
    · exact ⟨some v, fun p hp => Option.some.inj hp ▸ hv, rfl⟩
    · exact ⟨none, by simp, rfl⟩
  · rintro ⟨_ | v, hv, rfl⟩
    · exact .inr rfl
    · exact .inl ⟨v, hv v rfl, rfl⟩

/-- An optional component in front of its delimiter. -/
theorem mem_opt_before {c : Char} (hc : c.toNat < 256) :
    w ∈ opt (l * chr c) ↔ ∃ part : Option Bytes, (∀ p ∈ part, p ∈ l) ∧ w = before (UInt8.ofNat c.toNat) part := by
  rw [opt, Language.mem_add, Language.mem_mul, Language.mem_one]
  constructor
  · rintro (⟨u, hu, v, hv, rfl⟩ | rfl)
    · obtain rfl := (mem_chr hc).mp hv
      exact ⟨some u, fun p hp => Option.some.inj hp ▸ hu, rfl⟩
    · exact ⟨none, by simp, rfl⟩
  · rintro ⟨_ | u, hu, rfl⟩
    · exact .inr rfl
    · exact .inl ⟨u, hu u rfl, _, (mem_chr hc).mpr rfl, rfl⟩

/-- The authorities of the grammar. -/
theorem mem_authority : w ∈ authority host ↔ ∃ a : Authority, a.Derives host ∧ a.text = w := by
  rw [authority, Language.mem_mul]
  constructor
  · rintro ⟨u, hu, v, hv, rfl⟩
    obtain ⟨userinfo, huser, rfl⟩ := (mem_opt_before (by decide)).mp hu
    obtain ⟨h, hh, t, ht, rfl⟩ := Language.mem_mul.mp hv
    obtain ⟨port, hport, rfl⟩ := (mem_opt_behind (by decide)).mp ht
    exact ⟨⟨userinfo, h, port⟩, ⟨huser, hh, hport⟩, rfl⟩
  · rintro ⟨⟨userinfo, h, port⟩, ⟨huser, hh, hport⟩, rfl⟩
    exact ⟨_, (mem_opt_before (by decide)).mpr ⟨userinfo, huser, rfl⟩, _,
      Language.mem_mul.mpr ⟨h, hh, _, (mem_opt_behind (by decide)).mpr ⟨port, hport, rfl⟩, rfl⟩, rfl⟩

/-- The queries and fragments of the grammar. -/
theorem mem_queryFragment : w ∈ queryFragment ↔ ∃ q f : Option Bytes,
    (∀ x ∈ q, x ∈ query) ∧ (∀ x ∈ f, x ∈ query) ∧ w = behind 63 q ++ behind 35 f := by
  rw [queryFragment, Language.mem_mul]
  constructor
  · rintro ⟨u, hu, v, hv, rfl⟩
    obtain ⟨q, hq, rfl⟩ := (mem_opt_behind (by decide)).mp hu
    obtain ⟨f, hf, rfl⟩ := (mem_opt_behind (by decide)).mp hv
    exact ⟨q, f, hq, hf, rfl⟩
  · rintro ⟨q, f, hq, hf, rfl⟩
    exact ⟨_, (mem_opt_behind (by decide)).mpr ⟨q, hq, rfl⟩, _, (mem_opt_behind (by decide)).mpr ⟨f, hf, rfl⟩, rfl⟩

/-- The authority and the path of the grammar, whose other paths are these. -/
theorem mem_part {paths : Language UInt8} {scheme : Bool}
    (hpaths : path scheme false = paths) :
    w ∈ chr '/' * (chr '/' * (authority host * pathAbempty)) + paths ↔
      ∃ (a : Option Authority) (p : Bytes), (∀ x ∈ a, x.Derives host) ∧ p ∈ path scheme a.isSome ∧
        w = authorityText a ++ p := by
  rw [Language.mem_add, mem_chr_mul (by decide)]
  constructor
  · rintro (⟨u, hu, rfl⟩ | hw)
    · obtain ⟨v, hv, rfl⟩ := (mem_chr_mul (by decide)).mp hu
      obtain ⟨t, ht, p, hp, rfl⟩ := Language.mem_mul.mp hv
      obtain ⟨a, ha, rfl⟩ := mem_authority.mp ht
      exact ⟨some a, p, fun x hx => Option.some.inj hx ▸ ha, hp, rfl⟩
    · exact ⟨none, w, by simp, hpaths.symm ▸ hw, rfl⟩
  · rintro ⟨_ | a, p, ha, hp, rfl⟩
    · exact .inr (hpaths ▸ hp)
    · refine .inl ⟨_, (mem_chr_mul (by decide)).mpr ⟨a.text ++ p, ?_, rfl⟩, rfl⟩
      exact Language.mem_mul.mpr ⟨_, mem_authority.mpr ⟨a, ha a rfl, rfl⟩, p, hp, rfl⟩

/-- The references of the grammar are the texts of derived components. -/
theorem mem_uriReference : w ∈ uriReference host ↔ ∃ r : Reference, r.Derives host ∧ r.text = w := by
  have hhier : path true false = pathAbsolute + pathRootless + 1 := rfl
  have hrelative : path false false = pathAbsolute + pathNoscheme + 1 := rfl
  have hhier' : hierPart host = chr '/' * (chr '/' * (authority host * pathAbempty)) +
      (pathAbsolute + pathRootless + 1) := by
    rw [hierPart, add_assoc, add_assoc, ← add_assoc pathAbsolute]
  have hrelative' : relativePart host = chr '/' * (chr '/' * (authority host * pathAbempty)) +
      (pathAbsolute + pathNoscheme + 1) := by
    rw [relativePart, add_assoc, add_assoc, ← add_assoc pathAbsolute]
  rw [uriReference, Language.mem_add, uri, relativeRef, Language.mem_mul, Language.mem_mul, hhier', hrelative']
  constructor
  · rintro (⟨s, hs, u, hu, rfl⟩ | ⟨u, hu, v, hv, rfl⟩)
    · obtain ⟨t, ht, rfl⟩ := (mem_chr_mul (by decide)).mp hu
      obtain ⟨x, hx, y, hy, rfl⟩ := Language.mem_mul.mp ht
      obtain ⟨a, p, ha, hp, rfl⟩ := (mem_part hhier).mp hx
      obtain ⟨q, f, hq, hf, rfl⟩ := mem_queryFragment.mp hy
      refine ⟨⟨some s, a, p, q, f⟩, ⟨fun x hx => Option.some.inj hx ▸ hs, ha, hp, hq, hf⟩, ?_⟩
      simp [Reference.text, Reference.tail, before]
    · obtain ⟨a, p, ha, hp, rfl⟩ := (mem_part hrelative).mp hu
      obtain ⟨q, f, hq, hf, rfl⟩ := mem_queryFragment.mp hv
      refine ⟨⟨none, a, p, q, f⟩, ⟨by simp, ha, hp, hq, hf⟩, ?_⟩
      simp [Reference.text, Reference.tail, before]
  · rintro ⟨⟨s, a, p, q, f⟩, ⟨hs, ha, hp, hq, hf⟩, rfl⟩
    have htail : behind 63 q ++ behind 35 f ∈ queryFragment := mem_queryFragment.mpr ⟨q, f, hq, hf, rfl⟩
    cases s with
    | none =>
      refine .inr ⟨authorityText a ++ p, (mem_part hrelative).mpr ⟨a, p, ha, hp, rfl⟩, _, htail, ?_⟩
      simp [Reference.text, Reference.tail, before]
    | some s =>
      refine .inl ⟨s, hs s rfl, _, (mem_chr_mul (by decide)).mpr ⟨authorityText a ++ p ++ (behind 63 q ++ behind 35 f), ?_, rfl⟩, ?_⟩
      · exact Language.mem_mul.mpr ⟨_, (mem_part hhier).mpr ⟨a, p, ha, hp, rfl⟩, _, htail, rfl⟩
      · simp [Reference.text, Reference.tail, before]

end Rfc3986

/-! ## Delimiters -/

/-- The hosts that a colon ends: those without a colon and an opening bracket, and those in brackets. -/
def hostShape : Language UInt8 :=
  {h | h ∈ avoiding [47, 63, 35, 64] ∧ (h ∈ avoiding [58, 91] ∨ ∃ l ∈ avoiding [93], h = 91 :: (l ++ [93]))}

/-- The components of an authority do not contain its delimiters. -/
structure Authority.Splits (a : Authority) : Prop where
  userinfo : ∀ u ∈ a.userinfo, u ∈ avoiding [47, 63, 35, 64]
  host : a.host ∈ hostShape
  port : ∀ p ∈ a.port, p ∈ avoiding [47, 63, 35, 64]

/-- The components of a reference do not contain the delimiters that end them, a path is not taken for an
authority, and a colon of a path is not taken for the end of a scheme. -/
structure Reference.Splits (r : Reference) : Prop where
  scheme : ∀ s ∈ r.scheme, s ∈ avoiding [58, 47, 63, 35]
  authority : ∀ a ∈ r.authority, a.Splits
  path : r.path ∈ avoiding [63, 35]
  rooted : r.authority.isSome = true → r.path ∈ startingIn [47]
  notAuthority : r.authority = none → ¬ [47, 47] <+: r.path
  notScheme : r.scheme = none → r.authority = none → ∀ p q, r.path = p ++ 58 :: q → 47 ∈ p
  query : ∀ q ∈ r.query, q ∈ avoiding [35]

/-- Avoiding more bytes is more. -/
theorem avoiding_mono {stops stops' : List UInt8} (h : stops' ⊆ stops) : avoiding stops ≤ avoiding stops' :=
  fun _ hw c hc hmem => hw c hc (h hmem)

/-- Beginning with one of more bytes is less. -/
theorem startingIn_mono {stops stops' : List UInt8} (h : stops ⊆ stops') : startingIn stops ≤ startingIn stops' :=
  fun _ hw c hc => h (hw c hc)

/-- What stands behind a delimiter begins with it. -/
theorem behind_mem (delimiter : UInt8) (part : Option Bytes) : behind delimiter part ∈ startingIn [delimiter] := by
  intro c hc
  cases part with
  | none => cases hc
  | some v =>
    obtain rfl : delimiter = c := Option.some.inj hc
    exact List.mem_singleton_self _

/-- A colon outside brackets ends a host. -/
theorem delimited_hostShape : Delimited hostShape (startingIn [58]) := by
  have hmixed : ∀ {u v l v' : Bytes} {y : Bytes}, u ∈ avoiding [58, 91] → v ∈ startingIn [58] → y <+: u ++ v →
      y <+: 91 :: (l ++ v') → y = [] := by
    intro u v l v' y hu hv hy hy'
    cases y with
    | nil => rfl
    | cons c y =>
      obtain ⟨rfl, _⟩ := List.cons_prefix_cons.mp hy'
      cases u with
      | nil =>
        cases v with
        | nil => cases List.prefix_nil.mp hy
        | cons d v =>
          obtain ⟨rfl, _⟩ := List.cons_prefix_cons.mp hy
          exact absurd (hv _ rfl) (by decide)
      | cons d u =>
        obtain ⟨rfl, _⟩ := List.cons_prefix_cons.mp hy
        exact absurd (hu _ List.mem_cons_self) (by decide)
  rintro u ⟨_, hu⟩ u' ⟨_, hu'⟩ v hv v' hv' y hy hy'
  rcases hu with hu | ⟨l, hl, rfl⟩
  · rcases hu' with hu' | ⟨l', _, rfl⟩
    · have hsub : avoiding [58, 91] ≤ avoiding [58] := avoiding_mono (by simp)
      exact delimited_avoiding [58] u (hsub hu) u' (hsub hu') v hv v' hv' y hy hy'
    · rw [List.cons_append, List.append_assoc] at hy'
      rw [hmixed hu hv hy hy']
      exact .inl ⟨List.nil_prefix, List.nil_prefix⟩
  · rcases hu' with hu' | ⟨l', hl', rfl⟩
    · rw [List.cons_append, List.append_assoc] at hy
      rw [hmixed hu' hv' hy' hy]
      exact .inl ⟨List.nil_prefix, List.nil_prefix⟩
    · cases y with
      | nil => exact .inl ⟨List.nil_prefix, List.nil_prefix⟩
      | cons c y =>
        rw [List.cons_append, List.append_assoc] at hy hy'
        obtain ⟨rfl, hyl⟩ := List.cons_prefix_cons.mp hy
        obtain ⟨_, hyl'⟩ := List.cons_prefix_cons.mp hy'
        have hclosed : ∀ t : Bytes, [93] ++ t ∈ startingIn [93] := by
          intro t c hc
          obtain rfl : 93 = c := Option.some.inj hc
          exact List.mem_singleton_self _
        rcases delimited_avoiding [93] l hl l' hl' _ (hclosed v) _ (hclosed v') y hyl hyl' with
          ⟨hle, hle'⟩ | ⟨rfl, z, rfl, hz, hz'⟩
        · exact .inl ⟨List.cons_prefix_cons.mpr ⟨rfl, hle.trans (List.prefix_append _ _)⟩,
            List.cons_prefix_cons.mpr ⟨rfl, hle'.trans (List.prefix_append _ _)⟩⟩
        · cases z with
          | nil =>
            rw [List.append_nil]
            exact .inl ⟨List.cons_prefix_cons.mpr ⟨rfl, List.prefix_append _ _⟩,
              List.cons_prefix_cons.mpr ⟨rfl, List.prefix_append _ _⟩⟩
          | cons d z =>
            obtain ⟨rfl, hzv⟩ := List.cons_prefix_cons.mp hz
            obtain ⟨_, hzv'⟩ := List.cons_prefix_cons.mp hz'
            exact .inr ⟨rfl, z, by simp, hzv, hzv'⟩

/-! ## One reading -/

/-- An optional component is found again behind its delimiter. -/
theorem behind_injective {delimiter : UInt8} {part part' : Option Bytes}
    (h : behind delimiter part = behind delimiter part') : part = part' := by
  cases part with
  | none =>
    cases part' with
    | none => rfl
    | some v => cases h
  | some v =>
    cases part' with
    | none => cases h
    | some v' => exact congrArg some (List.cons_eq_cons.mp h).2

/-- Words of two parts avoid what both parts avoid. -/
theorem append_mem_avoiding {stops : List UInt8} {u v : Bytes} (hu : u ∈ avoiding stops) (hv : v ∈ avoiding stops) :
    u ++ v ∈ avoiding stops :=
  fun c hc => (List.mem_append.mp hc).elim (hu c) (hv c)

/-- A byte in front of a word. -/
theorem cons_mem_startingIn {stops : List UInt8} {c : UInt8} (hc : c ∈ stops) (w : Bytes) :
    c :: w ∈ startingIn stops :=
  fun d hd => by
    obtain rfl : c = d := Option.some.inj hd
    exact hc

/-- A component behind its delimiter avoids what both avoid. -/
theorem behind_mem_avoiding {stops : List UInt8} {delimiter : UInt8} {part : Option Bytes}
    (hdelim : delimiter ∉ stops)
    (hpart : ∀ p ∈ part, p ∈ avoiding stops) : behind delimiter part ∈ avoiding stops := by
  cases part with
  | none => exact fun c hc => absurd hc List.not_mem_nil
  | some v => exact List.forall_mem_cons.mpr ⟨hdelim, hpart v rfl⟩

namespace Authority

variable {a a' : Authority}

/-- A host and a port contain no `@`. -/
theorem Splits.hostPort_avoids (h : a.Splits) : a.host ++ behind 58 a.port ∈ avoiding [47, 63, 35, 64] :=
  append_mem_avoiding h.host.1 (behind_mem_avoiding (by decide) h.port)

/-- The text of an authority contains no delimiter of a reference. -/
theorem Splits.text_avoids (h : a.Splits) : a.text ∈ avoiding [47, 63, 35] := by
  have hsub : avoiding [47, 63, 35, 64] ≤ avoiding [47, 63, 35] := avoiding_mono (by simp)
  refine append_mem_avoiding ?_ (hsub h.hostPort_avoids)
  cases huser : a.userinfo with
  | none => exact fun c hc => absurd hc List.not_mem_nil
  | some u => exact append_mem_avoiding (hsub (h.userinfo u huser)) (List.forall_mem_singleton.mpr (by decide))

/-- The components of an authority are found again in its text. -/
theorem Splits.unique (h : a.Splits) (h' : a'.Splits) (heq : a.text = a'.text) : a = a' := by
  have hrest : ∀ {a a' : Authority}, a.Splits → a'.Splits →
      a.host ++ behind 58 a.port = a'.host ++ behind 58 a'.port → a.host = a'.host ∧ a.port = a'.port := by
    intro a a' h h' heq
    obtain ⟨hhost, hport⟩ := delimited_hostShape.unique h.host h'.host (behind_mem 58 _) (behind_mem 58 _) heq
    exact ⟨hhost, behind_injective hport⟩
  have hat : ∀ {a a' : Authority} {u : Bytes}, a'.Splits → a.userinfo = some u → a'.userinfo = none →
      a.text ≠ a'.text := by
    intro a a' u h' hu hnone heq
    have hmem : (64 : UInt8) ∈ a'.text := by
      rw [← heq, text, hu]
      simp [before]
    rw [text, hnone] at hmem
    exact h'.hostPort_avoids 64 hmem (by decide)
  obtain ⟨user, hst, prt⟩ := a
  obtain ⟨user', hst', prt'⟩ := a'
  cases user with
  | none =>
    cases user' with
    | none =>
      obtain ⟨hhost, hport⟩ := hrest h h' heq
      exact congrArg₂ (Authority.mk none) hhost hport
    | some u' => exact absurd heq.symm (hat h rfl rfl)
  | some u =>
    cases user' with
    | none => exact absurd heq (hat h' rfl rfl)
    | some u' =>
      simp only [text, before, Option.elim_some, List.append_assoc] at heq
      have hsub : avoiding [47, 63, 35, 64] ≤ avoiding [64] := avoiding_mono (by simp)
      obtain ⟨rfl, hcons⟩ := (delimited_avoiding [64]).unique (hsub (h.userinfo u rfl)) (hsub (h'.userinfo u' rfl))
        (cons_mem_startingIn (by simp) _) (cons_mem_startingIn (by simp) _) heq
      obtain ⟨hhost, hport⟩ := hrest h h' (List.cons_eq_cons.mp hcons).2
      exact congrArg₂ (Authority.mk (some u)) hhost hport

end Authority

namespace Reference

variable {r r' : Reference}

/-- A query and a fragment begin with their delimiters. -/
theorem tail_mem (r : Reference) : r.tail ∈ startingIn [63, 35] := by
  intro c hc
  unfold tail at hc
  cases hq : r.query with
  | none =>
    rw [hq] at hc
    exact List.mem_cons_of_mem _ (behind_mem 35 r.fragment c hc)
  | some q =>
    rw [hq] at hc
    obtain rfl : 63 = c := Option.some.inj hc
    exact List.mem_cons_self

/-- The text of a reference without a scheme does not begin with a scheme. -/
theorem Splits.text_ne (h : r.Splits) (hscheme : r.scheme = none) {p : Bytes} (hp : p ∈ avoiding [58, 47, 63, 35])
    (q : Bytes) : r.text ≠ p ++ 58 :: q := by
  intro heq
  rw [text, hscheme] at heq
  cases hauth : r.authority with
  | some a =>
    rw [hauth] at heq
    cases p with
    | nil => exact absurd (List.cons_eq_cons.mp heq).1 (by decide)
    | cons c p =>
      obtain ⟨rfl, _⟩ := List.cons_eq_cons.mp heq
      exact hp 47 List.mem_cons_self (by decide)
  | none =>
    rw [hauth] at heq
    have htail : ∀ t, r.tail ≠ 58 :: t := fun t ht => absurd (r.tail_mem 58 (by rw [ht]; rfl)) (by decide)
    have hsame : r.path ++ r.tail = p ++ 58 :: q := heq
    rcases List.append_eq_append_iff.mp hsame with ⟨t, rfl, ht⟩ | ⟨t, ht, hq⟩
    · cases t with
      | nil => exact htail q ht.symm.symm
      | cons c t =>
        have hc := r.tail_mem c (by rw [ht]; rfl)
        refine hp c (List.mem_append_right _ List.mem_cons_self) ?_
        fin_cases hc <;> decide
    · cases t with
      | nil => exact htail q hq.symm
      | cons c t =>
        obtain ⟨rfl, _⟩ := List.cons_eq_cons.mp hq
        exact hp 47 (h.notScheme hscheme hauth p t ht) (by decide)

/-- What stands behind the scheme is found again in the text. -/
theorem Splits.scheme_unique (h : r.Splits) (h' : r'.Splits) (heq : r.text = r'.text) : r.scheme = r'.scheme := by
  cases hs : r.scheme with
  | none =>
    cases hs' : r'.scheme with
    | none => rfl
    | some s' =>
      have htext : r'.text = s' ++ 58 :: (authorityText r'.authority ++ (r'.path ++ r'.tail)) := by
        simp [text, hs', before]
      exact absurd (heq.trans htext) (h.text_ne hs (h'.scheme s' hs') _)
  | some s =>
    have htext : r.text = s ++ 58 :: (authorityText r.authority ++ (r.path ++ r.tail)) := by simp [text, hs, before]
    cases hs' : r'.scheme with
    | none => exact absurd (heq.symm.trans htext) (h'.text_ne hs' (h.scheme s hs) _)
    | some s' =>
      have htext' : r'.text = s' ++ 58 :: (authorityText r'.authority ++ (r'.path ++ r'.tail)) := by
        simp [text, hs', before]
      have hsub : avoiding [58, 47, 63, 35] ≤ avoiding [58] := avoiding_mono (by simp)
      obtain ⟨rfl, _⟩ := (delimited_avoiding [58]).unique (hsub (h.scheme s hs)) (hsub (h'.scheme s' hs'))
        (cons_mem_startingIn (by simp) _) (cons_mem_startingIn (by simp) _) (htext.symm.trans (heq.trans htext'))
      rfl

/-- A path without an authority is not taken for one. -/
theorem Splits.part_ne (h : r.Splits) (hauth : r.authority = none) (t : Bytes) :
    r.path ++ r.tail ≠ 47 :: 47 :: t := by
  intro heq
  have hpre : [47, 47] <+: r.path ++ r.tail := ⟨t, heq.symm⟩
  rcases prefix_append_cases hpre with hle | ⟨z, hz, htail⟩
  · exact h.notAuthority hauth hle
  · cases z with
    | nil => exact h.notAuthority hauth (by rw [hz, List.append_nil])
    | cons c z =>
      obtain ⟨t, ht⟩ := htail
      have hc := r.tail_mem c (by rw [← ht]; rfl)
      have hmem : c ∈ [47, 47] := hz ▸ List.mem_append_right _ List.mem_cons_self
      fin_cases hmem <;> exact absurd hc (by decide)

/-- The components of a reference are found again in its text. -/
theorem Splits.unique (h : r.Splits) (h' : r'.Splits) (heq : r.text = r'.text) : r = r' := by
  have hscheme := h.scheme_unique h' heq
  obtain ⟨sch, auth, path, query, fragment⟩ := r
  obtain ⟨sch', auth', path', query', fragment'⟩ := r'
  obtain rfl : sch = sch' := hscheme
  have hpart : authorityText auth ++ (path ++ (behind 63 query ++ behind 35 fragment)) =
      authorityText auth' ++ (path' ++ (behind 63 query' ++ behind 35 fragment')) :=
    List.append_cancel_left heq
  have hauth : auth = auth' ∧ path ++ (behind 63 query ++ behind 35 fragment) =
      path' ++ (behind 63 query' ++ behind 35 fragment') := by
    cases auth with
    | none =>
      cases auth' with
      | none => exact ⟨rfl, hpart⟩
      | some a' => exact absurd hpart (h.part_ne rfl _)
    | some a =>
      cases auth' with
      | none => exact absurd hpart.symm (h'.part_ne rfl _)
      | some a' =>
        have hstarts : ∀ {p q f}, p ∈ startingIn [47] →
            p ++ (behind 63 q ++ behind 35 f) ∈ startingIn [47, 63, 35] := by
          intro p q f hp c hc
          cases p with
          | nil => exact List.mem_cons_of_mem _ (tail_mem ⟨none, none, [], q, f⟩ c hc)
          | cons d p =>
            obtain rfl : d = c := Option.some.inj hc
            exact List.mem_cons.mpr (.inl (List.mem_singleton.mp (hp d rfl)))
        obtain ⟨htext, hrest⟩ := (delimited_avoiding [47, 63, 35]).unique (h.authority a rfl).text_avoids
          (h'.authority a' rfl).text_avoids (hstarts (h.rooted rfl)) (hstarts (h'.rooted rfl))
          (List.cons_eq_cons.mp (List.cons_eq_cons.mp hpart).2).2
        exact ⟨congrArg some ((h.authority a rfl).unique (h'.authority a' rfl) htext), hrest⟩
  obtain ⟨rfl, hrest⟩ := hauth
  have hpath : path = path' ∧ behind 63 query ++ behind 35 fragment = behind 63 query' ++ behind 35 fragment' :=
    (delimited_avoiding [63, 35]).unique h.path h'.path (tail_mem ⟨none, none, [], query, fragment⟩)
      (tail_mem ⟨none, none, [], query', fragment'⟩) hrest
  have htail : behind 63 query = behind 63 query' ∧ behind 35 fragment = behind 35 fragment' :=
    (delimited_avoiding [35]).unique (behind_mem_avoiding (by decide) h.query) (behind_mem_avoiding (by decide) h'.query)
      (behind_mem 35 fragment) (behind_mem 35 fragment') hpath.2
  obtain rfl : path = path' := hpath.1
  obtain rfl : query = query' := behind_injective htail.1
  obtain rfl : fragment = fragment' := behind_injective htail.2
  rfl

end Reference

/-! ## Derived components -/

namespace Rfc3986

variable {stops : List UInt8} {l m : Language UInt8}

/-- A set without the bytes. -/
theorem bytes_le_avoiding {set : ByteSet} (h : stops.all (fun c => !set.has c) = true) :
    bytes set ≤ avoiding stops := by
  rintro w ⟨c, hc, rfl⟩
  refine List.forall_mem_singleton.mpr fun hmem => ?_
  have hnot := List.all_eq_true.mp h c hmem
  rw [hc] at hnot
  cases hnot

/-- A concatenation without the bytes. -/
theorem mul_le_avoiding (hl : l ≤ avoiding stops) (hm : m ≤ avoiding stops) : l * m ≤ avoiding stops := by
  rintro w hw
  obtain ⟨u, hu, v, hv, rfl⟩ := Language.mem_mul.mp hw
  exact append_mem_avoiding (hl hu) (hm hv)

/-- A repetition without the bytes. -/
theorem kstar_le_avoiding (hl : l ≤ avoiding stops) : KStar.kstar l ≤ avoiding stops := by
  rintro w hw
  obtain ⟨ws, rfl, hws⟩ := Language.mem_kstar.mp hw
  intro c hc
  obtain ⟨x, hx, hcx⟩ := List.mem_flatten.mp hc
  exact hl (hws x hx) c hcx

/-- The empty word. -/
theorem one_le_avoiding : 1 ≤ avoiding stops := by
  intro w hw
  obtain rfl := (Language.mem_one w).mp hw
  exact fun c hc => absurd hc List.not_mem_nil

/-- An option without the bytes. -/
theorem opt_le_avoiding (hl : l ≤ avoiding stops) : opt l ≤ avoiding stops :=
  sup_le hl one_le_avoiding

/-- A scheme contains no delimiter. -/
theorem scheme_le : scheme ≤ avoiding [58, 47, 63, 35] :=
  mul_le_avoiding (bytes_le_avoiding rfl) (kstar_le_avoiding (bytes_le_avoiding rfl))

/-- An escaped byte contains no delimiter. -/
theorem pctEncoded_le : pctEncoded ≤ avoiding [47, 63, 35, 64, 91, 58] :=
  mul_le_avoiding (bytes_le_avoiding rfl) (mul_le_avoiding (bytes_le_avoiding rfl) (bytes_le_avoiding rfl))

/-- User information contains no delimiter. -/
theorem userinfo_le : userinfo ≤ avoiding [47, 63, 35, 64, 91] :=
  kstar_le_avoiding (sup_le (sup_le (sup_le (bytes_le_avoiding rfl) (pctEncoded_le.trans (avoiding_mono (by simp))))
    (bytes_le_avoiding rfl)) (bytes_le_avoiding rfl))

/-- A port contains no delimiter. -/
theorem port_le : port ≤ avoiding [47, 63, 35, 64] :=
  kstar_le_avoiding (bytes_le_avoiding rfl)

/-- A character of a segment without colons. -/
theorem pcharNc_le : pcharNc ≤ avoiding [47, 63, 35, 58] :=
  sup_le (sup_le (sup_le (sup_le (bytes_le_avoiding rfl) (pctEncoded_le.trans (avoiding_mono (by simp))))
    (bytes_le_avoiding rfl)) (bytes_le_avoiding rfl)) (bytes_le_avoiding rfl)

/-- A character of a segment. -/
theorem pchar_le : pchar ≤ avoiding [47, 63, 35] :=
  sup_le (pcharNc_le.trans (avoiding_mono (by simp))) (bytes_le_avoiding rfl)

/-- A query contains no number sign. -/
theorem query_le : query ≤ avoiding [35] :=
  kstar_le_avoiding (sup_le (sup_le (pchar_le.trans (avoiding_mono (by simp))) (bytes_le_avoiding rfl))
    (bytes_le_avoiding rfl))

/-- Segments behind slashes contain no question mark and no number sign. -/
theorem pathAbempty_le : pathAbempty ≤ avoiding [63, 35] :=
  kstar_le_avoiding (mul_le_avoiding (bytes_le_avoiding rfl)
    (kstar_le_avoiding (pchar_le.trans (avoiding_mono (by simp)))))

/-- Some characters of segments, and segments behind them. -/
theorem segments_le (hl : l ≤ avoiding [47, 63, 35]) : plus l * pathAbempty ≤ avoiding [63, 35] :=
  have hsub := hl.trans (avoiding_mono (by simp))
  mul_le_avoiding (mul_le_avoiding hsub (kstar_le_avoiding hsub)) pathAbempty_le

/-- A path contains no question mark and no number sign. -/
theorem path_le (scheme authority : Bool) : path scheme authority ≤ avoiding [63, 35] := by
  have hsegments : plus pchar * pathAbempty ≤ avoiding [63, 35] := segments_le pchar_le
  have hsegmentsNc : plus pcharNc * pathAbempty ≤ avoiding [63, 35] :=
    segments_le (pcharNc_le.trans (avoiding_mono (by simp)))
  have habsolute : pathAbsolute ≤ avoiding [63, 35] :=
    mul_le_avoiding (bytes_le_avoiding rfl) (opt_le_avoiding hsegments)
  unfold path
  cases authority with
  | true => exact pathAbempty_le
  | false =>
    cases scheme with
    | true => exact sup_le (sup_le habsolute hsegments) one_le_avoiding
    | false => exact sup_le (sup_le habsolute hsegmentsNc) one_le_avoiding

/-- A path behind an authority begins with a slash. -/
theorem pathAbempty_le_startingIn : pathAbempty ≤ startingIn [47] := by
  intro w hw
  obtain ⟨ws, rfl, hws⟩ := Language.mem_kstar_iff_exists_nonempty.mp hw
  intro c hc
  cases ws with
  | nil => cases hc
  | cons x ws =>
    obtain ⟨v, _, rfl⟩ := (mem_chr_mul (by decide)).mp (hws x List.mem_cons_self).1
    obtain rfl : 47 = c := Option.some.inj hc
    exact List.mem_singleton_self _

/-- A character of a segment is not empty. -/
theorem nil_not_mem_pchar : [] ∉ pchar := by
  have hbytes : ∀ set, [] ∉ bytes set := fun _ ⟨_, _, h⟩ => by cases h
  have hpct : [] ∉ pctEncoded := fun h => by
    obtain ⟨_, _, h⟩ := (mem_chr_mul (by decide)).mp h
    cases h
  rintro (((((h | h) | h) | h) | h) | h)
  · exact hbytes _ h
  · exact hpct h
  · exact hbytes _ h
  · exact hbytes _ h
  · exact hbytes _ h
  · exact hbytes _ h

/-- Segments behind some characters do not begin with a slash, and a colon comes behind a slash if there is
none among these characters. -/
theorem segments_cases {w : Bytes} (hl : l ≤ pchar) (hw : w ∈ plus l * pathAbempty) :
    w.head? ≠ some 47 ∧ (l ≤ avoiding [58] → ∀ p q, w = p ++ 58 :: q → 47 ∈ p) := by
  obtain ⟨u, hu, v, hv, rfl⟩ := Language.mem_mul.mp hw
  obtain ⟨x, hx, y, hy, rfl⟩ := Language.mem_mul.mp hu
  constructor
  · cases x with
    | nil => exact absurd (hl hx) nil_not_mem_pchar
    | cons c x =>
      intro hc
      obtain rfl : c = 47 := Option.some.inj hc
      exact pchar_le (hl hx) 47 List.mem_cons_self (by decide)
  · intro hcolon p q heq
    have hno : x ++ y ∈ avoiding [58] := append_mem_avoiding (hcolon hx) (kstar_le_avoiding hcolon hy)
    rcases List.append_eq_append_iff.mp heq with ⟨t, rfl, ht⟩ | ⟨t, ht, ht'⟩
    · cases t with
      | nil => exact absurd (pathAbempty_le_startingIn hv 58 (by rw [ht]; rfl)) (by decide)
      | cons c t =>
        obtain rfl : c = 47 := List.mem_singleton.mp (pathAbempty_le_startingIn hv c (by rw [ht]; rfl))
        exact List.mem_append_right _ List.mem_cons_self
    · cases t with
      | nil => exact absurd (pathAbempty_le_startingIn hv 58 (by rw [← List.nil_append v, ← ht']; rfl)) (by decide)
      | cons c t =>
        obtain ⟨rfl, _⟩ := List.cons_eq_cons.mp ht'
        exact absurd (List.mem_singleton_self _) (hno 58 (by rw [ht]; simp))

/-- The path of a reference without an authority is not taken for one, and a colon in the path of a reference
without a scheme comes behind a slash. -/
theorem path_cases {scheme : Bool} {w : Bytes} (hw : w ∈ path scheme false) :
    ¬ [47, 47] <+: w ∧ (scheme = false → ∀ p q, w = p ++ 58 :: q → 47 ∈ p) := by
  have hnot : ∀ {w : Bytes}, w.head? ≠ some 47 → ¬ [47, 47] <+: w := by
    rintro _ hhead ⟨t, rfl⟩
    exact hhead rfl
  have hpcharNc : pcharNc ≤ pchar := le_sup_left
  have hcolon : pcharNc ≤ avoiding [58] := pcharNc_le.trans (avoiding_mono (by simp))
  rcases hw with (hw | hw) | hw
  · obtain ⟨v, hv, rfl⟩ := (mem_chr_mul (by decide)).mp hw
    refine ⟨fun hpre => ?_, fun _ p q heq => ?_⟩
    · obtain ⟨_, hpre⟩ := List.cons_prefix_cons.mp hpre
      rcases hv with hv | hv
      · obtain ⟨t, rfl⟩ := hpre
        exact (segments_cases le_rfl hv).1 rfl
      · obtain rfl := (Language.mem_one v).mp hv
        cases List.prefix_nil.mp hpre
    · cases p with
      | nil => exact absurd (List.cons_eq_cons.mp heq).1 (by decide)
      | cons c p =>
        obtain ⟨rfl, _⟩ := List.cons_eq_cons.mp heq
        exact List.mem_cons_self
  · cases scheme with
    | true => exact ⟨hnot (segments_cases le_rfl hw).1, fun h => by cases h⟩
    | false => exact ⟨hnot (segments_cases hpcharNc hw).1, fun _ => (segments_cases hpcharNc hw).2 hcolon⟩
  · obtain rfl := (Language.mem_one w).mp hw
    refine ⟨fun hpre => absurd (List.prefix_nil.mp hpre) (List.cons_ne_nil _ _), fun _ p q heq => ?_⟩
    cases p <;> cases heq

end Rfc3986

variable {host : Language UInt8}

/-- Derived components do not contain the delimiters of an authority. -/
theorem Authority.Derives.splits {a : Authority} (hhost : host ≤ hostShape) (h : a.Derives host) : a.Splits where
  userinfo u hu := (Rfc3986.userinfo_le.trans (avoiding_mono (by simp))) (h.userinfo u hu)
  host := hhost h.host
  port p hp := Rfc3986.port_le (h.port p hp)

/-- Derived components do not contain the delimiters of a reference. -/
theorem Reference.Derives.splits {r : Reference} (hhost : host ≤ hostShape) (h : r.Derives host) : r.Splits where
  scheme s hs := Rfc3986.scheme_le (h.scheme s hs)
  authority a ha := (h.authority a ha).splits hhost
  path := Rfc3986.path_le _ _ h.path
  rooted hauth := by
    have hpath := h.path
    rw [hauth] at hpath
    exact Rfc3986.pathAbempty_le_startingIn hpath
  notAuthority hauth := by
    have hpath := h.path
    rw [hauth] at hpath
    exact (Rfc3986.path_cases hpath).1
  notScheme hscheme hauth := by
    have hpath := h.path
    rw [hauth, hscheme] at hpath
    exact (Rfc3986.path_cases hpath).2 rfl
  query q hq := Rfc3986.query_le (h.query q hq)

end Bobliew
