import Bobliew.Http.RoundTrip
import Bobliew.Uri.Getters

/-!
# Printing a URI and creating it again

`toString` prints a scheme, an authority and a path whatever the URI was created from, so what it prints is the text
of a reference with these parts. Creating a URI from it is reading that reference: the user information is read as
an accepted string is, and a negative port is no port at all.
-/

namespace Bobliew

open Ragel Http UriGrammar

/-- The same to the getters. -/
structure Uri.Alike (u v : Uri) : Prop where
  scheme : u.scheme = v.scheme
  userinfo : u.userinfo = v.userinfo
  host : u.host = v.host
  port : u.getPort = v.getPort
  path : u.getPath = v.getPath
  query : u.query = v.query
  fragment : u.fragment = v.fragment

/-- A component that is printed unless it is empty. -/
def unlessEmpty (part : Bytes) : Option Bytes := if part = [] then none else some part

/-- A component that is printed is the component. -/
theorem mem_of_mem_unlessEmpty {part : Bytes} {l : Language UInt8} (hpart : part ∈ l) :
    ∀ v ∈ unlessEmpty part, v ∈ l := by
  intro v hv
  unfold unlessEmpty at hv
  split at hv
  · cases hv
  · obtain rfl := Option.some.inj hv
    exact hpart

/-- A component that is not printed is empty. -/
theorem elim_unlessEmpty {A : Type} (f : Bytes → A) (part : Bytes) : (unlessEmpty part).elim (f []) f = f part := by
  unfold unlessEmpty
  split
  · rename_i hnil
    rw [hnil]
    rfl
  · rfl

namespace Uri

variable (u : Uri)

/-- The components of what is printed. -/
def printed : Reference where
  scheme := some u.scheme
  authority := some ⟨unlessEmpty u.userinfo, u.host, if u.isDefaultPort then none else some (numberText u.port)⟩
  path := u.getPath
  query := unlessEmpty u.query
  fragment := unlessEmpty u.fragment

/-- What is printed is the text of a reference. -/
theorem toString_eq_text : u.toString = u.printed.text := by
  have hbefore : ∀ (d : Char) (part rest : Bytes), part ++ ((if part = [] then [] else asciiText [d]) ++ rest) =
      before (UInt8.ofNat d.toNat) (unlessEmpty part) ++ rest := by
    intro d part rest
    rw [← List.append_assoc]
    unfold unlessEmpty
    split
    · rename_i h
      rw [h]
      rfl
    · rfl
  have hbehind : ∀ (d : Char) (part rest : Bytes), (if part = [] then [] else asciiText [d]) ++ (part ++ rest) =
      behind (UInt8.ofNat d.toNat) (unlessEmpty part) ++ rest := by
    intro d part rest
    rw [← List.append_assoc]
    unfold unlessEmpty
    split
    · rename_i h
      rw [h]
      rfl
    · rfl
  have hport : (if u.isDefaultPort then [] else asciiText [':'] ++ numberText u.port) =
      behind 58 (if u.isDefaultPort then none else some (numberText u.port)) := by
    split <;> rfl
  have hfragment := hbehind '#' u.fragment []
  rw [List.append_nil, List.append_nil] at hfragment
  simp only [toString, List.append_assoc, hbefore, hbehind, hfragment, hport]
  simp [printed, Reference.text, Reference.tail, authorityText, Authority.text, before, asciiText]

/-- The components of a URI that was created from a reference with a scheme. -/
structure Derived (u : Uri) : Prop where
  scheme : u.scheme ∈ Rfc3986.scheme
  userinfo : u.userinfo ∈ Rfc3986.userinfo
  host : u.host ∈ UriGrammar.host.lang
  path : u.path ∈ Rfc3986.pathAbempty
  query : u.query ∈ Rfc3986.query
  fragment : u.fragment ∈ Rfc3986.query
  port : u.port < 2 ^ 31

/-- Stored user information is user information. -/
theorem storedUserinfo_mem {user : Bytes} (h : user ∈ Rfc3986.userinfo) : storedUserinfo user ∈ Rfc3986.userinfo := by
  unfold storedUserinfo
  split
  · rename_i hdigit
    obtain ⟨name, hname, d, t, rfl, _, hlen⟩ := digitBehindColon_iff.mp hdigit
    have hdrop : (name ++ 58 :: d :: t).drop (name.length + 1) = d :: t := by
      rw [List.drop_append]
      simp
    rw [hlen, hdrop]
    exact (userinfo_split hname h).2
  · exact h

/-- A stored port fits. -/
theorem storedPort_lt (digits : Bytes) : storedPort digits < 2 ^ 31 := by
  have hlt := Int.bmod_lt (x := min (decimalValue digits : ℤ) (2 ^ 63 - 1)) (m := 2 ^ 32) (by decide)
  norm_num at hlt ⊢
  exact hlt

/-- What is stored of a reference with a scheme. -/
theorem derived_stored {r : Reference} (hr : r.Derives UriGrammar.host.lang) (hs : r.scheme.isSome) :
    Derived r.stored := by
  have hquery : ∀ {part : Option Bytes}, (∀ v ∈ part, v ∈ Rfc3986.query) → part.getD [] ∈ Rfc3986.query := by
    intro part hpart
    cases part with
    | none => exact Language.nil_mem_kstar _
    | some v => exact hpart v rfl
  have hscheme : r.scheme.getD [] ∈ Rfc3986.scheme := by
    obtain ⟨s, hs⟩ := Option.isSome_iff_exists.mp hs
    rw [hs]
    exact hr.scheme s hs
  cases hauth : r.authority with
  | none =>
    rw [Reference.stored, hauth]
    refine ⟨hscheme, Language.nil_mem_kstar _, ?_, Language.nil_mem_kstar _, hquery hr.query, hquery hr.fragment, ?_⟩
    · have hname : [] ∈ regName.lang := by
        rw [lang_regName]
        exact Language.nil_mem_kstar _
      exact .inr (.inr hname)
    · exact (by decide : (0 : ℤ) < 2 ^ 31)
  | some a =>
    have ha := hr.authority a hauth
    have hpath := hr.path
    rw [hauth] at hpath
    rw [Reference.stored, hauth]
    dsimp only
    rw [if_pos hs]
    refine ⟨hscheme, ?_, ha.host, hpath, hquery hr.query, hquery hr.fragment, ?_⟩
    · cases huser : a.userinfo with
      | none =>
        simp only [Authority.store, huser]
        exact Language.nil_mem_kstar _
      | some user =>
        simp only [Authority.store, huser]
        exact storedUserinfo_mem (ha.userinfo user huser)
    · cases hport : a.port with
      | none =>
        simp only [Authority.store, hport]
        exact (by decide : (0 : ℤ) < 2 ^ 31)
      | some v =>
        simp only [Authority.store, hport, Option.elim_some]
        split
        · exact (by decide : (0 : ℤ) < 2 ^ 31)
        · exact storedPort_lt v

/-- The number that is printed is the number of its digits. -/
theorem decimalValue_decimal (n : ℕ) : decimalValue (decimal n) = n := by
  have hdigits : ∀ (cs : List Char) (k : ℕ), (∀ c ∈ cs, c.isDigit = true) →
      (asciiText cs).foldl (fun n c => n * 10 + (c.toNat - 48)) k = Nat.ofDigitChars 10 cs k := by
    intro cs
    induction cs with
    | nil => exact fun k _ => rfl
    | cons c cs ih =>
      intro k hcs
      obtain ⟨hc, hcs⟩ := List.forall_mem_cons.mp hcs
      obtain ⟨_, hle⟩ := Bool.and_eq_true_iff.mp hc
      have hhigh : c.toNat ≤ 57 := UInt32.le_iff_toNat_le.mp (of_decide_eq_true hle)
      have hbyte : (UInt8.ofNat c.toNat).toNat = c.toNat := by
        rw [UInt8.toNat_ofNat']
        omega
      rw [Nat.ofDigitChars_cons, ← ih _ hcs, Nat.mul_comm 10 k]
      change (asciiText cs).foldl _ (k * 10 + ((UInt8.ofNat c.toNat).toNat - 48)) = _
      rw [hbyte]
      rfl
  rw [decimalValue, decimal, hdigits _ _ fun c hc => Nat.isDigit_of_mem_toDigits (by decide) (by decide) hc]
  exact Nat.ofDigitChars_ten_toDigits

/-- The number that is printed is a port unless it is negative. -/
theorem numberText_mem_port (n : ℤ) : numberText n ∈ Rfc3986.port ↔ 0 ≤ n := by
  unfold numberText
  constructor
  · intro h
    by_contra hneg
    rw [if_pos (not_le.mp hneg)] at h
    exact absurd (digit_of_mem_port h 45 (List.mem_append_left _ (List.mem_singleton_self _))) (by decide)
  · intro h
    rw [if_neg (not_lt.mpr h)]
    refine Rfc3986.mem_kstar_of_bytes fun c hc => ⟨c, ?_, rfl⟩
    simp only [digit, ByteSet.has, Bool.and_eq_true, Nat.ble_eq]
    exact digit_of_mem_decimal hc

/-- A number that is printed is not empty. -/
theorem numberText_ne_nil (n : ℤ) : numberText n ≠ [] := by
  unfold numberText
  split
  · exact List.append_ne_nil_of_left_ne_nil (List.cons_ne_nil _ _) _
  · exact decimal_ne_nil _

/-- A number that is not negative and fits is stored again. -/
theorem storedPort_numberText {n : ℤ} (h : 0 ≤ n) (hlt : n < 2 ^ 31) : storedPort (numberText n) = n := by
  have htext : numberText n = decimal n.natAbs := if_neg (not_lt.mpr h)
  have hvalue : decimalValue (numberText n) = n.natAbs := by
    rw [htext, decimalValue_decimal]
  rw [(storedPort_eq _).mpr (by rw [hvalue]; omega), hvalue]
  omega

variable {u}

/-- The path that is printed is a path behind an authority. -/
theorem Derived.getPath_mem (h : u.Derived) : u.getPath ∈ Rfc3986.pathAbempty := by
  unfold getPath
  split
  · refine Language.mem_kstar.mpr ⟨[asciiText ['/']], rfl, List.forall_mem_singleton.mpr ?_⟩
    exact (Rfc3986.mem_chr_mul (by decide)).mpr ⟨[], Language.nil_mem_kstar _, rfl⟩
  · exact h.path

/-- What is printed is derived exactly when the port is not negative. -/
theorem Derived.printed_derives (h : u.Derived) : u.printed.Derives UriGrammar.host.lang ↔ 0 ≤ u.port := by
  constructor
  · intro hderives
    have hport := (hderives.authority _ rfl).port
    by_cases hdefault : u.isDefaultPort = true
    · unfold isDefaultPort at hdefault
      split at hdefault
      · omega
      · split at hdefault
        · have := of_decide_eq_true hdefault
          omega
        · split at hdefault
          · have := of_decide_eq_true hdefault
            omega
          · cases hdefault
    · exact (numberText_mem_port _).mp (hport _ (if_neg hdefault))
  · intro hnonneg
    refine ⟨?_, ?_, h.getPath_mem, mem_of_mem_unlessEmpty h.query, mem_of_mem_unlessEmpty h.fragment⟩
    · rintro _ ⟨⟩
      exact h.scheme
    · rintro _ ⟨⟩
      refine ⟨mem_of_mem_unlessEmpty h.userinfo, h.host, fun v hv => ?_⟩
      dsimp only at hv
      split at hv
      · cases hv
      · obtain rfl := Option.some.inj hv
        exact (numberText_mem_port _).mpr hnonneg

/-- A number contains no delimiter. -/
theorem numberText_avoids (n : ℤ) : numberText n ∈ avoiding [47, 63, 35, 64] := by
  have hdecimal : ∀ k : ℕ, decimal k ∈ avoiding [47, 63, 35, 64] := by
    intro k
    have hmem : numberText k ∈ Rfc3986.port := (numberText_mem_port k).mpr (Int.natCast_nonneg k)
    rw [numberText, if_neg (not_lt.mpr (Int.natCast_nonneg k)), Int.natAbs_natCast] at hmem
    exact Rfc3986.port_le hmem
  unfold numberText
  split
  · exact append_mem_avoiding (List.forall_mem_singleton.mpr (by decide)) (hdecimal _)
  · exact hdecimal _

/-- What is printed has one reading. -/
theorem Derived.printed_splits (h : u.Derived) : u.printed.Splits := by
  refine ⟨?_, ?_, Rfc3986.pathAbempty_le h.getPath_mem, fun _ => Rfc3986.pathAbempty_le_startingIn h.getPath_mem,
    ?_, ?_, mem_of_mem_unlessEmpty (Rfc3986.query_le h.query)⟩
  · rintro _ ⟨⟩
    exact Rfc3986.scheme_le h.scheme
  · rintro _ ⟨⟩
    have huser : u.userinfo ∈ avoiding [47, 63, 35, 64] := avoiding_mono (by simp) (Rfc3986.userinfo_le h.userinfo)
    refine ⟨mem_of_mem_unlessEmpty huser, host_le_hostShape h.host, fun v hv => ?_⟩
    dsimp only at hv
    split at hv
    · cases hv
    · obtain rfl := Option.some.inj hv
      exact numberText_avoids _
  · rintro ⟨⟩
  · rintro ⟨⟩

/-- What is stored of what is printed. -/
theorem Derived.stored_printed (h : u.Derived) (hport : 0 ≤ u.port) : u.printed.stored =
    ⟨u.scheme, storedUserinfo u.userinfo, u.host, u.getPath, u.query, u.fragment,
        if u.isDefaultPort then 0 else u.port⟩ := by
  have hpart : ∀ part : Bytes, (unlessEmpty part).getD [] = part := by
    intro part
    refine Eq.trans ?_ (elim_unlessEmpty id part)
    cases unlessEmpty part <;> rfl
  have huser : (unlessEmpty u.userinfo).elim [] storedUserinfo = storedUserinfo u.userinfo :=
    elim_unlessEmpty storedUserinfo u.userinfo
  have hnumber : ((if u.isDefaultPort then none else some (numberText u.port)).elim 0 fun v =>
      if v = [] then (0 : ℤ) else storedPort v) = if u.isDefaultPort then 0 else u.port := by
    split
    · rfl
    · rw [Option.elim_some, if_neg (numberText_ne_nil _), storedPort_numberText hport h.port]
  simp only [Reference.stored, printed, Authority.store, fresh, hpart, huser, hnumber, Option.isSome_some, if_true,
    Option.getD_some]

/-- A default port is not printed, and it is what the getter returns for a port that is absent. -/
theorem getPort_printed (v : Uri) (hscheme : v.scheme = u.scheme)
    (hport : v.port = if u.isDefaultPort then 0 else u.port) :
    v.getPort = u.getPort := by
  by_cases hdefault : u.isDefaultPort = true
  · rw [if_pos hdefault] at hport
    unfold isDefaultPort at hdefault
    simp only [getPort, hscheme, hport]
    split at hdefault
    · rename_i hzero
      rw [hzero]
    · rename_i hzero
      split at hdefault
      · rename_i hhttp
        simp [hhttp, of_decide_eq_true hdefault]
      · rename_i hhttp
        split at hdefault
        · rename_i hhttps
          simp [hhttp, hhttps, of_decide_eq_true hdefault]
        · cases hdefault
  · rw [if_neg hdefault] at hport
    simp only [getPort, hscheme, hport]

/-- A URI is created again from its print exactly when its port is not negative and no digit stands behind the first
colon of its user information. -/
theorem Derived.create_toString (h : u.Derived) : (∃ v, create u.toString = .ok (some v) ∧ v.Alike u) ↔
    0 ≤ u.port ∧ digitBehindColon u.userinfo = false := by
  rw [toString_eq_text]
  constructor
  · rintro ⟨v, hv, halike⟩
    obtain ⟨r, hr, htext, _, rfl⟩ := create_eq_some.mp hv
    obtain rfl := (hr.splits host_le_hostShape).unique h.printed_splits htext
    have hport := h.printed_derives.mp hr
    have huser := halike.userinfo
    rw [h.stored_printed hport] at huser
    exact ⟨hport, (storedUserinfo_eq _).mp huser⟩
  · rintro ⟨hport, hdigit⟩
    have hempty : ¬ u.printed.EmptyPort := by
      rintro ⟨_, a, ha, hnil⟩
      obtain rfl := Option.some.inj ha
      dsimp only at hnil
      split at hnil
      · cases hnil
      · exact numberText_ne_nil _ (Option.some.inj hnil)
    refine ⟨_, create_eq_some.mpr ⟨_, h.printed_derives.mpr hport, rfl, hempty, rfl⟩, ?_⟩
    rw [h.stored_printed hport]
    refine ⟨rfl, (storedUserinfo_eq _).mpr hdigit, rfl, getPort_printed _ rfl rfl, ?_, rfl, rfl⟩
    unfold getPath
    dsimp only
    by_cases hpath : u.path = []
    · rw [if_pos hpath]
      rfl
    · rw [if_neg hpath, if_neg hpath]

/-- A stored port is not negative when the number of its digits, saturated and reduced, is not. -/
theorem storedPort_nonneg (digits : Bytes) :
    0 ≤ storedPort digits ↔ min (decimalValue digits) (2 ^ 63 - 1) % 2 ^ 32 < 2 ^ 31 := by
  rw [storedPort, toInt, Int.bmod_def]
  split <;> omega

/-- Nothing can be created from what is printed of a URI without a scheme. -/
theorem not_create_toString (hscheme : u.scheme = []) (v : Uri) : create u.toString ≠ .ok (some v) := by
  intro h
  obtain ⟨r, hr, htext, _⟩ := create_eq_some.mp h
  have hcolon : ∃ t, r.text = 58 :: t := by
    rw [htext, toString_eq_text]
    exact ⟨_, by simp only [Reference.text, printed, hscheme, before, Option.elim_some, List.nil_append]; rfl⟩
  obtain ⟨t, ht⟩ := hcolon
  have hsplits := hr.splits host_le_hostShape
  cases hs : r.scheme with
  | none => exact hsplits.text_ne hs (p := []) (fun c hc => absurd hc List.not_mem_nil) t ht
  | some s =>
    have hmem := hr.scheme s hs
    obtain ⟨x, ⟨c, hc, rfl⟩, y, _, rfl⟩ := Language.mem_mul.mp hmem
    rw [Reference.text, hs] at ht
    obtain ⟨rfl, _⟩ := List.cons_eq_cons.mp ht
    cases hc

/-- What is printed of an accepted string is accepted, and the getters return the same, exactly when the string has
a scheme, the user information does not have a digit behind its first colon and behind its second one, and the
number of the port does not become negative in an `int32_t`. -/
theorem create_toString_iff {s : Bytes} (h : create s = .ok (some u)) :
    (∃ v, create u.toString = .ok (some v) ∧ v.Alike u) ↔
      ∃ r : Reference, r.Splits ∧ r.text = s ∧ r.scheme.isSome ∧ ∀ a ∈ r.authority,
        (∀ user ∈ a.userinfo, digitBehindColon user = true → digitBehindColon (user.drop (behindColon user)) = false) ∧
        ∀ port ∈ a.port, min (decimalValue port) (2 ^ 63 - 1) % 2 ^ 32 < 2 ^ 31 := by
  obtain ⟨r, hr, rfl, hempty, rfl⟩ := create_eq_some.mp h
  have hsplits := hr.splits host_le_hostShape
  cases hs : r.scheme with
  | none =>
    have hscheme : r.stored.scheme = [] := by
      cases hauth : r.authority <;> simp [Reference.stored, hauth, hs, Authority.store]
    refine iff_of_false ?_ ?_
    · rintro ⟨v, hv, _⟩
      exact not_create_toString hscheme v hv
    · rintro ⟨r', hr', htext, hsome, _⟩
      rw [hr'.unique hsplits htext, hs] at hsome
      cases hsome
  | some sch =>
    have hsome : r.scheme.isSome := by
      rw [hs]
      rfl
    rw [(derived_stored hr hsome).create_toString]
    have hconditions : (0 ≤ r.stored.port ∧ digitBehindColon r.stored.userinfo = false) ↔ ∀ a ∈ r.authority,
        (∀ user ∈ a.userinfo, digitBehindColon user = true → digitBehindColon (user.drop (behindColon user)) = false) ∧
        ∀ port ∈ a.port, min (decimalValue port) (2 ^ 63 - 1) % 2 ^ 32 < 2 ^ 31 := by
      cases hauth : r.authority with
      | none =>
        rw [Reference.stored, hauth]
        exact iff_of_true ⟨le_rfl, rfl⟩ (by simp)
      | some a =>
        have hport : a.port ≠ some [] := fun hport => hempty ⟨hsome, a, hauth, hport⟩
        have hnumber : r.stored.port = a.port.elim 0 storedPort := by
          rw [Reference.stored, hauth]
          cases hv : a.port with
          | none => simp [Authority.store, hv, fresh]
          | some v =>
            have hne : v ≠ [] := by
              rintro rfl
              exact hport hv
            simp [Authority.store, hv, hne]
        have huser : r.stored.userinfo = a.userinfo.elim [] storedUserinfo := by
          rw [Reference.stored, hauth]
          rfl
        rw [hnumber, huser, and_comm]
        simp only [Option.mem_some_iff, forall_eq']
        refine and_congr ?_ ?_
        · cases a.userinfo with
          | none => simp [digitBehindColon]
          | some user =>
            simp only [Option.elim_some, Option.mem_some_iff, forall_eq', storedUserinfo]
            cases hdigit : digitBehindColon user <;> simp [hdigit]
        · cases a.port with
          | none => simp
          | some v => simp [storedPort_nonneg]
    rw [hconditions]
    constructor
    · exact fun hall => ⟨r, hsplits, rfl, hsome, hall⟩
    · rintro ⟨r', hr', htext, _, hall⟩
      rwa [hr'.unique hsplits htext] at hall

/-- `http://u:x@h:80/p?q#f`. -/
def fullReference : Reference where
  scheme := some (asciiText ['h', 't', 't', 'p'])
  authority := some ⟨some (asciiText ['u', ':', 'x']), asciiText ['h'], some (asciiText ['8', '0'])⟩
  path := asciiText ['/', 'p']
  query := some (asciiText ['q'])
  fragment := some (asciiText ['f'])

/-- Its components do not contain their delimiters. -/
theorem fullReference_splits : fullReference.Splits := by
  have hall {w : Bytes} {stops : List UInt8} (h : w.all (fun c => decide (c ∉ stops)) = true) : w ∈ avoiding stops :=
    fun c hc => of_decide_eq_true (List.all_eq_true.mp h c hc)
  refine ⟨?_, ?_, hall (by decide), ?_, nofun, nofun, ?_⟩
  · rintro s ⟨⟩
    exact hall (by decide)
  · rintro a ⟨⟩
    refine ⟨?_, ⟨hall (by decide), .inl (hall (by decide))⟩, ?_⟩
    · rintro u ⟨⟩
      exact hall (by decide)
    · rintro p ⟨⟩
      exact hall (by decide)
  · rintro - c ⟨⟩
    decide
  · rintro q ⟨⟩
    exact hall (by decide)

/-- It is printed and read again. -/
theorem create_toString_fullReference :
    ∃ u, create fullReference.text = .ok (some u) ∧ ∃ v, create u.toString = .ok (some v) ∧ v.Alike u := by
  have hcreate : create fullReference.text = .ok (some fullReference.stored) := by decide +kernel
  refine ⟨_, hcreate, (create_toString_iff hcreate).mpr ⟨fullReference, fullReference_splits, rfl, rfl, ?_⟩⟩
  rintro a ⟨⟩
  constructor
  · rintro user ⟨⟩
    decide
  · rintro port ⟨⟩
    decide

/-- From `/a` a URI without a scheme is created, which is printed as `:///`. -/
theorem not_create_toString_of_create : ¬ ∀ (s : Bytes) (u : Uri), create s = .ok (some u) →
    ∃ v, create u.toString = .ok (some v) ∧ v.Alike u := by
  intro h
  have hcreate : create (asciiText ['/', 'a']) = .ok (some fresh) := by
    decide +kernel
  obtain ⟨v, hv, _⟩ := h _ _ hcreate
  exact not_create_toString rfl v hv

end Uri

end Bobliew
