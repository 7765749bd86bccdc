import Bobliew.Uri.Components
import Bobliew.Uri.Uri

/-!
# The actions on a reference

Which actions the machine performs at which positions of a reference. The scheme, the path, the query and the
fragment are delimited, so their actions are those at their beginnings and ends. In an authority with user
information the machine also takes what it has read so far for a host and a port: at the first colon it
leaves that host, and behind it a digit enters that port.
-/

namespace Bobliew.UriGrammar

open Ragel Http UriAction

/-! ## The stamped machine -/

/-- The user information, stamped from `n` on. -/
def userinfoPart (n : ℕ) : Thread UriAction := .leave (n, saveUserinfo) (userinfo.stamp n).1

/-- A host, stamped from `n` on. -/
def hostPart (n : ℕ) : Thread UriAction := .leave (n + 1, saveHost) (.enter (n, markh) (host.stamp (n + 1)).1)

/-- A port, stamped from `n` on. -/
def portPart (n : ℕ) : Thread UriAction := .leave (n + 1, savePort) (.enter (n, markh) (port.stamp (n + 1)).1)

/-- A host and an optional port. -/
def hostPort (n : ℕ) : Thread UriAction :=
  .cat (hostPart n) (.alt (.cat (.byte (.range 58 58)) (portPart (n + 2))) .empty)

/-- An authority. -/
def authorityPart (n : ℕ) : Thread UriAction :=
  .enter (n, markh) (.cat (.alt (.cat (userinfoPart (n + 1)) (.byte (.range 64 64))) .empty) (hostPort (n + 2)))

/-- The bytes of a query or a fragment between the actions at their ends. -/
def queryPart (n : ℕ) (save : UriAction) : Thread UriAction :=
  .leave (n + 1, save) (.enter (n, marku) ((Rx.star queryChar).stamp (n + 1)).1)

/-- An optional query and an optional fragment. -/
def tailPart (n : ℕ) : Thread UriAction :=
  .cat (.alt (.cat (.byte (.range 63 63)) (queryPart n saveQuery)) .empty)
    (.alt (.cat (.byte (.range 35 35)) (queryPart (n + 2) saveFragment)) .empty)

/-- What comes behind the scheme, with the path behind an authority and the other paths. -/
def bodyPart (n : ℕ) (path paths : Thread UriAction) (m : ℕ) : Thread UriAction :=
  .cat (.alt (.cat (.byte (.range 47 47)) (.cat (.byte (.range 47 47)) (.cat (authorityPart n) path))) paths)
    (tailPart m)

/-- The scheme. -/
def schemePart : Thread UriAction :=
  .leave (1, saveScheme) (.enter (0, marku)
    (.cat (.byte alpha) (.star (.byte (.union alpha (.union digit (charSet ['+', '-', '.'])))))))

/-- The path behind an authority of a URI. -/
def pathPart : Thread UriAction := .leave (9, savePath) (.enter (8, markh) (pathAbempty.stamp 9).1)

/-- The paths without an authority. -/
def otherPaths (scheme : Bool) : Expr :=
  .alt pathAbsolute (.alt (if scheme then pathRootless else pathNoscheme) pathEmpty)

/-- A URI. -/
def uriPart : Thread UriAction :=
  .cat schemePart (.cat (.byte (.range 58 58)) (bodyPart 2 pathPart ((otherPaths true).stamp 10).1 10))

/-- A relative reference. -/
def relativeRefPart : Thread UriAction :=
  bodyPart 14 (pathAbempty.stamp 20).1 ((otherPaths false).stamp 20).1 20

/-- The parts without actions. -/
theorem plain_parts : userinfo.plain = true ∧ host.plain = true ∧ port.plain = true ∧
    (Rx.star queryChar : Expr).plain = true ∧ pathAbempty.plain = true ∧ ∀ scheme, (otherPaths scheme).plain = true :=
  ⟨rfl, rfl, rfl, rfl, rfl, fun scheme => by cases scheme <;> rfl⟩

/-- `authority` with its stamps. -/
theorem stamp_authority (n : ℕ) : authority.stamp n = (authorityPart n, n + 6) := by
  obtain ⟨huserinfo, hhost, hport, _⟩ := plain_parts
  simp only [authority, Rx.seq, Rx.opt, Rx.stamp, (Rx.plain_stamp huserinfo _).2.2, (Rx.plain_stamp hhost _).2.2,
    (Rx.plain_stamp hport _).2.2]
  rfl

/-- The optional query and fragment with their stamps. -/
theorem stamp_queryFragment (n : ℕ) : queryFragment.stamp n = (tailPart n, n + 4) := by
  obtain ⟨_, _, _, hquery, _⟩ := plain_parts
  simp only [queryFragment, query, fragment, Rx.opt, Rx.stamp_cat, Rx.stamp_alt, Rx.stamp_marked hquery]
  rfl

/-- The machine with its stamps. -/
theorem uriParserStart_eq : uriParserStart = .alt uriPart relativeRefPart := by
  obtain ⟨_, _, _, _, hpath, hothers⟩ := plain_parts
  have hscheme : scheme.stamp 0 = (schemePart, 2) := rfl
  have hhier : hierPart = .alt (.cat (.chr '/') (.cat (.chr '/') (.cat authority (.leave savePath (.enter markh pathAbempty)))))
      (otherPaths true) := rfl
  have hrelative : relativePart = .alt (.cat (.chr '/') (.cat (.chr '/') (.cat authority pathAbempty)))
      (otherPaths false) := rfl
  have hslash : ∀ n, (Rx.chr '/' : Expr).stamp n = (.byte (.range 47 47), n) := fun _ => rfl
  have hcolon : ∀ n, (Rx.chr ':' : Expr).stamp n = (.byte (.range 58 58), n) := fun _ => rfl
  simp only [uriParserStart, main, uriReference, uri, relativeRef, hhier, hrelative, Rx.seq, Rx.stamp_cat, Rx.stamp_alt, hscheme,
    hslash, hcolon, stamp_authority, stamp_queryFragment, Rx.stamp_marked hpath, (Rx.plain_stamp hpath _).2.2,
    (Rx.plain_stamp (hothers _) _).2.2]
  rfl

/-! ## The words of the parts -/

/-- User information. -/
theorem lang_userinfoPart (n : ℕ) : (userinfoPart n).lang = Rfc3986.userinfo :=
  (Rx.plain_stamp plain_parts.1 n).2.1.trans lang_userinfo

/-- A host. -/
theorem lang_hostPart (n : ℕ) : (hostPart n).lang = host.lang :=
  (Rx.plain_stamp plain_parts.2.1 (n + 1)).2.1

/-- A port. -/
theorem lang_portPart (n : ℕ) : (portPart n).lang = Rfc3986.port :=
  (Rx.plain_stamp plain_parts.2.2.1 (n + 1)).2.1

/-- A query or a fragment. -/
theorem lang_queryPart (n : ℕ) (save : UriAction) : (queryPart n save).lang = Rfc3986.query :=
  (Rx.plain_stamp plain_parts.2.2.2.1 (n + 1)).2.1.trans lang_query

/-- A host and an optional port. -/
theorem mem_hostPort {n : ℕ} {w : Bytes} : w ∈ (hostPort n).lang ↔
    ∃ h ∈ host.lang, ∃ part : Option Bytes, (∀ v ∈ part, v ∈ Rfc3986.port) ∧ w = h ++ behind 58 part := by
  have hlang : (hostPort n).lang = host.lang * Rfc3986.opt (Rfc3986.chr ':' * Rfc3986.port) := by
    rw [← lang_hostPart n, ← lang_portPart (n + 2)]
    rfl
  rw [hlang, Language.mem_mul]
  constructor
  · rintro ⟨h, hh, t, ht, rfl⟩
    obtain ⟨part, hpart, rfl⟩ := (Rfc3986.mem_opt_behind (by decide)).mp ht
    exact ⟨h, hh, part, hpart, rfl⟩
  · rintro ⟨h, hh, part, hpart, rfl⟩
    exact ⟨h, hh, _, (Rfc3986.mem_opt_behind (by decide)).mpr ⟨part, hpart, rfl⟩, rfl⟩

/-- A query and a fragment. -/
theorem lang_tailPart (n : ℕ) : (tailPart n).lang = Rfc3986.queryFragment := by
  have hnames : (tailPart n).lang = Rfc3986.opt (Rfc3986.chr '?' * (queryPart n saveQuery).lang) *
      Rfc3986.opt (Rfc3986.chr '#' * (queryPart (n + 2) saveFragment).lang) := rfl
  rw [hnames, lang_queryPart, lang_queryPart]
  rfl

/-- An authority. -/
theorem lang_authorityPart (n : ℕ) : (authorityPart n).lang = Rfc3986.authority host.lang := by
  have hnames : (authorityPart n).lang = Rfc3986.opt ((userinfoPart (n + 1)).lang * Rfc3986.chr '@') *
      ((hostPart (n + 2)).lang * Rfc3986.opt (Rfc3986.chr ':' * (portPart (n + 4)).lang)) := rfl
  rw [hnames, lang_userinfoPart, lang_hostPart, lang_portPart]
  rfl

/-- The hosts of the machine end at a colon outside brackets. -/
theorem host_le_hostShape : host.lang ≤ hostShape := by
  have havoids : ∀ {r : Expr} {stops : List UInt8}, stops.all (fun c => r.avoids c) = true →
      r.lang ≤ avoiding stops := by
    intro r stops h w hw c hc hmem
    exact Rx.not_mem_of_avoids (List.all_eq_true.mp h c hmem) hw hc
  have hshape : ∀ {r : Expr}, [47, 63, 35, 64, 58, 91].all (fun c => r.avoids c) = true → r.lang ≤ hostShape := by
    intro r h w hw
    exact ⟨(avoiding_mono (by simp)) (havoids h hw), .inl ((avoiding_mono (by simp)) (havoids h hw))⟩
  rintro w (hw | hw | hw)
  · obtain ⟨x, hx, y, hy, rfl⟩ := Language.mem_mul.mp hw
    obtain rfl := (Rx.mem_lang_chr (by decide)).mp hx
    obtain ⟨l, hl, z, hz, rfl⟩ := Language.mem_mul.mp hy
    obtain rfl := (Rx.mem_lang_chr (by decide)).mp hz
    have hbracketed : (Rx.alt ipv6Address ipvFuture).lang ≤ avoiding [93] := havoids rfl
    have hdelims : (Rx.alt ipv6Address ipvFuture).lang ≤ avoiding [47, 63, 35, 64] := havoids rfl
    refine ⟨?_, .inr ⟨l, hbracketed hl, rfl⟩⟩
    exact append_mem_avoiding (List.forall_mem_singleton.mpr (by decide))
      (append_mem_avoiding (hdelims hl) (List.forall_mem_singleton.mpr (by decide)))
  · exact hshape rfl hw
  · exact hshape rfl hw

/-! ## The actions of the parts -/

/-- Of an optional component behind its delimiter. -/
theorem acts_behind {c : UInt8} {r : Thread UriAction} (hr : r.plain = true) {a b x : ℕ × UriAction}
    {part : Option Bytes}
    (hpart : ∀ v ∈ part, v ∈ r.lang) {p : ℕ} :
    (Rx.alt (.cat (.byte (.range c.toNat c.toNat)) (.leave b (.enter a r))) .empty).Acts (behind c part) p x ↔
      ∃ v ∈ part, p = 1 ∧ x = a ∨ p = v.length + 1 ∧ x = b := by
  rw [Rx.acts_alt, or_iff_left (Rx.not_acts_of_plain rfl)]
  cases part with
  | none => exact iff_of_false Rx.not_acts_byte_cat_nil (by simp)
  | some v =>
    rw [behind, Option.elim_some, Rx.acts_byte_cat (s := Rx.leave b (.enter a r)) (hpart v rfl)]
    simp only [Rx.acts_marked hr (hpart v rfl), Option.mem_some_iff, exists_eq_left']
    constructor
    · rintro ⟨q, rfl, ⟨rfl, hx⟩ | ⟨rfl, hx⟩⟩
      · exact .inl ⟨rfl, hx⟩
      · exact .inr ⟨rfl, hx⟩
    · rintro (⟨rfl, hx⟩ | ⟨rfl, hx⟩)
      · exact ⟨0, rfl, .inl ⟨rfl, hx⟩⟩
      · exact ⟨_, rfl, .inr ⟨rfl, hx⟩⟩

/-- Of a host and a port. -/
theorem acts_hostPort {n p : ℕ} {x : ℕ × UriAction} {h : Bytes} {part : Option Bytes} (hh : h ∈ host.lang)
    (hpart : ∀ v ∈ part, v ∈ Rfc3986.port) : (hostPort n).Acts (h ++ behind 58 part) p x ↔
      (p = 0 ∧ x = (n, markh)) ∨ (p = h.length ∧ x = (n + 1, saveHost)) ∨
        ∃ v ∈ part, p = h.length + 1 ∧ x = (n + 2, markh) ∨ p = h.length + 1 + v.length ∧ x = (n + 3, savePort) := by
  obtain ⟨_, hhost, hport, _⟩ := plain_parts
  have hports : ∀ v ∈ part, v ∈ (port.stamp (n + 3)).1.lang := fun v hv => by
    rw [(Rx.plain_stamp hport _).2.1]
    exact hpart v hv
  have hword : behind 58 part ∈ (Rx.alt (.cat (.byte (.range 58 58)) (portPart (n + 2))) .empty).lang := by
    have hopt := (Rfc3986.mem_opt_behind (c := ':') (by decide)).mpr ⟨part, hpart, rfl⟩
    rw [← lang_portPart (n + 2)] at hopt
    exact hopt
  have hdelim : Delimited (hostPart n).lang (Rx.alt (.cat (.byte (.range 58 58)) (portPart (n + 2))) .empty).lang := by
    refine delimited_hostShape.mono (by rw [lang_hostPart]; exact host_le_hostShape) fun w hw => ?_
    have hopt : w ∈ Rfc3986.opt (Rfc3986.chr ':' * (portPart (n + 2)).lang) := hw
    obtain ⟨part', _, rfl⟩ := (Rfc3986.mem_opt_behind (by decide)).mp hopt
    exact behind_mem 58 part'
  rw [hostPort, Rx.acts_cat hdelim (by rw [lang_hostPart]; exact hh) hword, hostPart,
    Rx.acts_marked (Rx.plain_stamp hhost _).1 (by rw [(Rx.plain_stamp hhost _).2.1]; exact hh)]
  have hbehind : ∀ q, (Rx.alt (.cat (.byte (.range 58 58)) (portPart (n + 2))) .empty).Acts (behind 58 part) q x ↔
      ∃ v ∈ part, q = 1 ∧ x = (n + 2, markh) ∨ q = v.length + 1 ∧ x = (n + 3, savePort) :=
    fun q => acts_behind (c := 58) (Rx.plain_stamp hport _).1 hports
  simp only [hbehind]
  constructor
  · rintro ((hx | hx) | ⟨q, rfl, v, hv, ⟨rfl, hx⟩ | ⟨rfl, hx⟩⟩)
    · exact .inl hx
    · exact .inr (.inl hx)
    · exact .inr (.inr ⟨v, hv, .inl ⟨rfl, hx⟩⟩)
    · exact .inr (.inr ⟨v, hv, .inr ⟨by omega, hx⟩⟩)
  · rintro (hx | hx | ⟨v, hv, ⟨rfl, hx⟩ | ⟨rfl, hx⟩⟩)
    · exact .inl (.inl hx)
    · exact .inl (.inr hx)
    · exact .inr ⟨1, rfl, v, hv, .inl ⟨rfl, hx⟩⟩
    · exact .inr ⟨v.length + 1, by omega, v, hv, .inr ⟨rfl, hx⟩⟩

/-- Of a query and a fragment. -/
theorem acts_tailPart {n p : ℕ} {x : ℕ × UriAction} {q f : Option Bytes} (hq : ∀ v ∈ q, v ∈ Rfc3986.query)
    (hf : ∀ v ∈ f, v ∈ Rfc3986.query) : (tailPart n).Acts (behind 63 q ++ behind 35 f) p x ↔
      (∃ v ∈ q, p = 1 ∧ x = (n, marku) ∨ p = v.length + 1 ∧ x = (n + 1, saveQuery)) ∨
        ∃ v ∈ f, p = (behind 63 q).length + 1 ∧ x = (n + 2, marku) ∨
          p = (behind 63 q).length + (v.length + 1) ∧ x = (n + 3, saveFragment) := by
  have hquery : (Rx.star queryChar : Expr).plain = true := plain_parts.2.2.2.1
  have hwords : ∀ {part : Option Bytes} (m : ℕ), (∀ v ∈ part, v ∈ Rfc3986.query) →
      ∀ v ∈ part, v ∈ ((Rx.star queryChar : Expr).stamp m).1.lang := fun m hpart v hv => by
    rw [(Rx.plain_stamp hquery m).2.1, lang_query]
    exact hpart v hv
  have hlang : ∀ {c : Char} {m : ℕ} {save : UriAction}, c.toNat < 256 →
      ∀ w, w ∈ Rfc3986.opt (Rfc3986.chr c * (queryPart m save).lang) ↔
        ∃ part : Option Bytes, (∀ v ∈ part, v ∈ Rfc3986.query) ∧ w = behind (UInt8.ofNat c.toNat) part := by
    intro c m save hc w
    rw [lang_queryPart]
    exact Rfc3986.mem_opt_behind hc
  have hdelim : Delimited (Rx.alt (.cat (.byte (.range 63 63)) (queryPart n saveQuery)) .empty).lang
      (Rx.alt (.cat (.byte (.range 35 35)) (queryPart (n + 2) saveFragment)) .empty).lang := by
    refine (delimited_avoiding [35]).mono (fun w hw => ?_) fun w hw => ?_
    · obtain ⟨part, hpart, rfl⟩ := (hlang (c := '?') (by decide) w).mp hw
      exact behind_mem_avoiding (by decide) fun v hv => Rfc3986.query_le (hpart v hv)
    · obtain ⟨part, _, rfl⟩ := (hlang (c := '#') (by decide) w).mp hw
      exact behind_mem 35 part
  have hq' : behind 63 q ∈ (Rx.alt (.cat (.byte (.range 63 63)) (queryPart n saveQuery)) .empty).lang :=
    (hlang (c := '?') (by decide) _).mpr ⟨q, hq, rfl⟩
  have hf' : behind 35 f ∈ (Rx.alt (.cat (.byte (.range 35 35)) (queryPart (n + 2) saveFragment)) .empty).lang :=
    (hlang (c := '#') (by decide) _).mpr ⟨f, hf, rfl⟩
  have hquestion : ∀ p, (Rx.alt (.cat (.byte (.range 63 63)) (queryPart n saveQuery)) .empty).Acts (behind 63 q) p x ↔
      ∃ v ∈ q, p = 1 ∧ x = (n, marku) ∨ p = v.length + 1 ∧ x = (n + 1, saveQuery) :=
    fun p => acts_behind (c := 63) (Rx.plain_stamp hquery _).1 (hwords _ hq)
  have hnumber : ∀ p,
      (Rx.alt (.cat (.byte (.range 35 35)) (queryPart (n + 2) saveFragment)) .empty).Acts (behind 35 f) p x ↔
      ∃ v ∈ f, p = 1 ∧ x = (n + 2, marku) ∨ p = v.length + 1 ∧ x = (n + 3, saveFragment) :=
    fun p => acts_behind (c := 35) (Rx.plain_stamp hquery _).1 (hwords _ hf)
  rw [tailPart, Rx.acts_cat hdelim hq' hf', hquestion]
  simp only [hnumber]
  refine or_congr_right ?_
  constructor
  · rintro ⟨i, rfl, v, hv, ⟨rfl, hx⟩ | ⟨rfl, hx⟩⟩
    · exact ⟨v, hv, .inl ⟨rfl, hx⟩⟩
    · exact ⟨v, hv, .inr ⟨rfl, hx⟩⟩
  · rintro ⟨v, hv, ⟨rfl, hx⟩ | ⟨rfl, hx⟩⟩
    · exact ⟨1, rfl, v, hv, .inl ⟨rfl, hx⟩⟩
    · exact ⟨v.length + 1, rfl, v, hv, .inr ⟨rfl, hx⟩⟩

/-- Of an authority without user information. -/
theorem acts_authorityPart_none {n p : ℕ} {x : ℕ × UriAction} {a : Authority} (ha : a.Derives host.lang)
    (hnone : a.userinfo = none) : (authorityPart n).Acts a.text p x ↔
      (hostPort (n + 2)).Acts (a.host ++ behind 58 a.port) p x ∨ p = 0 ∧ x = (n, markh) := by
  have htext : a.text = a.host ++ behind 58 a.port := by
    rw [Authority.text, hnone]
    rfl
  -- A thread that waits for the `@` performs nothing before it.
  have hat : ¬ (Rx.cat (.cat (userinfoPart (n + 1)) (.byte (.range 64 64))) (hostPort (n + 2))).Acts
      (a.host ++ behind 58 a.port) p x := by
    rw [Rx.acts_cat_assoc]
    rintro ⟨hp, w, hpre, hend, hperf⟩
    obtain ⟨u, _, v, hv, rfl, hlen⟩ := Rx.exists_of_performs_leave (Rx.plain_stamp plain_parts.1 (n + 1)).1 hperf
    obtain ⟨t, _, rfl⟩ := (Rfc3986.mem_chr_mul (c := '@') (by decide)).mp hv
    have hat : u ++ [64] <+: a.host ++ behind 58 a.port :=
      Rx.prefix_of_acts hp hpre hend ⟨t, by simp⟩ (by simpa using hlen)
    exact (ha.splits host_le_hostShape).hostPort_avoids 64 (hat.subset (by simp)) (by decide)
  have hmem : a.host ++ behind 58 a.port ∈ (Rx.cat (.alt (.cat (userinfoPart (n + 1)) (.byte (.range 64 64))) .empty)
      (hostPort (n + 2))).lang := by
    have hauth : a.text ∈ (authorityPart n).lang := by
      rw [lang_authorityPart]
      exact Rfc3986.mem_authority.mpr ⟨a, ha, rfl⟩
    rwa [htext] at hauth
  rw [htext, authorityPart, Rx.acts_enter hmem, Rx.acts_cat_opt, or_iff_right hat]

/-- Of an authority with user information. The host and the port that the machine takes it for have their actions
as well. -/
theorem acts_authorityPart_some {n p : ℕ} {x : ℕ × UriAction} {a : Authority} {u : Bytes} (ha : a.Derives host.lang)
    (hu : a.userinfo = some u) : (authorityPart n).Acts a.text p x ↔
      (p = 0 ∧ x = (n, markh)) ∨ (p = u.length ∧ x = (n + 1, saveUserinfo)) ∨
        (∃ q, p = u.length + 1 + q ∧ (hostPort (n + 2)).Acts (a.host ++ behind 58 a.port) q x) ∨
          (hostPort (n + 2)).Acts (u ++ 64 :: (a.host ++ behind 58 a.port)) p x := by
  have htext : a.text = u ++ 64 :: (a.host ++ behind 58 a.port) := by
    rw [Authority.text, hu]
    simp [before]
  have huser : u ∈ ((userinfo.stamp (n + 1)).1 : Thread UriAction).lang := by
    rw [(Rx.plain_stamp plain_parts.1 (n + 1)).2.1, lang_userinfo]
    exact ha.userinfo u hu
  have hhostPort : a.host ++ behind 58 a.port ∈ (hostPort (n + 2)).lang :=
    mem_hostPort.mpr ⟨a.host, ha.host, a.port, ha.port, rfl⟩
  have hrest : 64 :: (a.host ++ behind 58 a.port) ∈ (Rx.cat (.byte (.range 64 64)) (hostPort (n + 2))).lang :=
    (Rfc3986.mem_chr_mul (c := '@') (by decide)).mpr ⟨_, hhostPort, rfl⟩
  have hmem : u ++ 64 :: (a.host ++ behind 58 a.port) ∈
      (Rx.cat (.alt (.cat (userinfoPart (n + 1)) (.byte (.range 64 64))) .empty) (hostPort (n + 2))).lang := by
    have hauth : a.text ∈ (authorityPart n).lang := by
      rw [lang_authorityPart]
      exact Rfc3986.mem_authority.mpr ⟨a, ha, rfl⟩
    rwa [htext] at hauth
  have hdelim : Delimited (userinfoPart (n + 1)).lang (Rx.cat (.byte (.range 64 64)) (hostPort (n + 2))).lang := by
    refine (delimited_avoiding [64]).mono ?_ fun w hw => ?_
    · rw [lang_userinfoPart]
      exact Rfc3986.userinfo_le.trans (avoiding_mono (by simp))
    · obtain ⟨t, _, rfl⟩ := (Rfc3986.mem_chr_mul (c := '@') (by decide)).mp hw
      exact cons_mem_startingIn (by simp) t
  have hown : (Rx.cat (.cat (userinfoPart (n + 1)) (.byte (.range 64 64))) (hostPort (n + 2))).Acts
      (u ++ 64 :: (a.host ++ behind 58 a.port)) p x ↔ (p = u.length ∧ x = (n + 1, saveUserinfo)) ∨
        ∃ q, p = u.length + 1 + q ∧ (hostPort (n + 2)).Acts (a.host ++ behind 58 a.port) q x := by
    have hbyte : ∀ q, (Rx.cat (.byte (.range 64 64)) (hostPort (n + 2))).Acts (64 :: (a.host ++ behind 58 a.port)) q x ↔
        ∃ q', q = q' + 1 ∧ (hostPort (n + 2)).Acts (a.host ++ behind 58 a.port) q' x :=
      fun q => Rx.acts_byte_cat (c := 64) hhostPort
    rw [Rx.acts_cat_assoc, Rx.acts_cat hdelim huser hrest, userinfoPart, Rx.acts_leave huser,
      or_iff_right (Rx.not_acts_of_plain (Rx.plain_stamp plain_parts.1 (n + 1)).1)]
    simp only [hbyte]
    refine or_congr_right ?_
    constructor
    · rintro ⟨_, rfl, q, rfl, h⟩
      exact ⟨q, by omega, h⟩
    · rintro ⟨q, rfl, h⟩
      exact ⟨q + 1, by omega, q, rfl, h⟩
  rw [htext, authorityPart, Rx.acts_enter hmem, Rx.acts_cat_opt, hown, or_comm, or_assoc]

/-! ## User information that looks like a host and a port -/

/-- The first colon is followed by a digit. -/
def digitBehindColon (u : Bytes) : Bool :=
  match u.dropWhile (· != 58) with
  | _ :: d :: _ => digit.has d
  | _ => false

/-- The position behind the first colon. -/
def behindColon (u : Bytes) : ℕ := (u.takeWhile (· != 58)).length + 1

/-- The parts of a text around its first colon. -/
theorem colon_split (h : Bytes) (hh : h ∈ avoiding [58]) (t : Bytes) :
    (h ++ 58 :: t).takeWhile (· != 58) = h ∧ (h ++ 58 :: t).dropWhile (· != 58) = 58 :: t := by
  have hne : ∀ c ∈ h, (c != 58) = true := fun c hc => by
    have hc58 := hh c hc
    simpa using hc58
  constructor
  · rw [List.takeWhile_append_of_pos hne]
    simp
  · rw [List.dropWhile_append_of_pos hne]
    simp

/-- The first colon is followed by a digit when a text without a colon, a colon and a digit begin the text. -/
theorem digitBehindColon_iff {u : Bytes} : digitBehindColon u = true ↔
    ∃ h ∈ avoiding [58], ∃ d t, u = h ++ 58 :: d :: t ∧ digit.has d = true ∧ behindColon u = h.length + 1 := by
  constructor
  · intro hdigit
    have hsplit : u = u.takeWhile (· != 58) ++ u.dropWhile (· != 58) := List.takeWhile_append_dropWhile.symm
    have hfirst : u.takeWhile (· != 58) ∈ avoiding [58] := by
      intro c hc
      have hne := List.mem_takeWhile_imp hc
      simpa using hne
    unfold digitBehindColon at hdigit
    split at hdigit
    · rename_i c d t heq
      have hc : (c != 58) = false := by
        have hhead := List.head?_dropWhile_not (· != 58) u
        rw [heq] at hhead
        simpa using hhead
      obtain rfl : c = 58 := by simpa using hc
      exact ⟨_, hfirst, d, t, heq ▸ hsplit, hdigit, rfl⟩
    · cases hdigit
  · rintro ⟨h, hh, d, t, rfl, hd, _⟩
    rw [digitBehindColon, (colon_split h hh _).2]
    exact hd

/-- User information around its first colon: a name, and user information. -/
theorem userinfo_split {h t : Bytes} (hh : h ∈ avoiding [58]) (hu : h ++ 58 :: t ∈ Rfc3986.userinfo) :
    h ∈ Rfc3986.regName ∧ t ∈ Rfc3986.userinfo := by
  obtain ⟨ws, hws, hmem⟩ := Language.mem_kstar.mp hu
  clear hu
  induction ws generalizing h with
  | nil => simp at hws
  | cons x ws ih =>
    have hrest : ∀ y ∈ ws, y ∈ _ := fun y hy => hmem y (List.mem_cons_of_mem x hy)
    rw [List.flatten_cons] at hws
    rcases hmem x List.mem_cons_self with hx | hx
    · have hnocolon : x ∈ avoiding [58] := by
        have hle : Rfc3986.bytes unreserved + Rfc3986.pctEncoded + Rfc3986.bytes subDelims ≤ avoiding [58] :=
          sup_le (sup_le (Rfc3986.bytes_le_avoiding rfl) (Rfc3986.pctEncoded_le.trans (avoiding_mono (by simp))))
            (Rfc3986.bytes_le_avoiding rfl)
        exact hle hx
      have hpre : ∃ s, h = x ++ s ∧ s ++ 58 :: t = ws.flatten := by
        rcases List.append_eq_append_iff.mp hws with ⟨s, rfl, hs⟩ | ⟨s, rfl, hs⟩
        · cases s with
          | nil => exact ⟨[], by simp, hs⟩
          | cons c s =>
            obtain ⟨rfl, _⟩ := List.cons_eq_cons.mp hs
            exact absurd (List.mem_singleton_self _) (hnocolon 58 (by simp))
        · exact ⟨s, rfl, hs.symm⟩
      obtain ⟨s, rfl, hs⟩ := hpre
      obtain ⟨hname, ht⟩ := ih (fun c hc => hh c (List.mem_append_right x hc)) hs hrest
      obtain ⟨ws', rfl, hws'⟩ := Language.mem_kstar.mp hname
      exact ⟨Language.mem_kstar.mpr ⟨x :: ws', rfl, List.forall_mem_cons.mpr ⟨hx, hws'⟩⟩, ht⟩
    · obtain rfl := (Rfc3986.mem_chr (c := ':') (by decide)).mp hx
      cases h with
      | nil =>
        obtain ⟨_, ht⟩ := List.cons_eq_cons.mp hws
        exact ⟨Language.nil_mem_kstar _, Language.mem_kstar.mpr ⟨ws, ht, hrest⟩⟩
      | cons c h =>
        obtain ⟨rfl, _⟩ := List.cons_eq_cons.mp hws
        exact absurd (List.mem_singleton_self _) (hh _ List.mem_cons_self)

/-- What is performed while user information is taken for a host and a port. -/
theorem acts_taken {n p : ℕ} {x : ℕ × UriAction} {u t : Bytes} (hu : u ∈ Rfc3986.userinfo)
    (h : (hostPort n).Acts (u ++ 64 :: t) p x) : p < u.length ∧
      (p = 0 ∧ x = (n, markh) ∨ x = (n + 1, saveHost) ∨
        digitBehindColon u = true ∧ p = behindColon u ∧ x = (n + 2, markh)) := by
  obtain ⟨hp, w, hpre, hend, hperf⟩ := h
  obtain ⟨host, hhost, part, hpart, rfl⟩ := mem_hostPort.mp hperf.mem_lang.1
  have hshape := host_le_hostShape hhost
  have hlt : p < u.length := by
    by_contra hle
    have hat : u ++ [64] <+: host ++ behind 58 part := by
      have hbegin : u ++ [64] <+: u ++ 64 :: t := ⟨t, by simp⟩
      refine (List.prefix_of_prefix_length_le hbegin (List.take_prefix (p + 1) _) ?_).trans hpre
      rw [List.length_take, List.length_append, List.length_append, List.length_singleton, List.length_cons]
      omega
    have hno : host ++ behind 58 part ∈ avoiding [47, 63, 35, 64] :=
      append_mem_avoiding hshape.1 (behind_mem_avoiding (by decide) fun v hv => Rfc3986.port_le (hpart v hv))
    exact hno 64 (hat.subset (by simp)) (by decide)
  refine ⟨hlt, ?_⟩
  rw [List.take_append_of_le_length hlt] at hpre
  have hlen : (u.take (p + 1)).length = p + 1 := by
    rw [List.length_take]
    omega
  rcases (acts_hostPort hhost hpart).mp (Rx.acts_of_performs hperf) with hx | hx | ⟨v, rfl, ⟨rfl, hx⟩ | ⟨rfl, hx⟩⟩
  · exact .inl hx
  · exact .inr (.inl hx.2)
  · -- The host, the colon and a digit of the port begin the user information.
    obtain ⟨z, hz, hzpre⟩ : ∃ z, u.take (host.length + 1 + 1) = host ++ z ∧ z <+: behind 58 (some v) := by
      rcases prefix_append_cases hpre with hle | hz
      · have hle' := hle.length_le
        rw [hlen] at hle'
        omega
      · exact hz
    rw [hz, List.length_append] at hlen
    obtain ⟨c, z, rfl⟩ := List.exists_cons_of_length_pos (l := z) (by omega)
    obtain ⟨d, z, rfl⟩ := List.exists_cons_of_length_pos (l := z) (by rw [List.length_cons] at hlen; omega)
    obtain ⟨rfl, hv⟩ := List.cons_prefix_cons.mp hzpre
    have hd : digit.has d = true := by
      obtain ⟨ws, rfl, hws⟩ := Language.mem_kstar.mp (hpart v rfl)
      obtain ⟨y, hy, hdy⟩ := List.mem_flatten.mp (hv.subset List.mem_cons_self)
      obtain ⟨e, he, rfl⟩ := hws y hy
      rwa [List.mem_singleton.mp hdy]
    have hsplit : u = host ++ 58 :: d :: (z ++ u.drop (host.length + 1 + 1)) := by
      have htake := List.take_append_drop (host.length + 1 + 1) u
      rw [hz] at htake
      simpa using htake.symm
    have hcolon : host ∈ avoiding [58] := by
      rcases hshape.2 with hno | ⟨l, _, rfl⟩
      · exact avoiding_mono (by simp) hno
      · exact absurd (Rfc3986.userinfo_le hu 91 (by rw [hsplit]; simp)) (by decide)
    refine .inr (.inr ⟨digitBehindColon_iff.mpr ⟨host, hcolon, d, _, hsplit, hd, ?_⟩, ?_, hx⟩)
    · rw [behindColon, hsplit, (colon_split host hcolon _).1]
    · rw [behindColon, hsplit, (colon_split host hcolon _).1]
  · have hle := hpre.length_le
    simp only [hlen, List.length_append, behind, Option.elim_some, List.length_cons] at hle
    omega

/-- A digit behind the first colon enters a port. -/
theorem acts_taken_digit {n : ℕ} {u t : Bytes} (hu : u ∈ Rfc3986.userinfo) (hdigit : digitBehindColon u = true) :
    (hostPort n).Acts (u ++ 64 :: t) (behindColon u) (n + 2, markh) := by
  obtain ⟨h, hh, d, t', rfl, hd, hlen⟩ := digitBehindColon_iff.mp hdigit
  have hhost : h ∈ host.lang := by
    have hname : h ∈ regName.lang := by
      rw [lang_regName]
      exact (userinfo_split hh hu).1
    exact .inr (.inr hname)
  have hport : [d] ∈ ((port.stamp (n + 3)).1 : Thread UriAction).lang := by
    rw [(Rx.plain_stamp plain_parts.2.2.1 _).2.1]
    exact Rx.mem_lang_star.mpr ⟨[[d]], rfl, List.forall_mem_singleton.mpr ⟨d, hd, rfl⟩⟩
  rw [hlen]
  refine ⟨?_, h ++ [58, d], ?_, ?_, h, [58, d], rfl, .inr ⟨by rw [lang_hostPart]; exact hhost, 1, rfl, .inl ?_⟩⟩
  · simp
  · rw [List.append_assoc, Nat.add_assoc, List.take_length_add_append]
    simp
  · intro heq
    simp at heq
  · exact ⟨[58], [d], rfl, .inr ⟨⟨58, rfl, rfl⟩, 0, rfl, .inl (.inr ⟨hport, rfl, rfl⟩)⟩⟩

/-! ## References -/

/-- The paths behind the scheme. -/
theorem lang_otherPaths (scheme : Bool) (n : ℕ) :
    ((otherPaths scheme).stamp n).1.plain = true ∧
        ((otherPaths scheme).stamp n).1.lang = Rfc3986.path scheme false := by
  obtain ⟨_, _, _, _, _, hothers⟩ := plain_parts
  refine ⟨(Rx.plain_stamp (hothers scheme) n).1, ?_⟩
  rw [(Rx.plain_stamp (hothers scheme) n).2.1]
  have hlang : (otherPaths scheme).lang =
      pathAbsolute.lang + ((if scheme then pathRootless else pathNoscheme : Expr).lang + 1) := rfl
  cases scheme with
  | true =>
    rw [hlang, lang_pathAbsolute, if_pos rfl, lang_pathRootless, ← add_assoc]
    rfl
  | false =>
    rw [hlang, lang_pathAbsolute, if_neg Bool.false_ne_true, lang_pathNoscheme, ← add_assoc]
    rfl

/-- The path behind an authority. -/
theorem lang_pathPart : pathPart.lang = Rfc3986.pathAbempty :=
  (Rx.plain_stamp plain_parts.2.2.2.2.1 9).2.1.trans lang_pathAbempty

section Body

variable {n m : ℕ} {path paths : Thread UriAction} {scheme : Bool}

/-- The two slashes, the authority and its path. -/
def slashesPart (n : ℕ) (path : Thread UriAction) : Thread UriAction :=
  .cat (.byte (.range 47 47)) (.cat (.byte (.range 47 47)) (.cat (authorityPart n) path))

/-- The texts between the scheme and the query. -/
theorem mem_slashesPart_alt (hpath : path.lang = Rfc3986.pathAbempty) (hpaths : paths.lang = Rfc3986.path scheme false)
    {w : Bytes} : w ∈ (Rx.alt (slashesPart n path) paths).lang ↔
      ∃ (a : Option Authority) (p : Bytes), (∀ x ∈ a, x.Derives host.lang) ∧ p ∈ Rfc3986.path scheme a.isSome ∧
        w = authorityText a ++ p := by
  have hnames : (Rx.alt (slashesPart n path) paths).lang =
    Rfc3986.chr '/' * (Rfc3986.chr '/' * ((authorityPart n).lang * path.lang)) + paths.lang := rfl
  rw [hnames, lang_authorityPart, hpath]
  exact Rfc3986.mem_part hpaths.symm

/-- The query and the fragment of a reference. -/
theorem mem_tailPart {r : Reference} (hr : r.Derives host.lang) : r.tail ∈ (tailPart m).lang := by
  rw [lang_tailPart]
  exact Rfc3986.mem_queryFragment.mpr ⟨r.query, r.fragment, hr.query, hr.fragment, rfl⟩

/-- The texts behind the scheme. -/
theorem mem_bodyPart (hpath : path.lang = Rfc3986.pathAbempty) (hpaths : paths.lang = Rfc3986.path scheme false)
    {r : Reference} (hr : r.Derives host.lang) (hscheme : r.scheme.isSome = scheme) :
    authorityText r.authority ++ (r.path ++ r.tail) ∈ (bodyPart n path paths m).lang := by
  have hnames : (bodyPart n path paths m).lang =
    (Rx.alt (slashesPart n path) paths).lang * (tailPart m).lang := rfl
  rw [hnames, ← List.append_assoc]
  exact Language.mem_mul.mpr ⟨_,
    (mem_slashesPart_alt hpath hpaths).mpr ⟨r.authority, r.path, hr.authority, hscheme ▸ hr.path, rfl⟩,
    r.tail, mem_tailPart hr, rfl⟩

/-- A query or a fragment begins with a byte that does not stand in front of it. -/
theorem delimited_tailPart (hpath : path.lang = Rfc3986.pathAbempty) (hpaths : paths.lang = Rfc3986.path scheme false) :
    Delimited (Rx.alt (slashesPart n path) paths).lang (tailPart m).lang := by
  refine (delimited_avoiding [63, 35]).mono (fun w hw => ?_) fun w hw => ?_
  · obtain ⟨a, p, ha, hp, rfl⟩ := (mem_slashesPart_alt hpath hpaths).mp hw
    refine append_mem_avoiding ?_ (Rfc3986.path_le _ _ hp)
    cases a with
    | none => exact fun c hc => absurd hc List.not_mem_nil
    | some a =>
      have htext := ((ha a rfl).splits host_le_hostShape).text_avoids
      refine append_mem_avoiding (u := [47, 47]) ?_ ((avoiding_mono (by simp)) htext)
      exact List.forall_mem_cons.mpr ⟨by decide, List.forall_mem_singleton.mpr (by decide)⟩
  · rw [lang_tailPart] at hw
    obtain ⟨q, f, _, _, rfl⟩ := Rfc3986.mem_queryFragment.mp hw
    exact Reference.tail_mem ⟨none, none, [], q, f⟩

/-- A path without an authority does not begin with two slashes. -/
theorem not_acts_slashesPart {r : Reference} (hr : r.Derives host.lang) (hauth : r.authority = none) {p : ℕ}
    {x : ℕ × UriAction} : ¬(slashesPart n path).Acts (authorityText none ++ r.path) p x := by
  rintro ⟨hp, w, hpre, hend, hperf⟩
  obtain ⟨u, v, rfl, ⟨hu, _⟩ | ⟨⟨c, hc, rfl⟩, q, rfl, hv⟩⟩ := hperf
  · cases hu
  · obtain ⟨u', v', rfl, ⟨hu', _⟩ | ⟨⟨d, hd, rfl⟩, i, rfl, _⟩⟩ := hv
    · cases hu'
    · obtain rfl : c = 47 := UInt8.toNat_inj.mp (ByteSet.has_one.mp hc)
      obtain rfl : d = 47 := UInt8.toNat_inj.mp (ByteSet.has_one.mp hd)
      refine (hr.splits host_le_hostShape).notAuthority hauth (Rx.prefix_of_acts hp hpre hend ⟨v', rfl⟩ ?_)
      simp only [List.length_cons, List.length_nil]
      omega

/-- Of an authority and its path. -/
theorem acts_slashesPart (hpath : path.lang = Rfc3986.pathAbempty) {a : Authority} (ha : a.Derives host.lang)
    {text : Bytes} (htext : text ∈ Rfc3986.pathAbempty) {p : ℕ} {x : ℕ × UriAction} :
    (slashesPart n path).Acts (authorityText (some a) ++ text) p x ↔ ∃ q, p = q + 2 ∧
      ((authorityPart n).Acts a.text q x ∨ ∃ i, q = a.text.length + i ∧ path.Acts text i x) := by
  have hauthority : a.text ∈ (authorityPart n).lang := by
    rw [lang_authorityPart]
    exact Rfc3986.mem_authority.mpr ⟨a, ha, rfl⟩
  have hdelimited : Delimited (authorityPart n).lang path.lang := by
    refine (delimited_avoiding [47, 63, 35]).mono (fun w hw => ?_) fun w hw => ?_
    · rw [lang_authorityPart] at hw
      obtain ⟨a', ha', rfl⟩ := Rfc3986.mem_authority.mp hw
      exact (ha'.splits host_le_hostShape).text_avoids
    · rw [hpath] at hw
      exact startingIn_mono (by simp) (Rfc3986.pathAbempty_le_startingIn hw)
  rw [← hpath] at htext
  have hrest : a.text ++ text ∈ (Rx.cat (authorityPart n) path).lang :=
    Language.mem_mul.mpr ⟨_, hauthority, _, htext, rfl⟩
  have hslash : 47 :: (a.text ++ text) ∈ (Rx.cat (.byte (.range 47 47)) (.cat (authorityPart n) path)).lang :=
    (Rfc3986.mem_chr_mul (c := '/') (by decide)).mpr ⟨_, hrest, rfl⟩
  have hinside : ∀ q, (Rx.cat (.byte (.range 47 47)) (.cat (authorityPart n) path)).Acts (47 :: (a.text ++ text)) q x ↔
      ∃ i, q = i + 1 ∧ (Rx.cat (authorityPart n) path).Acts (a.text ++ text) i x :=
    fun q => Rx.acts_byte_cat (c := 47) hrest
  have houtside : (slashesPart n path).Acts (authorityText (some a) ++ text) p x ↔
      ∃ q, p = q + 1 ∧ (Rx.cat (.byte (.range 47 47)) (.cat (authorityPart n) path)).Acts (47 :: (a.text ++ text)) q x :=
    Rx.acts_byte_cat (c := 47) hslash
  rw [houtside]
  simp only [hinside, Rx.acts_cat hdelimited hauthority htext]
  constructor
  · rintro ⟨_, rfl, i, rfl, h⟩
    exact ⟨i, rfl, h⟩
  · rintro ⟨i, rfl, h⟩
    exact ⟨i + 1, rfl, i, rfl, h⟩

/-- Of what stands behind the scheme: those of the authority and of the path behind it, and those of the query
and the fragment. -/
theorem acts_bodyPart (hpath : path.lang = Rfc3986.pathAbempty) (hplain : paths.plain = true)
    (hpaths : paths.lang = Rfc3986.path scheme false) {r : Reference} (hr : r.Derives host.lang)
    (hscheme : r.scheme.isSome = scheme) {p : ℕ} {x : ℕ × UriAction} :
    (bodyPart n path paths m).Acts (authorityText r.authority ++ (r.path ++ r.tail)) p x ↔
      (∃ a ∈ r.authority, ∃ q, p = q + 2 ∧
        ((authorityPart n).Acts a.text q x ∨ ∃ i, q = a.text.length + i ∧ path.Acts r.path i x)) ∨
      ∃ q, p = (authorityText r.authority).length + r.path.length + q ∧ (tailPart m).Acts r.tail q x := by
  have hhead : authorityText r.authority ++ r.path ∈ (Rx.alt (slashesPart n path) paths).lang :=
    (mem_slashesPart_alt hpath hpaths).mpr ⟨r.authority, r.path, hr.authority, hscheme ▸ hr.path, rfl⟩
  have hparts : (bodyPart n path paths m).Acts ((authorityText r.authority ++ r.path) ++ r.tail) p x ↔
      (slashesPart n path).Acts (authorityText r.authority ++ r.path) p x ∨
        ∃ q, p = (authorityText r.authority ++ r.path).length + q ∧ (tailPart m).Acts r.tail q x := by
    refine (Rx.acts_cat (delimited_tailPart hpath hpaths) hhead (mem_tailPart hr)).trans (or_congr_left ?_)
    rw [Rx.acts_alt, or_iff_left (Rx.not_acts_of_plain hplain)]
  rw [← List.append_assoc, hparts, List.length_append]
  refine or_congr_left ?_
  cases hauth : r.authority with
  | none => exact iff_of_false (not_acts_slashesPart hr hauth) (by simp)
  | some a =>
    have hmem := hr.path
    rw [hauth] at hmem
    rw [acts_slashesPart hpath (hr.authority a hauth) hmem]
    simp only [Option.mem_some_iff, exists_eq_left']

end Body

/-- The words of a relative reference. -/
theorem mem_relativeRefPart {w : Bytes} (hw : w ∈ relativeRefPart.lang) :
    ∃ r : Reference, r.Derives host.lang ∧ r.scheme = none ∧ r.text = w := by
  have hnames : relativeRefPart.lang = (Rfc3986.chr '/' * (Rfc3986.chr '/' * ((authorityPart 14).lang *
      (pathAbempty.stamp 20).1.lang)) + ((otherPaths false).stamp 20).1.lang) * (tailPart 20).lang := rfl
  rw [hnames, lang_authorityPart, lang_tailPart, (Rx.plain_stamp plain_parts.2.2.2.2.1 _).2.1, lang_pathAbempty,
    (lang_otherPaths false 20).2] at hw
  obtain ⟨u, hu, v, hv, rfl⟩ := Language.mem_mul.mp hw
  obtain ⟨a, p, ha, hp, rfl⟩ := (Rfc3986.mem_part rfl).mp hu
  obtain ⟨q, f, hq, hf, rfl⟩ := Rfc3986.mem_queryFragment.mp hv
  exact ⟨⟨none, a, p, q, f⟩, ⟨by simp, ha, hp, hq, hf⟩, rfl, by simp [Reference.text, Reference.tail, before]⟩

/-- Everything that a relative reference performs comes behind one of its delimiters. -/
theorem heralded_relativeRefPart : relativeRefPart.Heralded [47, 63, 35] := by
  obtain ⟨_, _, _, _, _, hothers⟩ := plain_parts
  refine .cat (.alt (Rx.heralded_byte_cat (c := 47) (by simp) _) (Rx.heralded_of_plain (Rx.plain_stamp (hothers _) _).1)) ?_
  exact .cat (.alt (Rx.heralded_byte_cat (c := 63) (by simp) _) (Rx.heralded_of_plain rfl))
    (.alt (Rx.heralded_byte_cat (c := 35) (by simp) _) (Rx.heralded_of_plain rfl))

variable {r : Reference} {p : ℕ} {x : ℕ × UriAction}

/-- Of a URI: those of the scheme and of what stands behind it. -/
theorem acts_uri (hr : r.Derives host.lang) {s : Bytes} (hs : r.scheme = some s) :
    uriParserStart.Acts r.text p x ↔ (p = 0 ∧ x = (0, marku)) ∨ (p = s.length ∧ x = (1, saveScheme)) ∨
      ∃ q, p = s.length + 1 + q ∧ (bodyPart 2 pathPart ((otherPaths true).stamp 10).1 10).Acts
        (authorityText r.authority ++ (r.path ++ r.tail)) q x := by
  have hsplits := hr.splits host_le_hostShape
  have htext : r.text = s ++ 58 :: (authorityText r.authority ++ (r.path ++ r.tail)) := by
    simp [Reference.text, hs, before]
  -- A thread of a relative reference has not come to a delimiter before the colon.
  have hrelative : ¬ relativeRefPart.Acts r.text p x := by
    rintro ⟨hp, w, hpre, hend, hperf⟩
    obtain ⟨c, hc, hstop⟩ := heralded_relativeRefPart w p x hperf
    obtain ⟨r', hr', hnone, rfl⟩ := mem_relativeRefPart hperf.mem_lang.1
    have hbegin : r'.text.take p <+: r.text :=
      Rx.prefix_of_acts hp hpre hend (List.take_prefix _ _) ((List.length_take_le _ _).trans (Nat.le_succ p))
    have hscheme := hsplits.scheme s hs
    rcases Nat.lt_or_ge s.length p with hlt | hle
    · have hcolon : s ++ [58] <+: r'.text := by
        have hown : s ++ [58] <+: r.text := ⟨_, by rw [htext, List.append_assoc, List.singleton_append]⟩
        refine (List.prefix_of_prefix_length_le hown (List.take_prefix (p + 1) _) ?_).trans hpre
        rw [List.length_take, List.length_append, List.length_singleton]
        omega
      obtain ⟨t, ht⟩ := hcolon
      rw [List.append_assoc, List.singleton_append] at ht
      exact (hr'.splits host_le_hostShape).text_ne hnone hscheme t ht.symm
    · rw [htext] at hbegin
      have hin : r'.text.take p <+: s :=
        List.prefix_of_prefix_length_le hbegin (List.prefix_append _ _) ((List.length_take_le _ _).trans hle)
      have hmem := hscheme c (hin.subset hc)
      exact hmem (List.mem_cons_of_mem _ hstop)
  have hschemeMem : s ∈ schemePart.lang := hr.scheme s hs
  have hdelim : Delimited schemePart.lang
      (Rx.cat (.byte (.range 58 58)) (bodyPart 2 pathPart ((otherPaths true).stamp 10).1 10)).lang := by
    refine (delimited_avoiding [58]).mono (fun w hw => ?_) fun w hw => ?_
    · exact (avoiding_mono (by simp)) (Rfc3986.scheme_le hw)
    · obtain ⟨t, _, rfl⟩ := (Rfc3986.mem_chr_mul (c := ':') (by decide)).mp hw
      exact cons_mem_startingIn (by simp) t
  have hbody : authorityText r.authority ++ (r.path ++ r.tail) ∈
      (bodyPart 2 pathPart ((otherPaths true).stamp 10).1 10).lang :=
    mem_bodyPart lang_pathPart (lang_otherPaths true 10).2 hr (by rw [hs]; rfl)
  have hcolon : 58 :: (authorityText r.authority ++ (r.path ++ r.tail)) ∈
      (Rx.cat (.byte (.range 58 58)) (bodyPart 2 pathPart ((otherPaths true).stamp 10).1 10)).lang :=
    (Rfc3986.mem_chr_mul (c := ':') (by decide)).mpr ⟨_, hbody, rfl⟩
  have hbehind : ∀ q, (Rx.cat (.byte (.range 58 58)) (bodyPart 2 pathPart ((otherPaths true).stamp 10).1 10)).Acts
      (58 :: (authorityText r.authority ++ (r.path ++ r.tail))) q x ↔ ∃ i, q = i + 1 ∧
        (bodyPart 2 pathPart ((otherPaths true).stamp 10).1 10).Acts (authorityText r.authority ++ (r.path ++ r.tail)) i x :=
    fun q => Rx.acts_byte_cat (c := 58) hbody
  rw [uriParserStart_eq, Rx.acts_alt, or_iff_left hrelative, htext, uriPart, Rx.acts_cat hdelim hschemeMem hcolon]
  have hmarked : schemePart.Acts s p x ↔ p = 0 ∧ x = (0, marku) ∨ p = s.length ∧ x = (1, saveScheme) :=
    Rx.acts_marked rfl hschemeMem
  rw [hmarked, or_assoc]
  simp only [hbehind]
  refine or_congr_right (or_congr_right ?_)
  constructor
  · rintro ⟨_, rfl, i, rfl, h⟩
    exact ⟨i, by omega, h⟩
  · rintro ⟨i, rfl, h⟩
    exact ⟨i + 1, by omega, i, rfl, h⟩

/-- Of a relative reference: at its beginning those of a scheme that it could begin with, and its own. -/
theorem acts_relative (hr : r.Derives host.lang) (hs : r.scheme = none)
    (h : uriParserStart.Acts r.text p x) : p = 0 ∧ x = (0, marku) ∨ relativeRefPart.Acts r.text p x := by
  rw [uriParserStart_eq, Rx.acts_alt] at h
  refine h.imp_left fun ⟨hp, w, hpre, hend, hperf⟩ => ?_
  obtain ⟨u, v, rfl, hcases⟩ := hperf
  have hv : v ∈ (Rx.cat (.byte (.range 58 58)) (bodyPart 2 pathPart ((otherPaths true).stamp 10).1 10)).lang :=
    hcases.elim (fun h => h.2) fun ⟨_, q, _, h⟩ => h.mem_lang.1
  have hu : u ∈ schemePart.lang := hcases.elim (fun h => h.1.mem_lang.1) (fun h => h.1)
  obtain ⟨t, _, rfl⟩ := (Rfc3986.mem_chr_mul (c := ':') (by decide)).mp hv
  have hshort : p < u.length := by
    by_contra hle
    have hcolon : u ++ [58] <+: r.text := by
      refine Rx.prefix_of_acts hp hpre hend ⟨t, by simp⟩ ?_
      rw [List.length_append, List.length_singleton]
      omega
    obtain ⟨t', ht⟩ := hcolon
    rw [List.append_assoc, List.singleton_append] at ht
    exact (hr.splits host_le_hostShape).text_ne hs (Rfc3986.scheme_le hu) t' ht.symm
  rcases hcases with ⟨hperf, _⟩ | ⟨_, q, rfl, _⟩
  · have hmarked : schemePart.Acts u p x ↔ p = 0 ∧ x = (0, marku) ∨ p = u.length ∧ x = (1, saveScheme) :=
      Rx.acts_marked rfl hu
    rcases hmarked.mp (Rx.acts_of_performs hperf) with hx | ⟨rfl, _⟩
    · exact hx
    · omega
  · omega

end Bobliew.UriGrammar
