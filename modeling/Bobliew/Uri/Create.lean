import Bobliew.Lib.Effects
import Bobliew.Lib.Runs
import Bobliew.Uri.Entries

/-!
# What is made of a string

The entries of a reference are the actions that the machine performs on its text, so what `Uri::Create` makes of
the text is what they store. Nothing is made of a text that is not a reference.
-/

namespace Bobliew

open Ragel Http UriGrammar UriAction

namespace Uri

variable {w : Bytes} {p q n m : ℕ}

/-! ## The actions of a reference -/

section Authorities

variable {a : Authority} {taken : List Entry}

/-- The entries of an authority are its actions. -/
theorem mem_authorityEntries (ha : a.Derives UriGrammar.host.lang)
    (htaken : ∀ user ∈ a.userinfo, ∀ q x, (q, x) ∈ taken ↔
      ∃ i, q = p + i ∧ (hostPort (n + 2)).Acts (user ++ 64 :: (a.host ++ behind 58 a.port)) i x) {x : ℕ × UriAction} :
    (q, x) ∈ authorityEntries p n taken a ↔ ∃ i, q = p + i ∧ (authorityPart n).Acts a.text i x := by
  have hport : ∀ b, (q, x) ∈ portEntries b (n + 4) a.port ↔
      ∃ v ∈ a.port, q = b + 1 ∧ x = (n + 4, markh) ∨ q = b + 1 + v.length ∧ x = (n + 5, savePort) := by
    intro b
    unfold portEntries
    cases a.port with
    | none => simp
    | some v => simp [Prod.ext_iff]
  cases huser : a.userinfo with
  | none =>
    simp only [acts_authorityPart_none ha huser, acts_hostPort ha.host ha.port, authorityEntries, huser, List.mem_cons,
      List.mem_append, hport, Option.elim_none, List.not_mem_nil, false_or, Prod.mk.injEq, before, List.length_nil,
      Nat.add_zero]
    constructor
    · rintro (⟨rfl, hx⟩ | ⟨rfl, hx⟩ | ⟨rfl, hx⟩ | ⟨v, hv, ⟨rfl, hx⟩ | ⟨rfl, hx⟩⟩)
      · exact ⟨0, rfl, .inr ⟨rfl, hx⟩⟩
      · exact ⟨0, rfl, .inl (.inl ⟨rfl, hx⟩)⟩
      · exact ⟨_, rfl, .inl (.inr (.inl ⟨rfl, hx⟩))⟩
      · exact ⟨a.host.length + 1, rfl, .inl (.inr (.inr ⟨v, hv, .inl ⟨rfl, hx⟩⟩))⟩
      · exact ⟨a.host.length + 1 + v.length, by omega, .inl (.inr (.inr ⟨v, hv, .inr ⟨rfl, hx⟩⟩))⟩
    · rintro ⟨i, rfl, (⟨rfl, hx⟩ | ⟨rfl, hx⟩ | ⟨v, hv, ⟨rfl, hx⟩ | ⟨rfl, hx⟩⟩) | ⟨rfl, hx⟩⟩
      · exact .inr (.inl ⟨rfl, hx⟩)
      · exact .inr (.inr (.inl ⟨rfl, hx⟩))
      · exact .inr (.inr (.inr ⟨v, hv, .inl ⟨rfl, hx⟩⟩))
      · exact .inr (.inr (.inr ⟨v, hv, .inr ⟨by omega, hx⟩⟩))
      · exact .inl ⟨rfl, hx⟩
  | some user =>
    have hlen : (before 64 (some user)).length = user.length + 1 := by simp [before]
    simp only [acts_authorityPart_some ha huser, acts_hostPort ha.host ha.port, authorityEntries, huser, List.mem_cons,
      List.mem_append, hport, Option.elim_some, List.not_mem_nil, or_false, Prod.mk.injEq, htaken user huser, hlen]
    constructor
    · rintro (⟨rfl, hx⟩ | (⟨i, rfl, h⟩ | ⟨rfl, hx⟩) | ⟨rfl, hx⟩ | ⟨rfl, hx⟩ | ⟨v, hv, ⟨rfl, hx⟩ | ⟨rfl, hx⟩⟩)
      · exact ⟨0, rfl, .inl ⟨rfl, hx⟩⟩
      · exact ⟨i, rfl, .inr (.inr (.inr h))⟩
      · exact ⟨_, rfl, .inr (.inl ⟨rfl, hx⟩)⟩
      · exact ⟨_, rfl, .inr (.inr (.inl ⟨0, rfl, .inl ⟨rfl, hx⟩⟩))⟩
      · exact ⟨user.length + 1 + a.host.length, by omega, .inr (.inr (.inl ⟨_, rfl, .inr (.inl ⟨rfl, hx⟩)⟩))⟩
      · exact ⟨user.length + 1 + (a.host.length + 1), by omega,
          .inr (.inr (.inl ⟨_, rfl, .inr (.inr ⟨v, hv, .inl ⟨rfl, hx⟩⟩)⟩))⟩
      · exact ⟨user.length + 1 + (a.host.length + 1 + v.length), by omega,
          .inr (.inr (.inl ⟨_, rfl, .inr (.inr ⟨v, hv, .inr ⟨rfl, hx⟩⟩)⟩))⟩
    · rintro ⟨i, rfl, ⟨rfl, hx⟩ | ⟨rfl, hx⟩ |
        ⟨q, rfl, ⟨rfl, hx⟩ | ⟨rfl, hx⟩ | ⟨v, hv, ⟨rfl, hx⟩ | ⟨rfl, hx⟩⟩⟩ | h⟩
      · exact .inl ⟨rfl, hx⟩
      · exact .inr (.inl (.inr ⟨rfl, hx⟩))
      · exact .inr (.inr (.inl ⟨rfl, hx⟩))
      · exact .inr (.inr (.inr (.inl ⟨by omega, hx⟩)))
      · exact .inr (.inr (.inr (.inr ⟨v, hv, .inl ⟨by omega, hx⟩⟩)))
      · exact .inr (.inr (.inr (.inr ⟨v, hv, .inr ⟨by omega, hx⟩⟩)))
      · exact .inr (.inl (.inl ⟨i, rfl, h⟩))

/-- The entries of an authority are sorted. -/
theorem within_authorityEntries (htaken : ∀ user ∈ a.userinfo, TakenEntries p (n + 2) user taken) :
    Within (authorityEntries p n taken a) p (p + a.text.length + 1) n (n + 6) := by
  obtain ⟨user, host, port⟩ := a
  have hlen : (Authority.text ⟨user, host, port⟩).length =
      (before 64 user).length + (host.length + (behind 58 port).length) := by
    rw [Authority.text, List.length_append, List.length_append]
  have hport : Within (portEntries (p + (before 64 user).length + host.length) (n + 4) port)
      (p + (before 64 user).length + host.length) (p + (Authority.text ⟨user, host, port⟩).length + 1) (n + 4) (n + 6) := by
    cases port with
    | none => exact within_nil _ _ _ _
    | some v =>
      simp only [behind, Option.elim_some, List.length_cons] at hlen
      exact within_pair (by omega) (by omega) (by omega)
  have hhost : Within [(p + (before 64 user).length, n + 2, markh), (p + (before 64 user).length + host.length, n + 3, saveHost)]
      (p + (before 64 user).length) (p + (before 64 user).length + host.length + 1) (n + 2) (n + 4) :=
    within_pair le_rfl (by omega) (by omega)
  have hhostPort := hhost.append hport (.inr (by omega)) (i := n + 2) (j := n + 6) (by omega) (by omega) (by omega)
    (by omega)
  have hfirst : Within [(p, n, markh)] p (p + 1) n (n + 1) := within_singleton le_rfl (by omega)
  cases user with
  | none => exact hfirst.append hhostPort (.inr (by simp [before])) (by omega) (by omega) (by simp) (by omega)
  | some user =>
    have hbefore : (before 64 (some user)).length = user.length + 1 := by simp [before]
    have htaken := htaken user rfl
    have hinside : Within taken p (p + user.length) (n + 2) (n + 5) := by
      refine ⟨htaken.sorted, fun x hx => ?_⟩
      obtain ⟨hge, hlt, hcases⟩ := htaken.mem x.1 x.2 hx
      have hstamp : x.2.1 = n + 2 ∨ x.2.1 = n + 3 ∨ x.2.1 = n + 4 :=
        hcases.imp (fun h => congrArg Prod.fst h.2) (Or.imp (congrArg Prod.fst) fun h => congrArg Prod.fst h.2.2)
      omega
    have hsave : Within [(p + user.length, n + 1, saveUserinfo)] (p + user.length) (p + user.length + 1) (n + 1) (n + 2) :=
      within_singleton le_rfl (by omega)
    have huser := hinside.append hsave (.inl le_rfl) (i := n + 1) (j := n + 5) (by omega) (by omega) (by omega) (by omega)
    have hrest := huser.append hhostPort (.inl (by omega)) (i := n + 1) (j := n + 6) (by omega) (by omega) (by omega)
      (by omega)
    exact hfirst.append hrest (.inr (by omega)) (by omega) (by omega) (by omega) (by omega)

end Authorities

/-- The entries of a query and a fragment are their actions. -/
theorem mem_tailEntries {query fragment : Option Bytes} (hquery : ∀ v ∈ query, v ∈ Rfc3986.query)
    (hfragment : ∀ v ∈ fragment, v ∈ Rfc3986.query) {x : ℕ × UriAction} : (q, x) ∈ tailEntries p m query fragment ↔
      ∃ i, q = p + i ∧ (tailPart m).Acts (behind 63 query ++ behind 35 fragment) i x := by
  have hcomponent : ∀ {part : Option Bytes} {b k : ℕ} {save : UriAction},
      (q, x) ∈ part.elim [] (componentEntries b k save) ↔
        ∃ v ∈ part, q = b ∧ x = (k, marku) ∨ q = b + v.length ∧ x = (k + 1, save) := by
    intro part b k save
    cases part with
    | none => simp
    | some v => simp [componentEntries, Prod.ext_iff]
  simp only [acts_tailPart hquery hfragment, tailEntries, List.mem_append, hcomponent]
  constructor
  · rintro (⟨v, hv, ⟨rfl, hx⟩ | ⟨rfl, hx⟩⟩ | ⟨v, hv, ⟨rfl, hx⟩ | ⟨rfl, hx⟩⟩)
    · exact ⟨1, rfl, .inl ⟨v, hv, .inl ⟨rfl, hx⟩⟩⟩
    · exact ⟨v.length + 1, by omega, .inl ⟨v, hv, .inr ⟨rfl, hx⟩⟩⟩
    · exact ⟨(behind 63 query).length + 1, rfl, .inr ⟨v, hv, .inl ⟨rfl, hx⟩⟩⟩
    · exact ⟨(behind 63 query).length + (v.length + 1), by omega, .inr ⟨v, hv, .inr ⟨rfl, hx⟩⟩⟩
  · rintro ⟨i, rfl, ⟨v, hv, ⟨rfl, hx⟩ | ⟨rfl, hx⟩⟩ | ⟨v, hv, ⟨rfl, hx⟩ | ⟨rfl, hx⟩⟩⟩
    · exact .inl ⟨v, hv, .inl ⟨rfl, hx⟩⟩
    · exact .inl ⟨v, hv, .inr ⟨by omega, hx⟩⟩
    · exact .inr ⟨v, hv, .inl ⟨rfl, hx⟩⟩
    · exact .inr ⟨v, hv, .inr ⟨by omega, hx⟩⟩

/-- The entries of a query and a fragment are sorted. -/
theorem within_tailEntries (query fragment : Option Bytes) : Within (tailEntries p m query fragment) (p + 1)
    (p + (behind 63 query ++ behind 35 fragment).length + 1) m (m + 4) := by
  rw [List.length_append]
  have hquery : Within (query.elim [] (componentEntries (p + 1) m saveQuery)) (p + 1) (p + (behind 63 query).length + 1)
      m (m + 2) := by
    cases query with
    | none => exact within_nil _ _ _ _
    | some v => exact within_pair le_rfl (by omega) (by simp [behind]; omega)
  have hfragment : Within (fragment.elim [] (componentEntries (p + (behind 63 query).length + 1) (m + 2) saveFragment))
      (p + (behind 63 query).length + 1) (p + ((behind 63 query).length + (behind 35 fragment).length) + 1) (m + 2) (m + 4) := by
    cases fragment with
    | none => exact within_nil _ _ _ _
    | some v => exact within_pair le_rfl (by omega) (by simp [behind]; omega)
  exact hquery.append hfragment (.inl le_rfl) (by omega) (by omega) (by omega) (by omega)

/-- The entries of what stands behind the scheme; the path behind an authority is saved or not. -/
def bodyEntries (p n m : ℕ) (taken : List Entry) (saved : Bool) (r : Reference) : List Entry :=
  r.authority.elim [] (fun a => authorityEntries (p + 2) n taken a ++
      if saved then pathEntries (p + 2 + a.text.length) (n + 6) r.path else []) ++
    tailEntries (p + (authorityText r.authority).length + r.path.length) m r.query r.fragment

section Body

variable {path paths : Thread UriAction} {scheme saved : Bool} {r : Reference} {taken : List Entry}

/-- The entries are the actions. -/
theorem mem_bodyEntries (hpath : path.lang = Rfc3986.pathAbempty) (hplain : paths.plain = true)
    (hpaths : paths.lang = Rfc3986.path scheme false) (hr : r.Derives UriGrammar.host.lang)
    (hscheme : r.scheme.isSome = scheme)
    (hsaved : r.path ∈ Rfc3986.pathAbempty → ∀ i x, path.Acts r.path i x ↔
      saved = true ∧ (i = 0 ∧ x = (n + 6, markh) ∨ i = r.path.length ∧ x = (n + 7, savePath)))
    (htaken : ∀ a ∈ r.authority, ∀ user ∈ a.userinfo, ∀ q x, (q, x) ∈ taken ↔
      ∃ i, q = p + 2 + i ∧ (hostPort (n + 2)).Acts (user ++ 64 :: (a.host ++ behind 58 a.port)) i x)
    {x : ℕ × UriAction} : (q, x) ∈ bodyEntries p n m taken saved r ↔
      ∃ i, q = p + i ∧ (bodyPart n path paths m).Acts (authorityText r.authority ++ (r.path ++ r.tail)) i x := by
  rw [bodyEntries, List.mem_append, mem_tailEntries hr.query hr.fragment]
  simp only [acts_bodyPart hpath hplain hpaths hr hscheme]
  have hauthority : (q, x) ∈ r.authority.elim [] (fun a => authorityEntries (p + 2) n taken a ++
      if saved then pathEntries (p + 2 + a.text.length) (n + 6) r.path else []) ↔
      ∃ a ∈ r.authority, ∃ i, q = p + 2 + i ∧
        ((authorityPart n).Acts a.text i x ∨ ∃ j, i = a.text.length + j ∧ path.Acts r.path j x) := by
    cases hauth : r.authority with
    | none => simp
    | some a =>
      have hmem : r.path ∈ Rfc3986.pathAbempty := by
        have hmem := hr.path
        rwa [hauth] at hmem
      have hpathEntries : (q, x) ∈ (if saved then pathEntries (p + 2 + a.text.length) (n + 6) r.path else []) ↔
          ∃ j, q = p + 2 + (a.text.length + j) ∧ path.Acts r.path j x := by
        simp only [hsaved hmem]
        cases saved with
        | false => simp
        | true =>
          simp only [pathEntries, if_true, List.mem_cons, List.not_mem_nil, or_false, Prod.mk.injEq, true_and]
          constructor
          · rintro (⟨rfl, hx⟩ | ⟨rfl, hx⟩)
            · exact ⟨0, rfl, .inl ⟨rfl, hx⟩⟩
            · exact ⟨r.path.length, by omega, .inr ⟨rfl, hx⟩⟩
          · rintro ⟨j, rfl, ⟨rfl, hx⟩ | ⟨rfl, hx⟩⟩
            · exact .inl ⟨rfl, hx⟩
            · exact .inr ⟨by omega, hx⟩
      rw [Option.elim_some, List.mem_append, mem_authorityEntries (hr.authority a hauth) (htaken a hauth), hpathEntries]
      simp only [Option.mem_some_iff, exists_eq_left']
      constructor
      · rintro (⟨i, rfl, h⟩ | ⟨j, rfl, h⟩)
        · exact ⟨i, rfl, .inl h⟩
        · exact ⟨_, rfl, .inr ⟨j, rfl, h⟩⟩
      · rintro ⟨i, rfl, h | ⟨j, rfl, h⟩⟩
        · exact .inl ⟨i, rfl, h⟩
        · exact .inr ⟨j, rfl, h⟩
  rw [hauthority]
  constructor
  · rintro (⟨a, ha, i, rfl, h⟩ | ⟨i, rfl, h⟩)
    · exact ⟨i + 2, by omega, .inl ⟨a, ha, i, rfl, h⟩⟩
    · exact ⟨_, by omega, .inr ⟨i, rfl, h⟩⟩
  · rintro ⟨_, rfl, ⟨a, ha, i, rfl, h⟩ | ⟨i, rfl, h⟩⟩
    · exact .inl ⟨a, ha, i, by omega, h⟩
    · exact .inr ⟨i, by omega, h⟩

/-- The entries are sorted. -/
theorem within_bodyEntries (saved : Bool) (hnm : n + 8 ≤ m ∨ saved = false ∧ n + 6 ≤ m)
    (htaken : ∀ a ∈ r.authority, ∀ user ∈ a.userinfo, TakenEntries (p + 2) (n + 2) user taken) :
    Within (bodyEntries p n m taken saved r) (p + 1)
      (p + (authorityText r.authority ++ (r.path ++ r.tail)).length + 1) n (m + 4) := by
  have htail := within_tailEntries (p := p + (authorityText r.authority).length + r.path.length) (m := m) r.query r.fragment
  have hlen : (authorityText r.authority ++ (r.path ++ r.tail)).length =
      (authorityText r.authority).length + (r.path.length + (behind 63 r.query ++ behind 35 r.fragment).length) := by
    rw [List.length_append, List.length_append, Reference.tail]
  have hend : p + (authorityText r.authority).length + r.path.length +
    (behind 63 r.query ++ behind 35 r.fragment).length + 1 =
      p + (authorityText r.authority ++ (r.path ++ r.tail)).length + 1 := by omega
  rw [hend] at htail
  rw [bodyEntries]
  cases hauth : r.authority with
  | none =>
    rw [hauth] at htail
    exact (within_nil (p + 1) (p + 1) n n).append htail (.inl (by omega)) (by omega) (by omega) (by omega) (by omega)
  | some a =>
    rw [hauth] at htail hlen
    have htext : (authorityText (some a)).length = a.text.length + 2 := rfl
    have hauthority : Within (authorityEntries (p + 2) n taken a) (p + 1) (p + 2 + a.text.length + 1) n (n + 6) := by
      have hown := within_authorityEntries (htaken a hauth)
      exact ⟨hown.sorted, fun x hx => by have hx := hown.bounds x hx; omega⟩
    rw [Option.elim_some]
    cases saved with
    | false =>
      rw [if_neg Bool.false_ne_true, List.append_nil]
      exact hauthority.append htail (.inr (by omega)) (by omega) (by omega) (by omega) (by omega)
    | true =>
      have hpair : Within (pathEntries (p + 2 + a.text.length) (n + 6) r.path) (p + 2 + a.text.length)
          (p + 2 + a.text.length + r.path.length + 1) (n + 6) (n + 8) := within_pair le_rfl (by omega) (by omega)
      have hpath := hauthority.append hpair (.inr (by omega)) (i := n) (j := n + 8) (by omega) (by omega) (by omega)
        (by omega)
      have hnm : n + 8 ≤ m := hnm.resolve_right fun h => by simp at h
      exact hpath.append htail (.inr (by omega)) (by omega) (by omega) (by omega) (by omega)

/-- The taken entries of a reference. -/
theorem exists_taken (hr : r.Derives UriGrammar.host.lang) (p n : ℕ) : ∃ taken : List Entry,
    (∀ a ∈ r.authority, ∀ user ∈ a.userinfo, TakenEntries p n user taken) ∧
      ∀ a ∈ r.authority, ∀ user ∈ a.userinfo, ∀ q x, (q, x) ∈ taken ↔
        ∃ i, q = p + i ∧ (hostPort n).Acts (user ++ 64 :: (a.host ++ behind 58 a.port)) i x := by
  cases hauth : r.authority with
  | none => exact ⟨[], by simp, by simp⟩
  | some a =>
    cases huser : a.userinfo with
    | none => exact ⟨[], by simp [huser], by simp [huser]⟩
    | some user =>
      obtain ⟨taken, htaken, hmem⟩ := exists_takenEntries ((hr.authority a hauth).userinfo user huser) p n
        (a.host ++ behind 58 a.port)
      refine ⟨taken, ?_, ?_⟩
      · rintro _ ⟨⟩ user' huser'
        obtain rfl := Option.some.inj (huser.symm.trans huser')
        exact htaken
      · rintro _ ⟨⟩ user' huser'
        obtain rfl := Option.some.inj (huser.symm.trans huser')
        exact hmem

/-- The schedule of a reference with a scheme. -/
theorem exists_schedule_uri (hr : r.Derives UriGrammar.host.lang) {s : Bytes} (hs : r.scheme = some s) :
    ∃ taken : List Entry, (∀ a ∈ r.authority, ∀ user ∈ a.userinfo, TakenEntries (s.length + 3) 4 user taken) ∧
      Schedule uriParserStart r.text (componentEntries 0 0 saveScheme s ++ bodyEntries (s.length + 1) 2 10 taken true r) := by
  obtain ⟨taken, htaken, hmem⟩ := exists_taken hr (s.length + 1 + 2) (2 + 2)
  refine ⟨taken, htaken, ?_, fun p x => ?_⟩
  · have hscheme : Within (componentEntries 0 0 saveScheme s) 0 (s.length + 1) 0 2 :=
      within_pair le_rfl (by omega) (by omega)
    have hbody := within_bodyEntries (p := s.length + 1) (n := 2) (m := 10) true (.inl (by omega)) htaken
    exact (hscheme.append hbody (.inl (by omega)) (i := 0) (j := 14) (by omega) (by omega) (by omega) (by omega)).sorted
  · have hsaved : r.path ∈ Rfc3986.pathAbempty → ∀ i x, pathPart.Acts r.path i x ↔
        true = true ∧ (i = 0 ∧ x = (8, markh) ∨ i = r.path.length ∧ x = (9, savePath)) := by
      intro hpath i x
      rw [← lang_pathPart] at hpath
      exact (Rx.acts_marked (Rx.plain_stamp plain_parts.2.2.2.2.1 9).1 hpath).trans (and_iff_right rfl).symm
    have hbody := mem_bodyEntries (p := s.length + 1) (n := 2) (m := 10) (q := p) (x := x) lang_pathPart
      (lang_otherPaths true 10).1 (lang_otherPaths true 10).2 hr (by rw [hs]; rfl) hsaved hmem
    rw [acts_uri hr hs, List.mem_append, hbody, or_assoc.symm]
    refine or_congr_left ?_
    simp [componentEntries, Prod.ext_iff]

/-- The schedule of a reference without a scheme, whose beginning may be taken for one. -/
theorem exists_schedule_relative (hr : r.Derives UriGrammar.host.lang) (hs : r.scheme = none) :
    ∃ first taken : List Entry, (first = [] ∨ first = [(0, 0, marku)]) ∧
      (∀ a ∈ r.authority, ∀ user ∈ a.userinfo, TakenEntries 2 16 user taken) ∧
      Schedule uriParserStart r.text (first ++ bodyEntries 0 14 20 taken false r) := by
  classical
  obtain ⟨taken, htaken, hmem⟩ := exists_taken hr (0 + 2) (14 + 2)
  have htext : r.text = authorityText r.authority ++ (r.path ++ r.tail) := by
    rw [Reference.text, hs]
    rfl
  have hbody : ∀ q x, (q, x) ∈ bodyEntries 0 14 20 taken false r ↔ relativeRefPart.Acts r.text q x := by
    intro q x
    have hplain := Rx.plain_stamp plain_parts.2.2.2.2.1 20
    have hsaved : r.path ∈ Rfc3986.pathAbempty → ∀ i x, (pathAbempty.stamp 20).1.Acts r.path i x ↔
        false = true ∧ (i = 0 ∧ x = (20, markh) ∨ i = r.path.length ∧ x = (21, savePath)) :=
      fun _ i x => iff_of_false (Rx.not_acts_of_plain hplain.1) (by simp)
    have hbody := mem_bodyEntries (p := 0) (n := 14) (m := 20) (q := q) (x := x) (hplain.2.1.trans lang_pathAbempty)
      (lang_otherPaths false 20).1 (lang_otherPaths false 20).2 hr (by rw [hs]; rfl) hsaved hmem
    rw [hbody, htext]
    simp [relativeRefPart]
  have hown : ∀ q x, relativeRefPart.Acts r.text q x → uriParserStart.Acts r.text q x := by
    intro q x h
    rw [uriParserStart_eq, Rx.acts_alt]
    exact .inr h
  have hwithin := within_bodyEntries (p := 0) (n := 14) (m := 20) false (.inr ⟨rfl, by omega⟩) htaken
  by_cases hfirst : uriParserStart.Acts r.text 0 (0, marku)
  · refine ⟨[(0, 0, marku)], taken, .inr rfl, htaken, ?_, fun p x => ?_⟩
    · have hzero : Within [(0, 0, marku)] 0 1 0 1 := within_singleton le_rfl (by omega)
      exact (hzero.append hwithin (.inl (by omega)) (i := 0) (j := 24) (by omega) (by omega) (by omega) (by omega)).sorted
    · rw [List.mem_append, hbody]
      constructor
      · rintro (h | h)
        · obtain ⟨rfl, rfl⟩ := Prod.mk.inj (List.mem_singleton.mp h)
          exact hfirst
        · exact hown p x h
      · intro h
        refine (acts_relative hr hs h).imp_left ?_
        rintro ⟨rfl, rfl⟩
        exact List.mem_singleton_self _
  · refine ⟨[], taken, .inl rfl, htaken, hwithin.sorted, fun p x => ?_⟩
    rw [List.nil_append, hbody]
    refine ⟨hown p x, fun h => (acts_relative hr hs h).resolve_left ?_⟩
    rintro ⟨rfl, rfl⟩
    exact hfirst h

/-! ## What is created -/

/-- The path behind an authority is stored if it is to be saved, unless the port has cleared the mark. -/
theorem performEntries_savedPath (saved : Bool) {port : Option Bytes} {pre v rest : Bytes} {u : Uri} {e : Stand}
    (hw : w = pre ++ (v ++ rest)) (hp : p = pre.length) (he : e.AuthorityEnd port p u) :
    (saved = true ∧ port = some [] →
        (performEntries w (if saved then pathEntries p n v else []) e).st = .error .nullString) ∧
      (¬(saved = true ∧ port = some []) →
        ∃ k, (performEntries w (if saved then pathEntries p n v else []) e).Before (p + v.length + 1)
          ⟨k, { u with path := if saved then v else u.path }⟩) := by
  cases saved with
  | true =>
    obtain ⟨hempty, hstored⟩ := performEntries_path (n := n) hw hp he
    exact ⟨fun h => hempty h.2, fun h => ⟨none, hstored fun hport => h ⟨rfl, hport⟩⟩⟩
  | false =>
    refine ⟨fun h => absurd h.1 Bool.false_ne_true, fun _ => ?_⟩
    have hlast : e.last < p + v.length + 1 := by
      rw [he.last]
      omega
    by_cases hempty : port = some []
    · exact ⟨none, .inl hlast, (he.emptyPort hempty).1⟩
    · obtain ⟨k, hk, _⟩ := he.mark hempty
      exact ⟨k, .inl hlast, hk⟩

/-- What stands behind the scheme is stored, unless the string of the path is made from a null pointer. -/
theorem performEntries_body (hr : r.Derives UriGrammar.host.lang) {pre : Bytes}
    (hw : w = pre ++ (authorityText r.authority ++ (r.path ++ r.tail))) (hp : p = pre.length)
    (htaken : ∀ a ∈ r.authority, ∀ user ∈ a.userinfo, TakenEntries (p + 2) (n + 2) user taken) {e : Stand}
    (hlast : e.last < p + 1) {k : Option ℕ} (hst : e.st = .ok ⟨k, { fresh with scheme := r.scheme.getD [] }⟩) :
    (r.EmptyPort → (performEntries w (bodyEntries p n m taken r.scheme.isSome r) e).st = .error .nullString) ∧
      (¬ r.EmptyPort →
        ∃ k', (performEntries w (bodyEntries p n m taken r.scheme.isSome r) e).st = .ok ⟨k', r.stored⟩) := by
  have hsplit : w = (pre ++ (authorityText r.authority ++ r.path)) ++
      (behind 63 r.query ++ behind 35 r.fragment) := by
    simp [hw, Reference.tail]
  have hend : p + (authorityText r.authority).length + r.path.length =
      (pre ++ (authorityText r.authority ++ r.path)).length := by
    simp [hp, Nat.add_assoc]
  have htail : ∀ {e' : Stand} {k' : Option ℕ} {u : Uri},
      e'.Before (p + (authorityText r.authority).length + r.path.length + 1) ⟨k', u⟩ →
      ∃ k'', (performEntries w (tailEntries (p + (authorityText r.authority).length + r.path.length) m r.query r.fragment)
        e').st = .ok ⟨k'', { u with query := r.query.getD u.query, fragment := r.fragment.getD u.fragment }⟩ :=
    fun he' => performEntries_tail hsplit hend he'
  rw [bodyEntries, performEntries, List.foldl_append]
  cases hauth : r.authority with
  | none =>
    have hnone : ¬ r.EmptyPort := by
      rintro ⟨_, a, ha, _⟩
      simp [hauth] at ha
    refine ⟨fun h => absurd h hnone, fun _ => ?_⟩
    have hstored : r.stored = { fresh with
        scheme := r.scheme.getD [], query := r.query.getD [], fragment := r.fragment.getD [] } := by
      rw [Reference.stored, hauth]
    rw [hauth] at htail
    rw [hstored]
    exact htail ⟨.inl (by simp only [authorityText, Option.elim_none, List.length_nil]; omega), hst⟩
  | some a =>
    have hderives := hr.authority a hauth
    have hroot : r.path ∈ startingIn [47] := (hr.splits host_le_hostShape).rooted (by rw [hauth]; rfl)
    have hstored : r.stored = { a.store { fresh with
        scheme := r.scheme.getD [], query := r.query.getD [], fragment := r.fragment.getD [] } with
        path := if r.scheme.isSome then r.path else [] } := by
      rw [Reference.stored, hauth]
    have hrest : r.path ++ r.tail ∈ startingIn [47, 63, 35] := by
      intro c hc
      cases hpath : r.path with
      | nil =>
        rw [hpath] at hc
        exact List.mem_cons_of_mem _ (r.tail_mem c hc)
      | cons d path =>
        rw [hpath] at hc hroot
        obtain rfl : d = c := Option.some.inj hc
        exact List.mem_cons.mpr (.inl (List.mem_singleton.mp (hroot d rfl)))
    have hbehind : w = (pre ++ [47, 47]) ++ (a.text ++ (r.path ++ r.tail)) := by
      simp [hw, hauth, authorityText]
    have hauthority := performEntries_authority (n := n) hbehind (p := p + 2) (by simp [hp]) hderives.port hrest
      (htaken a hauth) (by omega) hst
    have hpathSplit : w = (pre ++ ([47, 47] ++ a.text)) ++ (r.path ++ r.tail) := by
      simp [hbehind]
    obtain ⟨hfailed, hsaved⟩ := performEntries_savedPath (n := n + 6) r.scheme.isSome hpathSplit
      (by simp [hp, Nat.add_assoc]; omega) hauthority
    have hempty : r.EmptyPort ↔ r.scheme.isSome = true ∧ a.port = some [] := by
      simp [Reference.EmptyPort, hauth]
    have hlen : (authorityText (some a)).length = a.text.length + 2 := rfl
    rw [hauth, hlen] at htail
    rw [Option.elim_some, hlen, List.foldl_append, hempty, hstored]
    refine ⟨fun h => performEntries_error (hfailed h), fun h => ?_⟩
    obtain ⟨k', hbefore⟩ := hsaved h
    have hpos : p + 2 + a.text.length + r.path.length + 1 = p + (a.text.length + 2) + r.path.length + 1 := by omega
    rw [hpos] at hbefore
    exact htail hbefore

/-- The machine is tame. -/
theorem tame_uriParserStart : uriParserStart.tame = true := (Rx.tame_stamp (r := main) rfl 0).1

/-- The machine accepts the references with the hosts of its grammar. -/
theorem mem_uriParserStart : w ∈ uriParserStart.lang ↔
    ∃ r : Reference, r.Derives UriGrammar.host.lang ∧ r.text = w := by
  rw [← Rfc3986.mem_uriReference, ← lang_main, uriParserStart, (Rx.tame_stamp (r := main) rfl 0).2]

/-- The schedule of a word decides what is created from it. -/
theorem create_eq (hw : w ∈ uriParserStart.lang) {l : List Entry} (hl : Schedule uriParserStart w l) :
    create w = (performEntries w l ⟨0, [], .ok ⟨none, fresh⟩⟩).st.map fun s => some s.uri := by
  obtain ⟨ts, hexec, hfinal⟩ := hl.execEof_eq tame_uriParserStart hw (performNext w) (.ok ⟨none, fresh⟩)
  rw [create, hexec]
  simp only [hfinal, if_true]
  rfl

/-- A reference with a scheme and an empty port throws, and another one is stored. -/
theorem create_text (hr : r.Derives UriGrammar.host.lang) :
    (r.EmptyPort → create r.text = .error .nullString) ∧
      (¬ r.EmptyPort → create r.text = .ok (some r.stored)) := by
  have hw : r.text ∈ uriParserStart.lang := mem_uriParserStart.mpr ⟨r, hr, rfl⟩
  have hresult : ∃ l, Schedule uriParserStart r.text l ∧
      (r.EmptyPort → (performEntries r.text l ⟨0, [], .ok ⟨none, fresh⟩⟩).st = .error .nullString) ∧
      (¬ r.EmptyPort → ∃ k, (performEntries r.text l ⟨0, [], .ok ⟨none, fresh⟩⟩).st = .ok ⟨k, r.stored⟩) := by
    cases hs : r.scheme with
    | some s =>
      obtain ⟨taken, htaken, hschedule⟩ := exists_schedule_uri hr hs
      have hsplit : r.text = [] ++ (s ++ 58 :: (authorityText r.authority ++ (r.path ++ r.tail))) := by
        simp [Reference.text, hs, before]
      have hbehind : r.text = (s ++ [58]) ++ (authorityText r.authority ++ (r.path ++ r.tail)) := by
        simp [hsplit]
      have hscheme : Stand.Before (performEntries r.text (componentEntries 0 0 saveScheme s) ⟨0, [], .ok ⟨none, fresh⟩⟩)
          (0 + s.length + 1) ⟨none, store saveScheme s fresh⟩ :=
        performEntries_component (.inl rfl) hsplit rfl ⟨.inr rfl, rfl⟩
      have hlast : (performEntries r.text (componentEntries 0 0 saveScheme s) ⟨0, [], .ok ⟨none, fresh⟩⟩).last = 0 + s.length :=
        Progress.visit_last
      have hbody := performEntries_body (n := 2) (m := 10) hr hbehind (p := s.length + 1) (by simp) htaken (by omega)
        (hscheme.2.trans (by rw [hs]; rfl))
      rw [hs, Option.isSome_some] at hbody
      refine ⟨_, hschedule, ?_⟩
      rw [performEntries, List.foldl_append]
      exact hbody
    | none =>
      obtain ⟨first, taken, hfirst, htaken, hschedule⟩ := exists_schedule_relative hr hs
      have hsplit : r.text = [] ++ (authorityText r.authority ++ (r.path ++ r.tail)) := by
        simp [Reference.text, hs, before]
      have hstart : ∃ k, (performEntries r.text first ⟨0, [], .ok ⟨none, fresh⟩⟩).last < 0 + 1 ∧
          (performEntries r.text first ⟨0, [], .ok ⟨none, fresh⟩⟩).st =
            .ok ⟨k, { fresh with scheme := r.scheme.getD [] }⟩ := by
        rw [hs]
        rcases hfirst with rfl | rfl
        · exact ⟨none, Nat.zero_lt_one, rfl⟩
        · exact ⟨some 0, Nat.zero_lt_one, rfl⟩
      obtain ⟨k, hlast, hst⟩ := hstart
      have hbody := performEntries_body (n := 14) (m := 20) hr hsplit rfl htaken hlast hst
      rw [hs, Option.isSome_none] at hbody
      refine ⟨_, hschedule, ?_⟩
      rw [performEntries, List.foldl_append]
      exact hbody
  obtain ⟨l, hschedule, herror, hok⟩ := hresult
  rw [create_eq hw hschedule]
  refine ⟨fun h => by rw [herror h]; rfl, fun h => ?_⟩
  obtain ⟨k, hk⟩ := hok h
  rw [hk]
  rfl

/-- What is created, and from which strings. -/
theorem create_eq_some {u : Uri} : create w = .ok (some u) ↔
    ∃ r : Reference, r.Derives UriGrammar.host.lang ∧ r.text = w ∧ ¬ r.EmptyPort ∧ u = r.stored := by
  constructor
  · intro h
    have hmem : w ∈ uriParserStart.lang := by
      unfold create at h
      obtain ⟨s, _, hs⟩ := Except.exists_of_map_eq_ok h
      split at hs
      · cases hs
      · rename_i ts hcs
        split at hs
        · rename_i hfinal
          exact mem_lang_of_isFinal tame_uriParserStart hcs hfinal
        · cases hs
    obtain ⟨r, hr, rfl⟩ := mem_uriParserStart.mp hmem
    by_cases hempty : r.EmptyPort
    · rw [(create_text hr).1 hempty] at h
      cases h
    · rw [(create_text hr).2 hempty] at h
      exact ⟨r, hr, rfl, hempty, by injection h with h; exact (Option.some.inj h).symm⟩
  · rintro ⟨r, hr, rfl, hempty, rfl⟩
    exact (create_text hr).2 hempty

end Body

end Uri

end Bobliew
