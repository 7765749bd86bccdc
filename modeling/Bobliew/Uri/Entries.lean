import Bobliew.Http.HeadRuns
import Bobliew.Lib.RagelSchedule
import Bobliew.Uri.Actions

/-!
# What the actions store

The entries of a schedule are performed component by component. A component is stored between the mark of its
beginning and its end. In user information with a digit behind the first colon the mark is moved behind that colon
by the port that it is taken for. An empty port clears the mark, which the path behind it stands on as well: for
a reference with a scheme the string of the path is then made from a null pointer.
-/

namespace Bobliew

open Ragel Http UriGrammar UriAction

/-! ## What is stored -/

namespace Uri

/-- The number that decimal digits stand for. -/
def decimalValue (digits : Bytes) : ℕ :=
  digits.foldl (fun n c => n * 10 + (c.toNat - 48)) 0

/-- The number that is stored for the digits of a port: saturated to a `long`, and converted to an `int`. -/
def storedPort (digits : Bytes) : ℤ :=
  toInt (min (decimalValue digits) (2 ^ 63 - 1))

/-- The part of user information that is stored. -/
def storedUserinfo (u : Bytes) : Bytes :=
  if digitBehindColon u then u.drop (behindColon u) else u

end Uri

/-- The components of an authority in a URI. -/
def Authority.store (a : Authority) (uri : Uri) : Uri :=
  { uri with
    userinfo := a.userinfo.elim uri.userinfo Uri.storedUserinfo
    host := a.host
    port := a.port.elim uri.port fun v => if v = [] then uri.port else Uri.storedPort v }

/-- The components of a reference as they are stored; the path is stored behind an authority only. -/
def Reference.stored (r : Reference) : Uri :=
  let uri := { Uri.fresh with scheme := r.scheme.getD [], query := r.query.getD [], fragment := r.fragment.getD [] }
  match r.authority with
  | none => uri
  | some a => { a.store uri with path := if r.scheme.isSome then r.path else [] }

/-- There is a scheme and the port of the authority is empty. -/
def Reference.EmptyPort (r : Reference) : Prop := r.scheme.isSome ∧ ∃ a ∈ r.authority, a.port = some []

namespace Uri

variable {w : Bytes} {p q : ℕ}

/-! ## Ranges and numbers -/

/-- The text between the mark and the position. -/
theorem marked_eq {pre v rest : Bytes} (hw : w = pre ++ (v ++ rest)) (hp : p = pre.length) (hq : q = p + v.length) :
    marked w q (some p) = .ok v := by
  subst hq hp hw
  have hlen : lenFrom pre.length (pre.length + v.length) = v.length := by
    rw [Nat.add_comm, lenFrom_add]
  rw [marked, hlen, stringAt_middle]

/-- A mark in front of the position yields a text. -/
theorem exists_marked (hpq : p ≤ q) (hq : q ≤ w.length) : ∃ v, marked w q (some p) = .ok v := by
  have hsplit : w = w.take p ++ ((w.drop p).take (q - p) ++ (w.drop p).drop (q - p)) := by
    rw [List.take_append_drop, List.take_append_drop]
  refine ⟨_, marked_eq hsplit ?_ ?_⟩
  · rw [List.length_take]
    omega
  · rw [List.length_take, List.length_drop]
    omega

/-- Digits in front of a byte that is none. -/
theorem digitsFrom_digits {v rest : Bytes} (hv : ∀ c ∈ v, digit.has c = true) (hrest : rest ∈ startingIn [47, 63, 35])
    (n : ℕ) : digitsFrom 10 n (v ++ rest) = v.foldl (fun n c => n * 10 + (c.toNat - 48)) n := by
  induction v generalizing n with
  | nil =>
    cases rest with
    | nil => rfl
    | cons c rest =>
      have hc := hrest c rfl
      have hnone : ∀ d, digitValue c = some d → ¬ d < 10 := by
        fin_cases hc <;> decide
      rw [List.nil_append, digitsFrom]
      split
      · rename_i d hd
        exact if_neg (hnone d hd)
      · rfl
  | cons c v ih =>
    obtain ⟨hc, hv⟩ := List.forall_mem_cons.mp hv
    have hvalue : digitValue c = some (c.toNat - 48) := if_pos hc
    have hlt : c.toNat - 48 < 10 := by
      simp only [digit, ByteSet.has, Bool.and_eq_true, Nat.ble_eq] at hc
      omega
    rw [List.cons_append, digitsFrom, hvalue]
    exact (if_pos hlt).trans (ih hv _)

/-- The bytes of a port. -/
theorem digit_of_mem_port {v : Bytes} (hv : v ∈ Rfc3986.port) : ∀ c ∈ v, digit.has c = true := by
  obtain ⟨ws, rfl, hws⟩ := Language.mem_kstar.mp hv
  intro c hc
  obtain ⟨x, hx, hcx⟩ := List.mem_flatten.mp hc
  obtain ⟨d, hd, rfl⟩ := hws x hx
  rwa [List.mem_singleton.mp hcx]

/-- The number of the digits at the mark. -/
theorem atoi_eq {pre v rest : Bytes} (hw : w = pre ++ (v ++ rest)) (hp : p = pre.length) (hv : v ∈ Rfc3986.port)
    (hrest : rest ∈ startingIn [47, 63, 35]) : atoi w (some p) = .ok (storedPort v) := by
  subst hp hw
  have hdigits := digit_of_mem_port hv
  have hhead : ∀ c, (v ++ rest).head? = some c → isSpace c = false ∧ c ≠ 45 ∧ c ≠ 43 := by
    intro c hc
    cases v with
    | nil =>
      have hmem := hrest c hc
      fin_cases hmem <;> decide
    | cons d v =>
      obtain rfl : d = c := Option.some.inj hc
      have hd := hdigits d List.mem_cons_self
      simp only [digit, ByteSet.has, Bool.and_eq_true, Nat.ble_eq] at hd
      refine ⟨?_, ?_, ?_⟩
      · have hnot : ¬ space.has d = true := by
          simp only [space, ByteSet.has, Bool.or_eq_true, Bool.and_eq_true, Nat.ble_eq]
          omega
        exact Bool.eq_false_iff.mpr hnot
      · rintro rfl
        exact absurd hd (by decide)
      · rintro rfl
        exact absurd hd (by decide)
  have hdrop : (v ++ rest).dropWhile isSpace = v ++ rest := by
    cases h : v ++ rest with
    | nil => rfl
    | cons c t => exact List.dropWhile_cons_of_neg (by simp [(hhead c (by rw [h]; rfl)).1])
  have hminus : (v ++ rest).head? ≠ some 45 := fun h => (hhead 45 h).2.1 rfl
  have hplus : (v ++ rest).head? ≠ some 43 := fun h => (hhead 43 h).2.2 rfl
  have hstrtol : strtol 10 (v ++ rest) = min (decimalValue v : ℤ) (2 ^ 63 - 1) := by
    simp only [strtol, hdrop, hminus, hplus, or_self, if_false]
    rw [if_neg (by decide), digitsFrom_digits hdigits hrest]
    rfl
  rw [atoi, List.drop_left, hstrtol]
  rfl

/-! ## Performing a schedule -/

/-- Where the actions of the machine stand. -/
abbrev Stand := Progress UriAction (Except Fault Parsing)

/-- The entries of a schedule. -/
abbrev Entry := ℕ × ℕ × UriAction

/-- The entries of a schedule are performed. -/
def performEntries (w : Bytes) (l : List Entry) (e : Stand) : Stand := l.foldl (Progress.visit (performNext w)) e

/-- Nothing was performed at the position or behind it, and the variables are these. -/
def Stand.Before (e : Stand) (p : ℕ) (s : Parsing) : Prop := (e.last < p ∨ e.done = []) ∧ e.st = .ok s

/-- The text that is stored by one of the actions that need a mark. -/
def store (a : UriAction) (text : Bytes) (u : Uri) : Uri :=
  match a with
  | .saveScheme => { u with scheme := text }
  | .saveQuery => { u with query := text }
  | .saveFragment => { u with fragment := text }
  | _ => u

/-- The entries of a component between its mark and its end. -/
def componentEntries (p n : ℕ) (a : UriAction) (v : Bytes) : List Entry :=
  [(p, n, marku), (p + v.length, n + 1, a)]

variable {e : Stand} {s : Parsing} {l : List Entry} {n : ℕ} {u : Uri} {m : Option ℕ}

/-- What follows an exception is not performed. -/
theorem performEntries_error {f : Fault} (he : e.st = .error f) : (performEntries w l e).st = .error f := by
  induction l generalizing e with
  | nil => exact he
  | cons x l ih =>
    refine ih ?_
    unfold Progress.visit
    split
    · split
      · exact he
      · simp only [he]
        rfl
    · simp only [he]
      rfl

/-- A component is stored. -/
theorem performEntries_component {a : UriAction} (ha : a = saveScheme ∨ a = saveQuery ∨ a = saveFragment)
    {pre v rest : Bytes} (hw : w = pre ++ (v ++ rest)) (hp : p = pre.length) (he : e.Before p ⟨m, u⟩) :
    (performEntries w (componentEntries p n a v) e).Before (p + v.length + 1) ⟨none, store a v u⟩ := by
  have hne : a ≠ marku := by
    rintro rfl
    simp at ha
  have hnil : p = e.last → e.done = [] := fun h => he.1.resolve_left (by omega)
  have hfirst : (e.visit (performNext w) (p, n, marku)).st = .ok ⟨some p, u⟩ := by
    rw [Progress.visit_st fun h => by rw [hnil h]; exact List.not_mem_nil, he.2]
    rfl
  have hdone : a ∉ (e.visit (performNext w) (p, n, marku)).done := fun hmem =>
    (Progress.mem_visit_done hmem).elim hne fun ⟨h, hmem⟩ => by
      rw [hnil h] at hmem
      cases hmem
  refine ⟨.inl ?_, ?_⟩
  · exact Nat.lt_succ_of_le Progress.visit_last.le
  · refine (Progress.visit_st fun _ => hdone).trans ?_
    rw [hfirst]
    have htext := marked_eq hw hp rfl
    rcases ha with rfl | rfl | rfl
    all_goals
      simp only [performNext, Except.bind, perform, htext]
      rfl

/-- The entries of a query and a fragment. -/
def tailEntries (p n : ℕ) (query fragment : Option Bytes) : List Entry :=
  query.elim [] (componentEntries (p + 1) n saveQuery) ++
    fragment.elim [] (componentEntries (p + (behind 63 query).length + 1) (n + 2) saveFragment)

/-- The query and the fragment are stored. -/
theorem performEntries_tail {query fragment : Option Bytes} {pre : Bytes}
    (hw : w = pre ++ (behind 63 query ++ behind 35 fragment)) (hp : p = pre.length) (he : e.Before (p + 1) ⟨m, u⟩) :
    ∃ m', (performEntries w (tailEntries p n query fragment) e).st =
      .ok ⟨m', { u with query := query.getD u.query, fragment := fragment.getD u.fragment }⟩ := by
  have hquery : ∃ m', (performEntries w (query.elim [] (componentEntries (p + 1) n saveQuery)) e).Before
      (p + (behind 63 query).length + 1) ⟨m', { u with query := query.getD u.query }⟩ := by
    cases query with
    | none => exact ⟨m, he⟩
    | some v =>
      have hsplit : w = (pre ++ [63]) ++ (v ++ behind 35 fragment) := by
        simp [hw, behind]
      have hstored := performEntries_component (n := n) (a := saveQuery) (by simp) hsplit (by simp [hp]) he
      refine ⟨none, ?_⟩
      have hlen : p + (behind 63 (some v)).length + 1 = p + 1 + v.length + 1 := by
        simp only [behind, Option.elim_some, List.length_cons]
        omega
      rw [hlen]
      exact hstored
  obtain ⟨m', hquery⟩ := hquery
  rw [tailEntries, performEntries, List.foldl_append]
  cases fragment with
  | none => exact ⟨m', hquery.2⟩
  | some v =>
    have hsplit : w = (pre ++ (behind 63 query ++ [35])) ++ (v ++ []) := by
      simp [hw, behind]
    have hstored := performEntries_component (n := n + 2) (a := saveFragment) (by simp) hsplit
      (by simp [hp, Nat.add_assoc]) hquery
    exact ⟨none, hstored.2⟩

/-- The entries of an optional port. -/
def portEntries (p n : ℕ) (port : Option Bytes) : List Entry :=
  port.elim [] fun v => [(p + 1, n, markh), (p + 1 + v.length, n + 1, savePort)]

/-- Where the actions stand at the end of an authority. -/
structure Stand.AuthorityEnd (e : Stand) (port : Option Bytes) (p : ℕ) (u : Uri) : Prop where
  last : e.last = p
  path : savePath ∉ e.done
  emptyPort : port = some [] → e.st = .ok ⟨none, u⟩ ∧ markh ∈ e.done
  mark : port ≠ some [] → ∃ m, e.st = .ok ⟨m, u⟩ ∧ (markh ∈ e.done → m = some p)

/-- The host and the port are stored, from the mark at the beginning of the host on. -/
theorem performEntries_hostPort {h : Bytes} {port : Option Bytes} {pre rest : Bytes}
    (hw : w = pre ++ (h ++ (behind 58 port ++ rest))) (hp : p = pre.length) (hport : ∀ v ∈ port, v ∈ Rfc3986.port)
    (hrest : rest ∈ startingIn [47, 63, 35]) :
    Stand.AuthorityEnd (performEntries w ((p + h.length, n, saveHost) :: portEntries (p + h.length) (n + 1) port)
      ⟨p, [markh], .ok ⟨some p, u⟩⟩) port (p + h.length + (behind 58 port).length)
      { u with host := h, port := port.elim u.port fun v => if v = [] then u.port else storedPort v } := by
  have hhost : performNext w (p + h.length) saveHost (.ok ⟨some p, u⟩) = .ok ⟨some p, { u with host := h }⟩ := by
    have htext := marked_eq hw hp rfl
    simp only [performNext, Except.bind, perform, htext]
    rfl
  obtain ⟨done, hvisit, hdone⟩ : ∃ done, Progress.visit (performNext w) ⟨p, [markh], .ok ⟨some p, u⟩⟩
      (p + h.length, n, saveHost) = ⟨p + h.length, done, .ok ⟨some p, { u with host := h }⟩⟩ ∧
      ∀ a ∈ done, a = saveHost ∨ a = markh ∧ h = [] := by
    cases h with
    | nil =>
      rw [List.length_nil, Nat.add_zero] at hhost ⊢
      refine ⟨[saveHost, markh], ?_, by simp⟩
      rw [Progress.visit_of_not_mem rfl (by simp)]
      simp only [hhost]
    | cons c h =>
      refine ⟨[saveHost], ?_, by simp⟩
      rw [Progress.visit_of_ne (by simp)]
      simp only [hhost]
  rw [performEntries, List.foldl_cons, hvisit]
  cases port with
  | none =>
    refine ⟨rfl, fun hmem => ?_, by simp, fun _ => ⟨some p, rfl, fun hmem => ?_⟩⟩
    · rcases hdone _ hmem with h | ⟨h, _⟩ <;> cases h
    · rcases hdone _ hmem with h | ⟨_, rfl⟩
      · cases h
      · rfl
  | some v =>
    have hlen : p + h.length + (behind 58 (some v)).length = p + h.length + 1 + v.length := by
      simp only [behind, Option.elim_some, List.length_cons]
      omega
    have hmark : Progress.visit (performNext w) ⟨p + h.length, done, .ok ⟨some p, { u with host := h }⟩⟩
        (p + h.length + 1, n + 1, markh) =
        ⟨p + h.length + 1, [markh], .ok ⟨some (p + h.length + 1), { u with host := h }⟩⟩ :=
      Progress.visit_of_ne (Nat.succ_ne_self _)
    rw [hlen, portEntries, Option.elim_some, List.foldl_cons, hmark]
    cases v with
    | nil =>
      rw [List.length_nil, Nat.add_zero, List.foldl_cons, List.foldl_nil, Progress.visit_of_not_mem rfl (by simp)]
      exact ⟨rfl, by simp, fun _ => ⟨if_pos rfl, by simp⟩, by simp⟩
    | cons c v =>
      have hsplit : w = (pre ++ (h ++ [58])) ++ (c :: v ++ rest) := by
        simp [hw, behind]
      have hnumber : atoi w (some (p + h.length + 1)) = .ok (storedPort (c :: v)) :=
        atoi_eq hsplit (by simp [hp, Nat.add_assoc]) (hport _ rfl) hrest
      have hsave : performNext w (p + h.length + 1 + (c :: v).length) savePort
          (.ok ⟨some (p + h.length + 1), { u with host := h }⟩) =
          .ok ⟨none, { u with host := h, port := storedPort (c :: v) }⟩ := by
        have hne : ¬ some (p + h.length + 1) = some (p + h.length + 1 + (c :: v).length) := by simp
        simp only [performNext, Except.bind, perform, if_neg hne, hnumber]
        rfl
      rw [List.foldl_cons, List.foldl_nil, Progress.visit_of_ne (by simp)]
      simp only [hsave]
      exact ⟨rfl, by simp, by simp, fun _ => ⟨none, rfl, by simp⟩⟩

/-- The entries of a path behind an authority. -/
def pathEntries (p n : ℕ) (path : Bytes) : List Entry :=
  [(p, n, markh), (p + path.length, n + 1, savePath)]

/-- The path is stored, unless the port has cleared the mark that the beginning of the path does not set again. -/
theorem performEntries_path {port : Option Bytes} {pre v rest : Bytes} (hw : w = pre ++ (v ++ rest))
    (hp : p = pre.length) (he : e.AuthorityEnd port p u) :
    (port = some [] → (performEntries w (pathEntries p n v) e).st = .error .nullString) ∧
      (port ≠ some [] →
        (performEntries w (pathEntries p n v) e).Before (p + v.length + 1) ⟨none, { u with path := v }⟩) := by
  have hdone : savePath ∉ (e.visit (performNext w) (p, n, markh)).done := fun hmem =>
    (Progress.mem_visit_done hmem).elim (by simp) fun ⟨_, hmem⟩ => he.path hmem
  have hsave : (performEntries w (pathEntries p n v) e).st =
      performNext w (p + v.length) savePath (e.visit (performNext w) (p, n, markh)).st :=
    Progress.visit_st fun _ => hdone
  constructor
  · intro hempty
    obtain ⟨hst, hmem⟩ := he.emptyPort hempty
    rw [hsave, Progress.visit_of_mem he.last.symm hmem, hst]
    rfl
  · intro hport
    obtain ⟨m, hst, hmark⟩ := he.mark hport
    have hmarked : (e.visit (performNext w) (p, n, markh)).st = .ok ⟨some p, u⟩ := by
      by_cases hmem : markh ∈ e.done
      · rw [Progress.visit_of_mem he.last.symm hmem, hst, hmark hmem]
      · rw [Progress.visit_of_not_mem he.last.symm hmem, hst]
        rfl
    refine ⟨.inl (Nat.lt_succ_of_le Progress.visit_last.le), ?_⟩
    have htext := marked_eq hw hp rfl
    rw [hsave, hmarked]
    simp only [performNext, Except.bind, perform, htext]
    rfl

/-! ## User information -/

/-- Where the actions stand while user information is taken for a host and a port, with the last mark. -/
structure Stand.Taking (e : Stand) (m : ℕ) (u : Uri) : Prop where
  st : ∃ h, e.st = .ok ⟨some m, { u with host := h }⟩
  mark : e.last ≠ m → markh ∉ e.done
  userinfo : saveUserinfo ∉ e.done

/-- A mark is moved. -/
theorem Stand.Taking.move {m : ℕ} (he : e.Taking m u) :
    Stand.Taking (e.visit (performNext w) (q, n, markh)) q u where
  st := by
    obtain ⟨h, hst⟩ := he.st
    refine ⟨h, ?_⟩
    by_cases hmem : q = e.last ∧ markh ∈ e.done
    · have hm : e.last = m := by
        by_contra hne
        exact he.mark hne hmem.2
      rw [Progress.visit_of_mem hmem.1 hmem.2, hst, ← hm, hmem.1]
    · rw [Progress.visit_st fun hq hdone => hmem ⟨hq, hdone⟩, hst]
      rfl
  mark hne := absurd Progress.visit_last hne
  userinfo hmem := (Progress.mem_visit_done hmem).elim (by simp) fun h => he.userinfo h.2

/-- A host is stored that is replaced later. -/
theorem Stand.Taking.host {m : ℕ} (he : e.Taking m u) (hle : m ≤ q) (hq : q ≤ w.length) :
    Stand.Taking (e.visit (performNext w) (q, n, saveHost)) m u where
  st := by
    obtain ⟨h, hst⟩ := he.st
    by_cases hmem : q = e.last ∧ saveHost ∈ e.done
    · rw [Progress.visit_of_mem hmem.1 hmem.2]
      exact ⟨h, hst⟩
    · rw [Progress.visit_st fun hq hdone => hmem ⟨hq, hdone⟩, hst]
      obtain ⟨text, htext⟩ := exists_marked hle hq
      refine ⟨text, ?_⟩
      simp only [performNext, Except.bind, perform, htext]
      rfl
  mark hne hmem := by
    rw [Progress.visit_last] at hne
    rcases Progress.mem_visit_done hmem with h | ⟨hlast, hdone⟩
    · cases h
    · exact he.mark (hlast ▸ hne) hdone
  userinfo hmem := (Progress.mem_visit_done hmem).elim (by simp) fun h => he.userinfo h.2

/-- Behind all of it the mark is the last one. -/
theorem Stand.Taking.performEntries {m : ℕ} (he : e.Taking m u) (hl : l.Pairwise Earlier)
    (hmem : ∀ x ∈ l, m ≤ x.1 ∧ x.1 ≤ w.length ∧ (x.2.2 = markh ∨ x.2.2 = saveHost)) :
    ∃ m', (performEntries w l e).Taking m' u ∧ m ≤ m' ∧ (m' = m ∨ ∃ i, (m', i, markh) ∈ l) ∧
      ∀ q i, (q, i, markh) ∈ l → q ≤ m' := by
  induction l generalizing e m with
  | nil => exact ⟨m, he, le_rfl, .inl rfl, by simp⟩
  | cons x l ih =>
    obtain ⟨q, i, a⟩ := x
    obtain ⟨hx, hrest⟩ := List.pairwise_cons.mp hl
    obtain ⟨⟨hle, hq, ha⟩, hmemRest⟩ := List.forall_mem_cons.mp hmem
    rcases ha with ha | ha
    · obtain rfl : a = markh := ha
      obtain ⟨m', hm', hqm, hlast, hall⟩ := ih (he.move (w := w) (n := i)) hrest fun y hy =>
        ⟨(hx y hy).elim (fun h => h.le) fun h => h.1.le, (hmemRest y hy).2⟩
      refine ⟨m', hm', hle.trans hqm, .inr ?_, fun q' i' h => ?_⟩
      · rcases hlast with rfl | ⟨i', hi'⟩
        · exact ⟨i, List.mem_cons_self⟩
        · exact ⟨i', List.mem_cons_of_mem _ hi'⟩
      · rcases List.mem_cons.mp h with heq | h
        · obtain ⟨rfl, _⟩ := Prod.mk.inj heq
          exact hqm
        · exact hall q' i' h
    · obtain rfl : a = saveHost := ha
      obtain ⟨m', hm', hqm, hlast, hall⟩ := ih (he.host (w := w) (n := i) hle hq) hrest hmemRest
      refine ⟨m', hm', hqm, hlast.imp_right fun ⟨i', hi'⟩ => ⟨i', List.mem_cons_of_mem _ hi'⟩, fun q' i' h => ?_⟩
      rcases List.mem_cons.mp h with heq | h
      · simp at heq
      · exact hall q' i' h

/-- What is performed while user information at a position is taken for a host and a port. -/
structure TakenEntries (p n : ℕ) (user : Bytes) (l : List Entry) : Prop where
  sorted : l.Pairwise Earlier
  mem : ∀ q x, (q, x) ∈ l → p ≤ q ∧ q < p + user.length ∧ (q = p ∧ x = (n, markh) ∨ x = (n + 1, saveHost) ∨
    digitBehindColon user = true ∧ q = p + behindColon user ∧ x = (n + 2, markh))
  digit : digitBehindColon user = true → (p + behindColon user, n + 2, markh) ∈ l

/-- The user information is stored from behind its first colon on if a digit stands there. -/
theorem performEntries_userinfo {user : Bytes} {pre rest : Bytes} (hw : w = pre ++ (user ++ 64 :: rest))
    (hp : p = pre.length) (hl : TakenEntries p n user l) {i j : ℕ} :
    ∃ h, performEntries w (l ++ [(p + user.length, i, saveUserinfo), (p + user.length + 1, j, markh)])
        ⟨p, [markh], .ok ⟨some p, u⟩⟩ = ⟨p + user.length + 1, [markh],
          .ok ⟨some (p + user.length + 1), { u with host := h, userinfo := storedUserinfo user }⟩⟩ := by
  have hlen : w.length = p + (user.length + (rest.length + 1)) := by
    rw [hw, hp, List.length_append, List.length_append, List.length_cons]
  have hstart : Stand.Taking ⟨p, [markh], .ok ⟨some p, u⟩⟩ p u := ⟨⟨u.host, rfl⟩, fun h => absurd rfl h, by simp⟩
  obtain ⟨m, hm, hle, hlast, hall⟩ := hstart.performEntries (w := w) hl.sorted fun x hx => by
    obtain ⟨hge, hlt, hcases⟩ := hl.mem x.1 x.2 hx
    refine ⟨hge, by omega, ?_⟩
    rcases hcases with ⟨_, h⟩ | h | ⟨_, _, h⟩
    · exact .inl (congrArg Prod.snd h)
    · exact .inr (congrArg Prod.snd h)
    · exact .inl (congrArg Prod.snd h)
  have hmark : m = p + (user.length - (storedUserinfo user).length) ∧
      user = user.take (m - p) ++ storedUserinfo user := by
    have hcases : m = p ∨ digitBehindColon user = true ∧ m = p + behindColon user ∧ m < p + user.length := by
      rcases hlast with h | ⟨_, hi⟩
      · exact .inl h
      · obtain ⟨_, hlt, ⟨h, _⟩ | h | ⟨hdigit, h, _⟩⟩ := hl.mem _ _ hi
        · exact .inl h
        · simp at h
        · exact .inr ⟨hdigit, h, hlt⟩
    by_cases hdigit : digitBehindColon user = true
    · have hge := hall _ _ (hl.digit hdigit)
      have hpos : 0 < behindColon user := Nat.succ_pos _
      obtain ⟨_, rfl, hlt⟩ := hcases.resolve_left (by omega)
      rw [storedUserinfo, if_pos hdigit, List.length_drop, Nat.add_sub_cancel_left, List.take_append_drop]
      exact ⟨by omega, rfl⟩
    · obtain rfl := hcases.resolve_right fun h => hdigit h.1
      rw [storedUserinfo, if_neg hdigit, Nat.sub_self, Nat.sub_self]
      exact ⟨rfl, rfl⟩
  obtain ⟨hpos, hsplit⟩ := hmark
  have hshort : (storedUserinfo user).length ≤ user.length := by
    rw [storedUserinfo]
    split
    · rw [List.length_drop]
      omega
    · exact le_rfl
  obtain ⟨h, hst⟩ := hm.st
  refine ⟨h, ?_⟩
  have htext : marked w (p + user.length) (some m) = .ok (storedUserinfo user) := by
    have htext : w = (pre ++ user.take (m - p)) ++ (storedUserinfo user ++ 64 :: rest) := by
      rw [hw, List.append_assoc, ← List.append_assoc (user.take _), ← hsplit]
    refine marked_eq htext ?_ (by omega)
    rw [List.length_append, List.length_take]
    omega
  have hsave : (Progress.visit (performNext w) (performEntries w l ⟨p, [markh], .ok ⟨some p, u⟩⟩)
      (p + user.length, i, saveUserinfo)).st =
        .ok ⟨none, { u with host := h, userinfo := storedUserinfo user }⟩ := by
    rw [Progress.visit_st fun _ => hm.userinfo, hst]
    simp only [performNext, Except.bind, perform, Option.isSome_some, if_true, htext]
    rfl
  have hnext : ∀ e' : Stand, e'.last = p + user.length →
      e'.st = .ok ⟨none, { u with host := h, userinfo := storedUserinfo user }⟩ →
      e'.visit (performNext w) (p + user.length + 1, j, markh) = ⟨p + user.length + 1, [markh],
        .ok ⟨some (p + user.length + 1), { u with host := h, userinfo := storedUserinfo user }⟩⟩ := by
    intro e' he' hst'
    rw [Progress.visit_of_ne (he' ▸ Nat.succ_ne_self _), hst']
    rfl
  rw [performEntries, List.foldl_append]
  exact hnext _ Progress.visit_last hsave

/-- What is performed while user information is taken for a host and a port has a schedule. -/
theorem exists_takenEntries {user : Bytes} (huser : user ∈ Rfc3986.userinfo) (p n : ℕ) (rest : Bytes) :
    ∃ l, TakenEntries p n user l ∧
      ∀ q x, (q, x) ∈ l ↔ ∃ i, q = p + i ∧ (hostPort n).Acts (user ++ 64 :: rest) i x := by
  have hstamps : [(n, markh), (n + 1, saveHost), (n + 2, markh)].Pairwise fun x y => x.1 < y.1 := by simp
  obtain ⟨l, hsorted, hmem⟩ := exists_sorted hstamps
    (P := fun q x => ∃ i, q = p + i ∧ (hostPort n).Acts (user ++ 64 :: rest) i x) (n := p + user.length) <| by
    rintro q x ⟨i, rfl, h⟩
    obtain ⟨hlt, hcases⟩ := acts_taken huser h
    refine ⟨by omega, ?_⟩
    rcases hcases with ⟨_, rfl⟩ | rfl | ⟨_, _, rfl⟩ <;> simp
  refine ⟨l, ⟨hsorted, fun q x hx => ?_, fun hdigit => ?_⟩, hmem⟩
  · obtain ⟨i, rfl, h⟩ := (hmem q x).mp hx
    obtain ⟨hlt, hcases⟩ := acts_taken huser h
    refine ⟨by omega, by omega, ?_⟩
    rcases hcases with ⟨rfl, heq⟩ | heq | ⟨hdigit, rfl, heq⟩
    · exact .inl ⟨rfl, heq⟩
    · exact .inr (.inl heq)
    · exact .inr (.inr ⟨hdigit, rfl, heq⟩)
  · exact (hmem _ _).mpr ⟨_, rfl, acts_taken_digit huser hdigit⟩

/-! ## Authorities -/

/-- The entries of an authority, with those of its user information taken for a host and a port. -/
def authorityEntries (p n : ℕ) (taken : List Entry) (a : Authority) : List Entry :=
  (p, n, markh) :: (a.userinfo.elim [] (fun user => taken ++ [(p + user.length, n + 1, saveUserinfo)]) ++
    (p + (before 64 a.userinfo).length, n + 2, markh) ::
      (p + (before 64 a.userinfo).length + a.host.length, n + 3, saveHost) ::
        portEntries (p + (before 64 a.userinfo).length + a.host.length) (n + 4) a.port)

section Authorities

variable {a : Authority} {taken : List Entry}

/-- The authority is stored. -/
theorem performEntries_authority {pre rest : Bytes} (hw : w = pre ++ (a.text ++ rest)) (hp : p = pre.length)
    (hport : ∀ v ∈ a.port, v ∈ Rfc3986.port) (hrest : rest ∈ startingIn [47, 63, 35])
    (htaken : ∀ user ∈ a.userinfo, TakenEntries p (n + 2) user taken) (hlast : e.last < p) (hst : e.st = .ok ⟨m, u⟩) :
    Stand.AuthorityEnd (performEntries w (authorityEntries p n taken a) e) a.port (p + a.text.length) (a.store u) := by
  obtain ⟨user, host, port⟩ := a
  have hfirst : e.visit (performNext w) (p, n, markh) = ⟨p, [markh], .ok ⟨some p, u⟩⟩ := by
    rw [Progress.visit_of_ne hlast.ne', hst]
    rfl
  rw [performEntries, authorityEntries, List.foldl_cons, hfirst]
  cases user with
  | none =>
    have hagain : Progress.visit (performNext w) ⟨p, [markh], .ok ⟨some p, u⟩⟩ (p, n + 2, markh) =
        ⟨p, [markh], .ok ⟨some p, u⟩⟩ := Progress.visit_of_mem rfl (by simp)
    have hsplit : w = pre ++ (host ++ (behind 58 port ++ rest)) := by
      simp [hw, Authority.text, before]
    have hend := performEntries_hostPort (n := n + 3) (u := u) hsplit hp hport hrest
    have hlen : p + (Authority.text ⟨none, host, port⟩).length = p + host.length + (behind 58 port).length := by
      simp [Authority.text, before, Nat.add_assoc]
    rw [hlen]
    refine Eq.mpr (congrArg (fun e => Stand.AuthorityEnd e port _ _) ?_) hend
    exact congrArg (performEntries w _) hagain
  | some user =>
    have hsplit : w = pre ++ (user ++ 64 :: (host ++ (behind 58 port ++ rest))) := by
      simp [hw, Authority.text, before]
    obtain ⟨h, huser⟩ := performEntries_userinfo (u := u) hsplit hp (htaken user rfl) (i := n + 1) (j := n + 2)
    have hbehind : w = (pre ++ (user ++ [64])) ++ (host ++ (behind 58 port ++ rest)) := by
      simp [hsplit]
    have hend := performEntries_hostPort (p := p + user.length + 1) (n := n + 3)
      (u := { u with host := h, userinfo := storedUserinfo user }) hbehind (by simp [hp, Nat.add_assoc]) hport hrest
    have hlen : p + (Authority.text ⟨some user, host, port⟩).length =
        p + user.length + 1 + host.length + (behind 58 port).length := by
      simp only [Authority.text, before, Option.elim_some, List.length_append, List.length_singleton]
      omega
    have hbefore : p + (before 64 (some user)).length = p + user.length + 1 := by
      simp [before, Nat.add_assoc]
    rw [hlen]
    refine Eq.mpr (congrArg (fun e => Stand.AuthorityEnd e port _ _) ?_) hend
    rw [← huser, performEntries, performEntries, ← List.foldl_append]
    refine congrArg (fun l => List.foldl _ _ l) ?_
    simp only [Option.elim_some, hbefore, List.append_assoc, List.cons_append, List.nil_append]

end Authorities

end Uri

end Bobliew
