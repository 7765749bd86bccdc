import Bobliew.Uri.Create

/-!
# The components of an accepted string

An accepted string has one reading as a reference, and the getters of the URI that is created from it return the
components of that reading. The two exceptions are user information with a digit behind its first colon, of which
only what stands behind that colon is stored, and a port that does not fit an `int32_t`.
-/

namespace Bobliew

open Ragel Http UriGrammar

/-- The getters of a URI return the components of a reference: empty ones for those that are absent, a slash for
the empty path, and 0 for the port that is absent. -/
structure Reference.Agrees (r : Reference) (u : Uri) : Prop where
  scheme : u.scheme = r.scheme.getD []
  userinfo : u.userinfo = (r.authority.bind (·.userinfo)).getD []
  host : u.host = (r.authority.map (·.host)).getD []
  path : u.getPath = if r.path = [] then asciiText ['/'] else r.path
  query : u.query = r.query.getD []
  fragment : u.fragment = r.fragment.getD []
  port : u.port = ((r.authority.bind (·.port)).map Uri.decimalValue).getD 0

namespace Uri

/-- The number of a port is stored if it fits. -/
theorem storedPort_eq (digits : Bytes) : storedPort digits = decimalValue digits ↔ decimalValue digits < 2 ^ 31 := by
  rw [storedPort, toInt]
  constructor
  · intro h
    have hlt := Int.bmod_lt (x := min (decimalValue digits : ℤ) (2 ^ 63 - 1)) (m := 2 ^ 32) (by decide)
    rw [h] at hlt
    norm_num at hlt ⊢
    exact hlt
  · intro h
    have hmin : min (decimalValue digits : ℤ) (2 ^ 63 - 1) = decimalValue digits := by
      refine min_eq_left ?_
      omega
    rw [hmin]
    exact Int.bmod_eq_of_le (by omega) (by omega)

/-- User information is stored as a whole if no digit stands behind its first colon. -/
theorem storedUserinfo_eq (user : Bytes) : storedUserinfo user = user ↔ digitBehindColon user = false := by
  unfold storedUserinfo
  cases hdigit : digitBehindColon user with
  | false => simp
  | true =>
    obtain ⟨h, _, d, t, rfl, _, hlen⟩ := digitBehindColon_iff.mp hdigit
    simp only [if_true, Bool.true_eq_false, iff_false]
    intro heq
    have hlength := congrArg List.length heq
    rw [List.length_drop, hlen, List.length_append, List.length_cons] at hlength
    omega

/-- A string that is accepted has one reading. Where that has a scheme and an authority, the getters return its
components exactly when no digit stands behind the first colon of the user information and the number of the
port is below 2^31. -/
theorem create_agrees_iff {s : Bytes} {u : Uri} (h : create s = .ok (some u)) :
    ∃ r : Reference, r.Splits ∧ r.text = s ∧ (∀ r' : Reference, r'.Splits → r'.text = s → r' = r) ∧
      (r.scheme.isSome → ∀ a, r.authority = some a →
        (r.Agrees u ↔ (∀ user ∈ a.userinfo, digitBehindColon user = false) ∧
          ∀ port ∈ a.port, decimalValue port < 2 ^ 31)) := by
  obtain ⟨r, hr, rfl, hempty, rfl⟩ := create_eq_some.mp h
  have hsplits := hr.splits host_le_hostShape
  refine ⟨r, hsplits, rfl, fun r' hr' heq => hr'.unique hsplits heq, fun hscheme a ha => ?_⟩
  have hport : a.port ≠ some [] := fun hport => hempty ⟨hscheme, a, ha, hport⟩
  have hstored : r.stored = ⟨r.scheme.getD [], a.userinfo.elim [] storedUserinfo, a.host, r.path, r.query.getD [],
      r.fragment.getD [], a.port.elim 0 fun v => if v = [] then 0 else storedPort v⟩ := by
    simp only [Reference.stored, ha, hscheme, if_true, Authority.store, fresh]
  have huser : a.userinfo.elim [] storedUserinfo = a.userinfo.getD [] ↔
      ∀ user ∈ a.userinfo, digitBehindColon user = false := by
    cases a.userinfo with
    | none => simp
    | some user => simp [storedUserinfo_eq]
  have hnumber : (a.port.elim 0 fun v => if v = [] then 0 else storedPort v) =
    ((a.port.map decimalValue).getD 0 : ℕ) ↔
      ∀ port ∈ a.port, decimalValue port < 2 ^ 31 := by
    cases hv : a.port with
    | none => simp
    | some v =>
      have hne : v ≠ [] := by
        rintro rfl
        exact hport hv
      simp [hne, storedPort_eq]
  rw [hstored, ← huser, ← hnumber]
  constructor
  · intro hagrees
    have huserinfo := hagrees.userinfo
    have hport := hagrees.port
    rw [ha] at huserinfo hport
    exact ⟨huserinfo, hport⟩
  · rintro ⟨huserinfo, hport⟩
    refine ⟨rfl, ?_, ?_, rfl, rfl, rfl, ?_⟩
    · rw [ha]
      exact huserinfo
    · rw [ha]
      rfl
    · rw [ha]
      exact hport

/-- `http://admin@www` is read as its scheme, its user information and its host. -/
theorem create_agrees_admin : ∃ r : Reference, r.Splits ∧
    r.text = asciiText ['h', 't', 't', 'p', ':', '/', '/', 'a', 'd', 'm', 'i', 'n', '@', 'w', 'w', 'w'] ∧
    (r.scheme.isSome → ∀ a, r.authority = some a →
      (r.Agrees ⟨asciiText ['h', 't', 't', 'p'], asciiText ['a', 'd', 'm', 'i', 'n'], asciiText ['w', 'w', 'w'],
          [], [], [], 0⟩ ↔
        (∀ user ∈ a.userinfo, digitBehindColon user = false) ∧ ∀ port ∈ a.port, decimalValue port < 2 ^ 31)) := by
  obtain ⟨r, hsplits, htext, _, hagrees⟩ := create_agrees_iff
    (s := asciiText ['h', 't', 't', 'p', ':', '/', '/', 'a', 'd', 'm', 'i', 'n', '@', 'w', 'w', 'w'])
    (u := ⟨asciiText ['h', 't', 't', 'p'], asciiText ['a', 'd', 'm', 'i', 'n'], asciiText ['w', 'w', 'w'],
      [], [], [], 0⟩) (by decide +kernel)
  exact ⟨r, hsplits, htext, hagrees⟩

/-- `http://u:80@h/`, whose user information is `u:80`. -/
def portLike : Reference :=
  ⟨some (asciiText ['h', 't', 't', 'p']), some ⟨some (asciiText ['u', ':', '8', '0']), asciiText ['h'], none⟩,
    asciiText ['/'], none, none⟩

/-- Of the user information `u:80` only `80` is stored. -/
theorem not_create_agrees : ¬ ∀ (s : Bytes) (u : Uri) (r : Reference), r.Splits → r.text = s → r.scheme.isSome →
    r.authority.isSome → create s = .ok (some u) → r.Agrees u := by
  intro h
  have hcreate : create portLike.text =
    .ok (some ⟨asciiText ['h', 't', 't', 'p'], asciiText ['8', '0'], asciiText ['h'],
      asciiText ['/'], [], [], 0⟩) := by
    decide +kernel
  have hsplits : portLike.Splits := by
    refine ⟨?_, ?_, ?_, ?_, ?_, ?_, ?_⟩
    · rintro _ ⟨⟩
      exact fun c hc => by fin_cases hc <;> decide
    · rintro _ ⟨⟩
      refine ⟨?_, ⟨?_, .inl ?_⟩, by simp⟩
      · rintro _ ⟨⟩
        exact fun c hc => by fin_cases hc <;> decide
      · exact List.forall_mem_singleton.mpr (by decide)
      · exact List.forall_mem_singleton.mpr (by decide)
    · exact List.forall_mem_singleton.mpr (by decide)
    · rintro - _ ⟨⟩
      decide
    · rintro ⟨⟩
    · rintro ⟨⟩
    · rintro _ ⟨⟩
  exact absurd (h _ _ _ hsplits rfl rfl rfl hcreate).userinfo (by decide)

end Uri

end Bobliew
