import Bobliew.Http.RequestParser

/-!
# Tokens and read boundaries

When a head arrives in several reads, the parser works on one read at a time and its offsets restart at
zero with each of them. Of a token that ends in some read it therefore finds what that read holds: the
token from its start or from the start of the read, whichever is later. A query is different, since the
offset of its start survives and is applied to the later read.

The definitions here describe what is found by positions in the whole head only: where the read of a
position starts and ends, and the part of a token between two positions.
-/

namespace Bobliew.Http

/-- The bytes from position `a` up to position `b`. -/
def slice (r : Bytes) (a b : ℕ) : Bytes :=
  (r.drop a).take (b - a)

/-- Where the read that holds a position starts. -/
def readStart : List Bytes → ℕ → ℕ
  | [], _ => 0
  | read :: reads, p => if p < read.length then 0 else read.length + readStart reads (p - read.length)

/-- Where the read that holds a position ends. -/
def readEnd : List Bytes → ℕ → ℕ
  | [], _ => 0
  | read :: reads, p =>
    if p < read.length then read.length else read.length + readEnd reads (p - read.length)

/-- A token and the byte that ends it are in one read. -/
def Uncut (reads : List Bytes) (a b : ℕ) : Prop :=
  readStart reads a = readStart reads b

instance (reads : List Bytes) (a b : ℕ) : Decidable (Uncut reads a b) :=
  inferInstanceAs (Decidable (readStart reads a = readStart reads b))

section Positions

variable {done rest : List Bytes} {read : Bytes} {p : ℕ}

/-- The read of a position in the middle of a list of reads. -/
theorem readStart_append (hp : p < read.length) :
    readStart (done ++ read :: rest) (done.flatten.length + p) = done.flatten.length := by
  induction done with
  | nil => simp [readStart, hp]
  | cons d done ih =>
    simp only [List.cons_append, List.flatten_cons, List.length_append, readStart]
    rw [if_neg (by omega), show d.length + done.flatten.length + p - d.length = done.flatten.length + p by omega,
      ih]

/-- The end of a read in the middle of a list of reads. -/
theorem readEnd_append (hp : p < read.length) :
    readEnd (done ++ read :: rest) (done.flatten.length + p) = done.flatten.length + read.length := by
  induction done with
  | nil => simp [readEnd, hp]
  | cons d done ih =>
    simp only [List.cons_append, List.flatten_cons, List.length_append, readEnd]
    rw [if_neg (by omega), show d.length + done.flatten.length + p - d.length = done.flatten.length + p by omega,
      ih, Nat.add_assoc]

/-- A read starts at or before the positions it holds. -/
theorem readStart_le (reads : List Bytes) (p : ℕ) : readStart reads p ≤ p := by
  induction reads generalizing p with
  | nil => exact Nat.zero_le p
  | cons read reads ih =>
    rw [readStart]
    split
    · exact Nat.zero_le p
    · have := ih (p - read.length)
      omega

/-- A read that starts later does so behind the earlier position. -/
theorem lt_readStart {reads : List Bytes} {a b : ℕ} (hab : a ≤ b)
    (hne : readStart reads a ≠ readStart reads b) :
    readStart reads a < readStart reads b ∧ a < readStart reads b := by
  induction reads generalizing a b with
  | nil => exact absurd rfl hne
  | cons read reads ih =>
    simp only [readStart] at hne ⊢
    split at hne
    · rename_i ha
      rw [if_pos ha]
      split at hne
      · exact absurd rfl hne
      · rename_i hb
        rw [if_neg hb]
        omega
    · rename_i ha
      have hb : ¬b < read.length := by omega
      rw [if_neg hb] at hne
      rw [if_neg ha, if_neg hb]
      have := ih (a := a - read.length) (b := b - read.length) (by omega) (by omega)
      omega

end Positions

section Slices

variable {r : Bytes} {a b : ℕ}

/-- The length of a part. -/
theorem length_slice (hab : a ≤ b) (hb : b ≤ r.length) : (slice r a b).length = b - a := by
  rw [slice, List.length_take, List.length_drop]
  omega

/-- A range of a read is a part of the whole. -/
theorem slice_read {done read rest : Bytes} (hb : b ≤ read.length) :
    slice read a b = slice (done ++ read ++ rest) (done.length + a) (done.length + b) := by
  have hdrop : (done ++ read ++ rest).drop (done.length + a) = (read ++ rest).drop a := by
    rw [List.append_assoc, List.drop_append]
    simp
  unfold slice
  rw [hdrop, Nat.add_sub_add_left]
  by_cases ha : a ≤ read.length
  · rw [List.drop_append_of_le_length ha, List.take_append_of_le_length (by simp; omega)]
  · rw [show b - a = 0 by omega, List.take_zero, List.take_zero]

end Slices

/-! ## What is found of the tokens -/

section Found

variable (r : Bytes) (reads : List Bytes)

/-- Where the part of a token starts that the read of its end holds. -/
def foundFrom (x : ℕ × ℕ) : ℕ :=
  max x.1 (readStart reads x.2)

/-- The part of a token that the read of its end holds. -/
def foundText (x : ℕ × ℕ) : Bytes :=
  slice r (foundFrom reads x) x.2

/-- The method looked up where the rest of the method token starts, in what its read holds. -/
def foundMethod (x : ℕ × ℕ) : Option HttpMethod :=
  charsToHttpMethod (slice r (foundFrom reads x) (readEnd reads x.2))

/-- The version that the rest of the version token is compared with. -/
def foundVersion (x : ℕ × ℕ) : Option ℕ :=
  requestVersion (foundText r reads x) (x.2 - foundFrom reads x)

/-- The text between the offset at which the query began in its own read, applied to the read of its
end, and that end; none when the offset lies behind the end. -/
def foundQuery (x : ℕ × ℕ) : Option Bytes :=
  if x.1 - readStart reads x.1 ≤ x.2 - readStart reads x.2 then
    some (slice r (readStart reads x.2 + (x.1 - readStart reads x.1)) x.2)
  else none

/-- A header field by the positions of its name and of its value. -/
structure FieldToken where
  name : ℕ × ℕ
  value : ℕ × ℕ

/-- The parts of the name and of the value that the read of the end of the value holds. -/
def foundField (x : FieldToken) : Bytes × Bytes :=
  (slice r (max x.name.1 (readStart reads x.value.2)) (max x.name.2 (readStart reads x.value.2)),
    foundText r reads x.value)

/-- The header map built from fields one after the other; a field without a name is dropped. -/
def storedHeaders (fields : List (Bytes × Bytes)) (m : HeaderMap) : HeaderMap :=
  fields.foldl (fun m x => if x.1 = [] then m else m.set x.1 x.2) m

end Found

namespace Callback

/-- The method token of a callback. -/
def method? : Callback → Option (ℕ × ℕ)
  | .requestMethod start length => some (start, start + length)
  | _ => none

/-- The path token of a callback. -/
def path? : Callback → Option (ℕ × ℕ)
  | .requestPath start length => some (start, start + length)
  | _ => none

/-- The query token of a callback. -/
def query? : Callback → Option (ℕ × ℕ)
  | .queryString start length => some (start, start + length)
  | _ => none

/-- The fragment token of a callback. -/
def fragment? : Callback → Option (ℕ × ℕ)
  | .fragment start length => some (start, start + length)
  | _ => none

/-- The version token of a callback. -/
def version? : Callback → Option (ℕ × ℕ)
  | .httpVersion start length => some (start, start + length)
  | _ => none

/-- The header field of a callback. -/
def field? : Callback → Option FieldToken
  | .httpField field flen value vlen => some ⟨(field, field + flen), (value, value + vlen)⟩
  | _ => none

end Callback

/-- Store what is found of the token of a callback; `none` when its callback throws. -/
def store (r : Bytes) (reads : List Bytes) (p : HttpRequestParser) : Callback → Option HttpRequestParser
  | .requestMethod start length =>
    some (match foundMethod r reads (start, start + length) with
      | none => { p with error := 1000 }
      | some m => { p with data := { p.data with method := m } })
  | .requestPath start length =>
    some { p with data := { p.data with path := foundText r reads (start, start + length) } }
  | .queryString start length =>
    (foundQuery r reads (start, start + length)).map fun s => { p with data := { p.data with query := s } }
  | .fragment start length =>
    some { p with data := { p.data with fragment := foundText r reads (start, start + length) } }
  | .httpVersion start length =>
    some (match foundVersion r reads (start, start + length) with
      | none => { p with error := 1001 }
      | some v => { p with data := { p.data with version := v } })
  | .httpField field flen value vlen =>
    let x := foundField r reads ⟨(field, field + flen), (value, value + vlen)⟩
    some (if x.1 = [] then p else { p with data := p.data.setHeader x.1 x.2 })
  | .requestUri _ _ => some p
  | .headerDone _ _ => some p

/-! ## What is stored of a list of tokens -/

/-- The value of the last token, if there is one. -/
def lastOr {A B : Type} (d : B) (f : A → B) (l : List A) : B :=
  (l.getLast?.map f).getD d

/-- The value of the last of one token and more. -/
theorem lastOr_cons {A B : Type} (d : B) (f : A → B) (x : A) (l : List A) :
    lastOr d f (x :: l) = lastOr (f x) f l := by
  cases h : l.getLast? <;> simp [lastOr, List.getLast?_cons, h]

/-- A request assembled from what is found of the tokens, starting from another one. -/
structure Assembled (r : Bytes) (reads : List Bytes) (calls : List Callback) (p p' : HttpRequestParser) :
    Prop where
  queryFound : ∀ x ∈ calls.filterMap Callback.query?, (foundQuery r reads x).isSome
  error : p'.error = 0 ↔ p.error = 0 ∧
    (∀ x ∈ calls.filterMap Callback.method?, (foundMethod r reads x).isSome) ∧
      ∀ x ∈ calls.filterMap Callback.version?, (foundVersion r reads x).isSome
  method : (∀ x ∈ calls.filterMap Callback.method?, (foundMethod r reads x).isSome) →
    some p'.data.method = lastOr (some p.data.method) (foundMethod r reads) (calls.filterMap Callback.method?)
  version : (∀ x ∈ calls.filterMap Callback.version?, (foundVersion r reads x).isSome) →
    some p'.data.version =
      lastOr (some p.data.version) (foundVersion r reads) (calls.filterMap Callback.version?)
  path : p'.data.path = lastOr p.data.path (foundText r reads) (calls.filterMap Callback.path?)
  query : some p'.data.query =
    lastOr (some p.data.query) (foundQuery r reads) (calls.filterMap Callback.query?)
  fragment : p'.data.fragment = lastOr p.data.fragment (foundText r reads) (calls.filterMap Callback.fragment?)
  headers : p'.data.headers =
    storedHeaders ((calls.filterMap Callback.field?).map (foundField r reads)) p.data.headers

section Assembled

variable {r : Bytes} {reads : List Bytes} {calls : List Callback} {p p' : HttpRequestParser}

/-- All tokens are found when the first one is and the others are. -/
theorem forall_found_cons {A B : Type} {found : A → Option B} {x : A} {l : List A} {y : B} (h : found x = some y) :
    (∀ z ∈ x :: l, (found z).isSome) ↔ ∀ z ∈ l, (found z).isSome := by
  rw [List.forall_mem_cons, h]
  exact and_iff_right rfl

/-- Not all tokens are found when the first one is not. -/
theorem not_forall_found_cons {A B : Type} {found : A → Option B} {x : A} {l : List A} (h : found x = none) :
    ¬∀ z ∈ x :: l, (found z).isSome := by
  rw [List.forall_mem_cons, h]
  exact fun hall => absurd hall.1 Bool.false_ne_true

/-- What is assembled from the parser that a stored token leaves is assembled with that token in front. -/
theorem Assembled.cons {cb : Callback} {p₁ : HttpRequestParser} (hstore : store r reads p cb = some p₁)
    (h : Assembled r reads calls p₁ p') : Assembled r reads (cb :: calls) p p' := by
  obtain ⟨hqf, herr, hm, hv, hp, hq, hf, hh⟩ := h
  cases cb with
  | requestUri start length =>
    cases hstore
    exact ⟨hqf, herr, hm, hv, hp, hq, hf, hh⟩
  | headerDone start length =>
    cases hstore
    exact ⟨hqf, herr, hm, hv, hp, hq, hf, hh⟩
  | requestPath start length =>
    cases hstore
    exact ⟨hqf, herr, hm, hv, hp.trans (lastOr_cons _ _ _ _).symm, hq, hf, hh⟩
  | fragment start length =>
    cases hstore
    exact ⟨hqf, herr, hm, hv, hp, hq, hf.trans (lastOr_cons _ _ _ _).symm, hh⟩
  | queryString start length =>
    obtain ⟨text, htext, rfl⟩ := Option.map_eq_some_iff.mp hstore
    refine ⟨(forall_found_cons htext).mpr hqf, herr, hm, hv, hp, ?_, hf, hh⟩
    refine Eq.trans ?_ (lastOr_cons _ _ _ _).symm
    rw [htext]
    exact hq
  | requestMethod start length =>
    cases hfound : foundMethod r reads (start, start + length) with
    | none =>
      -- The error that is set here stays set.
      simp only [store, hfound, Option.some.injEq] at hstore
      subst hstore
      refine ⟨hqf, ?_, fun hall => absurd hall (not_forall_found_cons hfound), hv, hp, hq, hf, hh⟩
      rw [herr]
      constructor
      · exact fun h => absurd h.1 (by simp)
      · exact fun h => absurd h.2.1 (not_forall_found_cons hfound)
    | some m =>
      simp only [store, hfound, Option.some.injEq] at hstore
      subst hstore
      refine ⟨hqf, ?_, fun hall => ?_, hv, hp, hq, hf, hh⟩
      · rw [herr]
        exact and_congr_right fun _ => and_congr_left fun _ => (forall_found_cons hfound).symm
      · refine Eq.trans ?_ (lastOr_cons _ _ _ _).symm
        rw [hfound]
        exact hm ((forall_found_cons hfound).mp hall)
  | httpVersion start length =>
    cases hfound : foundVersion r reads (start, start + length) with
    | none =>
      simp only [store, hfound, Option.some.injEq] at hstore
      subst hstore
      refine ⟨hqf, ?_, hm, fun hall => absurd hall (not_forall_found_cons hfound), hp, hq, hf, hh⟩
      rw [herr]
      constructor
      · exact fun h => absurd h.1 (by simp)
      · exact fun h => absurd h.2.2 (not_forall_found_cons hfound)
    | some v =>
      simp only [store, hfound, Option.some.injEq] at hstore
      subst hstore
      refine ⟨hqf, ?_, hm, fun hall => ?_, hp, hq, hf, hh⟩
      · rw [herr]
        exact and_congr_right fun _ => and_congr_right fun _ => (forall_found_cons hfound).symm
      · refine Eq.trans ?_ (lastOr_cons _ _ _ _).symm
        rw [hfound]
        exact hv ((forall_found_cons hfound).mp hall)
  | httpField field flen value vlen =>
    simp only [store, Option.some.injEq] at hstore
    refine ⟨hqf, ?_, ?_, ?_, ?_, ?_, ?_, ?_⟩
    · rw [herr, ← hstore]
      split <;> rfl
    · rw [← hstore] at hm
      split at hm <;> exact hm
    · rw [← hstore] at hv
      split at hv <;> exact hv
    · rw [hp, ← hstore]
      split <;> rfl
    · rw [hq, ← hstore]
      split <;> rfl
    · rw [hf, ← hstore]
      split <;> rfl
    · rw [hh, ← hstore]
      simp only [List.filterMap_cons, Callback.field?, List.map_cons, storedHeaders, List.foldl_cons]
      split <;> rfl

/-- Storing tokens one after the other assembles a request from them. -/
theorem assembled_of_foldlM (h : calls.foldlM (store r reads) p = some p') : Assembled r reads calls p p' := by
  induction calls generalizing p with
  | nil =>
    obtain rfl : p = p' := by simpa using h
    exact ⟨by simp, by simp, fun _ => rfl, fun _ => rfl, rfl, rfl, rfl, rfl⟩
  | cons cb calls ih =>
    rw [List.foldlM_cons] at h
    obtain ⟨p₁, hstore, hrest⟩ := Option.bind_eq_some_iff.mp h
    exact (ih hrest).cons hstore

/-- Tokens whose queries are all found can be stored. -/
theorem exists_foldlM (h : ∀ x ∈ calls.filterMap Callback.query?, (foundQuery r reads x).isSome) :
    ∃ p', calls.foldlM (store r reads) p = some p' := by
  induction calls generalizing p with
  | nil => exact ⟨p, rfl⟩
  | cons cb calls ih =>
    have hfirst : ∃ p₁, store r reads p cb = some p₁ := by
      cases cb with
      | queryString start length =>
        obtain ⟨text, htext⟩ := Option.isSome_iff_exists.mp (h (start, start + length) List.mem_cons_self)
        exact ⟨_, by rw [store, htext]; rfl⟩
      | _ => exact ⟨_, rfl⟩
    obtain ⟨p₁, hstore⟩ := hfirst
    obtain ⟨p', h'⟩ := ih (p := p₁) fun x hx => by
      obtain ⟨cb', hcb', hx⟩ := List.mem_filterMap.mp hx
      exact h x (List.mem_filterMap.mpr ⟨cb', List.mem_cons_of_mem cb hcb', hx⟩)
    exact ⟨p', by rw [List.foldlM_cons, hstore]; exact h'⟩

end Assembled

/-! ## What a split keeps -/

/-- Two requests with the same head. -/
structure SameHead (a b : HttpRequest) : Prop where
  method : a.method = b.method
  version : a.version = b.version
  path : a.path = b.path
  query : a.query = b.query
  fragment : a.fragment = b.fragment
  headers : a.headers = b.headers

/-- A split into reads keeps the head: of the method and version tokens enough is left to find the same
values, the path, the query and the fragment are not cut, and the header fields as they are found build
the same map. -/
structure SplitKeeps (r : Bytes) (reads : List Bytes) (calls : List Callback) : Prop where
  methodFound : ∀ x ∈ calls.filterMap Callback.method?, (foundMethod r reads x).isSome
  method : ∀ x ∈ (calls.filterMap Callback.method?).getLast?, foundMethod r reads x = foundMethod r [r] x
  versionFound : ∀ x ∈ calls.filterMap Callback.version?, (foundVersion r reads x).isSome
  version : ∀ x ∈ (calls.filterMap Callback.version?).getLast?, foundVersion r reads x = foundVersion r [r] x
  path : ∀ x ∈ (calls.filterMap Callback.path?).getLast?, Uncut reads x.1 x.2
  queryFound : ∀ x ∈ calls.filterMap Callback.query?, (foundQuery r reads x).isSome
  query : ∀ x ∈ (calls.filterMap Callback.query?).getLast?, Uncut reads x.1 x.2
  fragment : ∀ x ∈ (calls.filterMap Callback.fragment?).getLast?, Uncut reads x.1 x.2
  headers : storedHeaders ((calls.filterMap Callback.field?).map (foundField r reads)) [] =
    storedHeaders ((calls.filterMap Callback.field?).map (foundField r [r])) []

section Split

variable {r : Bytes} {reads : List Bytes} {x : ℕ × ℕ}

/-- The read of a position when everything is read at once. -/
theorem readStart_singleton {p : ℕ} (hp : p < r.length) : readStart [r] p = 0 := by
  simp [readStart, hp]

/-- The found part of a token is the whole token exactly when it is not cut. -/
theorem foundText_eq_iff (hx : x.1 ≤ x.2) (hlt : x.2 < r.length) :
    foundText r reads x = foundText r [r] x ↔ Uncut reads x.1 x.2 := by
  have hwhole : foundText r [r] x = slice r x.1 x.2 := by
    rw [foundText, foundFrom, readStart_singleton hlt, Nat.max_zero]
  rw [hwhole]
  constructor
  · intro heq
    by_contra hcut
    obtain ⟨-, hlater⟩ := lt_readStart hx hcut
    have hle := readStart_le reads x.2
    have hlen := congrArg List.length heq
    rw [foundText, foundFrom, length_slice (by omega) (by omega), length_slice (by omega) (by omega)] at hlen
    omega
  · intro huncut
    have hle := readStart_le reads x.1
    rw [foundText, foundFrom, ← huncut, Nat.max_eq_left hle]

/-- The found part of a query is the whole query exactly when it is not cut. -/
theorem foundQuery_eq_iff (hx : x.1 ≤ x.2) (hlt : x.2 < r.length) :
    foundQuery r reads x = foundQuery r [r] x ↔ Uncut reads x.1 x.2 := by
  have hwhole : foundQuery r [r] x = some (slice r x.1 x.2) := by
    rw [foundQuery, readStart_singleton hlt, readStart_singleton (by omega), if_pos (by omega)]
    simp
  have hle₁ := readStart_le reads x.1
  have hle₂ := readStart_le reads x.2
  rw [hwhole, foundQuery]
  constructor
  · intro heq
    by_contra hcut
    obtain ⟨hlater, -⟩ := lt_readStart hx hcut
    split at heq
    · have hlen := congrArg List.length (Option.some.inj heq)
      rw [length_slice (by omega) (by omega), length_slice (by omega) (by omega)] at hlen
      omega
    · exact absurd heq nofun
  · intro huncut
    rw [Uncut] at huncut
    rw [← huncut, if_pos (by omega), Nat.add_sub_cancel' hle₁]

/-- Two functions give the same last value exactly when they agree on the last token. -/
theorem lastOr_eq_iff {A B : Type} (d : B) {f g : A → B} {l : List A} :
    lastOr d f l = lastOr d g l ↔ ∀ a ∈ l.getLast?, f a = g a := by
  cases h : l.getLast? <;> simp [lastOr, h]

/-- The byte at which a callback was made, and the positions it was given, are positions of the head. -/
def Callback.Placed (size : ℕ) : Callback → Prop
  | .headerDone _ _ => True
  | cb => ∀ x ∈ cb.ranges, x.1 + x.2 < size

variable {calls : List Callback} {p g : HttpRequestParser}

/-- The tokens of placed callbacks. -/
theorem token_of_placed (hplaced : ∀ cb ∈ calls, cb.Placed r.length) (sel : Callback → Option (ℕ × ℕ))
    (hsel : ∀ cb x, sel cb = some x → cb.Placed r.length → x.1 ≤ x.2 ∧ x.2 < r.length)
    (hx : x ∈ (calls.filterMap sel).getLast?) : x.1 ≤ x.2 ∧ x.2 < r.length := by
  obtain ⟨cb, hcb, hxcb⟩ := List.mem_filterMap.mp (List.mem_of_getLast? hx)
  exact hsel cb x hxcb (hplaced cb hcb)

/-- The tokens as they are found can be stored without an error and give the same head, exactly when
the split keeps the head. -/
theorem stored_same_iff (hplaced : ∀ cb ∈ calls, cb.Placed r.length) (herror : p.error = 0)
    (hheaders : p.data.headers = []) (hg : calls.foldlM (store r [r]) p = some g) (hgerror : g.error = 0) :
    (∃ p', calls.foldlM (store r reads) p = some p' ∧ p'.error = 0 ∧ SameHead p'.data g.data) ↔
      SplitKeeps r reads calls := by
  have hwhole := assembled_of_foldlM hg
  obtain ⟨-, hgmethods, hgversions⟩ := hwhole.error.mp hgerror
  have hpath : ∀ x ∈ (calls.filterMap Callback.path?).getLast?,
      foundText r reads x = foundText r [r] x ↔ Uncut reads x.1 x.2 := by
    intro x hx
    obtain ⟨hle, hlt⟩ := token_of_placed hplaced Callback.path? (fun cb x h hcb => by
      cases cb <;> cases h
      exact ⟨Nat.le_add_right _ _, hcb _ List.mem_cons_self⟩) hx
    exact foundText_eq_iff hle hlt
  have hquery : ∀ x ∈ (calls.filterMap Callback.query?).getLast?,
      foundQuery r reads x = foundQuery r [r] x ↔ Uncut reads x.1 x.2 := by
    intro x hx
    obtain ⟨hle, hlt⟩ := token_of_placed hplaced Callback.query? (fun cb x h hcb => by
      cases cb <;> cases h
      exact ⟨Nat.le_add_right _ _, hcb _ List.mem_cons_self⟩) hx
    exact foundQuery_eq_iff hle hlt
  have hfragment : ∀ x ∈ (calls.filterMap Callback.fragment?).getLast?,
      foundText r reads x = foundText r [r] x ↔ Uncut reads x.1 x.2 := by
    intro x hx
    obtain ⟨hle, hlt⟩ := token_of_placed hplaced Callback.fragment? (fun cb x h hcb => by
      cases cb <;> cases h
      exact ⟨Nat.le_add_right _ _, hcb _ List.mem_cons_self⟩) hx
    exact foundText_eq_iff hle hlt
  constructor
  · rintro ⟨p', hp', hp'error, hsame⟩
    have hfound := assembled_of_foldlM hp'
    obtain ⟨-, hmethods, hversions⟩ := hfound.error.mp hp'error
    refine ⟨hmethods, ?_, hversions, ?_, fun x hx => (hpath x hx).mp ?_, hfound.queryFound,
      fun x hx => (hquery x hx).mp ?_, fun x hx => (hfragment x hx).mp ?_, ?_⟩
    · rw [← lastOr_eq_iff (some p.data.method), ← hfound.method hmethods, hsame.method,
        hwhole.method hgmethods]
    · rw [← lastOr_eq_iff (some p.data.version), ← hfound.version hversions, hsame.version,
        hwhole.version hgversions]
    · refine (lastOr_eq_iff p.data.path).mp ?_ x hx
      exact hfound.path.symm.trans (hsame.path.trans hwhole.path)
    · refine (lastOr_eq_iff (some p.data.query)).mp ?_ x hx
      exact hfound.query.symm.trans ((congrArg some hsame.query).trans hwhole.query)
    · refine (lastOr_eq_iff p.data.fragment).mp ?_ x hx
      exact hfound.fragment.symm.trans (hsame.fragment.trans hwhole.fragment)
    · rw [← hheaders, ← hfound.headers, hsame.headers, hwhole.headers]
  · intro hkeeps
    obtain ⟨p', hp'⟩ := exists_foldlM (p := p) hkeeps.queryFound
    have hfound := assembled_of_foldlM hp'
    refine ⟨p', hp', hfound.error.mpr ⟨herror, hkeeps.methodFound, hkeeps.versionFound⟩, ?_, ?_, ?_, ?_, ?_, ?_⟩
    · refine Option.some.inj ((hfound.method hkeeps.methodFound).trans ?_)
      rw [hwhole.method hgmethods]
      exact (lastOr_eq_iff _).mpr hkeeps.method
    · refine Option.some.inj ((hfound.version hkeeps.versionFound).trans ?_)
      rw [hwhole.version hgversions]
      exact (lastOr_eq_iff _).mpr hkeeps.version
    · rw [hfound.path, hwhole.path]
      exact (lastOr_eq_iff _).mpr fun x hx => (hpath x hx).mpr (hkeeps.path x hx)
    · refine Option.some.inj ?_
      rw [hfound.query, hwhole.query]
      exact (lastOr_eq_iff _).mpr fun x hx => (hquery x hx).mpr (hkeeps.query x hx)
    · rw [hfound.fragment, hwhole.fragment]
      exact (lastOr_eq_iff _).mpr fun x hx => (hfragment x hx).mpr (hkeeps.fragment x hx)
    · rw [hfound.headers, hwhole.headers, hheaders]
      exact hkeeps.headers

end Split

end Bobliew.Http
