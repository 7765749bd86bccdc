import Bobliew.Http.RequestRuns
import Bobliew.Http.RequestSession

/-!
# Serialising a request

`HttpRequest::dump` writes the request line, a `connection` header for the close flag, the headers of the
map except one of that name, and a `content-length` header with the body if there is one. The websocket flag
is an argument.

The second part is about header maps: what storing under one name does to the map and to lookups under other
names, and what becomes of the fields of a sorted map when they are stored one after the other.
-/

namespace Bobliew.Http

open RequestGrammar

/-! ## The bytes of a request -/

/-- A number in decimal. -/
def decimal (n : ℕ) : Bytes := asciiText (Nat.toDigits 10 n)

/-- `HttpMethodToString`. -/
def httpMethodToString (m : HttpMethod) : Bytes :=
  ((httpMethodMap.find? fun entry => decide (entry.1 = m)).map (·.2)).getD []

/-- `"connection"`. -/
def connectionName : Bytes := asciiText ['c', 'o', 'n', 'n', 'e', 'c', 't', 'i', 'o', 'n']

/-- `"content-length"`. -/
def contentLengthName : Bytes :=
  asciiText ['c', 'o', 'n', 't', 'e', 'n', 't', '-', 'l', 'e', 'n', 'g', 't', 'h']

/-- `"\r\n"`. -/
def lineEnd : Bytes := [13, 10]

/-- The value of the emitted `connection` header. -/
def connectionValue (close : Bool) : Bytes :=
  if close then asciiText ['c', 'l', 'o', 's', 'e']
  else asciiText ['k', 'e', 'e', 'p', '-', 'a', 'l', 'i', 'v', 'e']

namespace HttpRequest

variable (r : HttpRequest)

/-- `dump`. -/
def dump (websocket : Bool) : Bytes :=
  httpMethodToString r.method ++ asciiText [' '] ++ r.path ++ (if r.query = [] then [] else asciiText ['?']) ++
    r.query ++ (if r.fragment = [] then [] else asciiText ['#']) ++ r.fragment ++
    asciiText [' ', 'H', 'T', 'T', 'P', '/'] ++ decimal (r.version >>> 4) ++ asciiText ['.'] ++
    decimal (r.version &&& 0x0F) ++ lineEnd ++
    (if websocket then [] else connectionName ++ asciiText [':'] ++ connectionValue r.close ++ lineEnd) ++
    (r.headers.flatMap fun i =>
      if !websocket && decide (caseKey i.1 = caseKey connectionName) then []
      else i.1 ++ asciiText [':'] ++ i.2 ++ lineEnd) ++
    (if r.body ≠ [] then
      contentLengthName ++ asciiText [':', ' '] ++ decimal r.body.length ++ lineEnd ++ lineEnd ++ r.body
    else lineEnd)

/-- The bytes of `dump` in front of the body. -/
def dumpHead (websocket : Bool) : Bytes :=
  (r.dump websocket).take ((r.dump websocket).length - r.body.length)

/-- The requests to serialise: the path, the query and the fragment are in the grammar, header names are
tokens that name neither of the emitted headers, header values have no control characters and no leading
blanks, and the body fits a string. -/
structure Dumpable (uriRelaxed : Bool) : Prop where
  version : r.version = 0x10 ∨ r.version = 0x11
  path : r.path ∈ (pathAbsolute uriRelaxed).lang
  query : r.query ∈ (RequestGrammar.query uriRelaxed).lang
  fragment : r.fragment ∈ (fragmentPart uriRelaxed).lang
  names : ∀ x ∈ r.headers, x.1 ∈ (fieldName RequestAction.startField .writeField).lang
  others : ∀ x ∈ r.headers, caseKey x.1 ≠ caseKey connectionName ∧ caseKey x.1 ≠ caseKey contentLengthName
  values : ∀ x ∈ r.headers, (∀ c ∈ x.2, RequestMachine.isPrintable c) ∧ x.2.head? ≠ some 32
  sorted : r.headers.Pairwise fun x y => caseInsensitiveLess x.1 y.1 = true
  body : r.body.length ≤ stringMaxSize

/-- The request with the emitted headers stored in its map. -/
def withEmitted : HttpRequest :=
  { r with
    headers :=
      let flagged := r.headers.set connectionName (connectionValue r.close)
      if r.body = [] then flagged else flagged.set contentLengthName (decimal r.body.length) }

end HttpRequest

/-! ## The order of header names -/

/-- `lexLess` is the lexicographic order. -/
theorem lexLess_iff (a b : List ℕ) : lexLess a b = true ↔ a < b := by
  induction a generalizing b with
  | nil => cases b <;> simp [lexLess]
  | cons x a ih =>
    cases b with
    | nil => simp [lexLess]
    | cons y b =>
      rw [lexLess, Bool.or_eq_true, Bool.and_eq_true, ih b, List.cons_lt_cons_iff]
      simp [Nat.blt_eq]

/-- `CaseInsensitiveLess` compares keys. -/
theorem caseInsensitiveLess_iff {k l : Bytes} : caseInsensitiveLess k l = true ↔ caseKey k < caseKey l :=
  lexLess_iff _ _

/-- Neither of two names is less if their keys agree. -/
theorem caseInsensitiveLess_false_iff {k l : Bytes} : caseInsensitiveLess k l = false ↔ caseKey l ≤ caseKey k := by
  rw [← Bool.not_eq_true, caseInsensitiveLess_iff, not_lt]

namespace HeaderMap

variable {m a : HeaderMap} {k k' v v' w : Bytes}

/-- What storing does, by the key of the first entry. -/
theorem set_cons (x : Bytes × Bytes) : HeaderMap.set k v (x :: m) =
    if caseKey k < caseKey x.1 then (k, v) :: x :: m
    else if caseKey x.1 < caseKey k then x :: HeaderMap.set k v m else (x.1, v) :: m := by
  obtain ⟨y, w⟩ := x
  simp only [HeaderMap.set, caseInsensitiveLess_iff]

/-- Storing behind all entries. -/
theorem set_last (h : ∀ x ∈ m, caseKey x.1 < caseKey k) : HeaderMap.set k v m = m ++ [(k, v)] := by
  induction m with
  | nil => rfl
  | cons x m ih =>
    have hx := h x List.mem_cons_self
    rw [set_cons, if_neg (lt_asymm hx), if_pos hx, ih fun y hy => h y (List.mem_cons_of_mem x hy)]
    rfl

/-- Storing under a name and then behind all other entries. -/
theorem set_set_last (h : ∀ x ∈ m, caseKey x.1 < caseKey k') (hne : caseKey k ≠ caseKey k') :
    HeaderMap.set k' v' (HeaderMap.set k v m) = HeaderMap.set k v (m ++ [(k', v')]) := by
  induction m with
  | nil =>
    rcases lt_or_gt_of_ne hne with hlt | hgt
    · simp [HeaderMap.set, caseInsensitiveLess_iff.mpr hlt, caseInsensitiveLess_false_iff.mpr hlt.le]
    · simp [HeaderMap.set, caseInsensitiveLess_iff.mpr hgt, caseInsensitiveLess_false_iff.mpr hgt.le]
  | cons x m ih =>
    have hx := h x List.mem_cons_self
    have hm : ∀ y ∈ m, caseKey y.1 < caseKey k' := fun y hy => h y (List.mem_cons_of_mem x hy)
    rw [set_cons, List.cons_append, set_cons]
    split
    · rename_i hlt
      have hk : caseKey k < caseKey k' := hlt.trans hx
      rw [set_cons, if_neg (lt_asymm hk), if_pos hk, set_cons, if_neg (lt_asymm hx), if_pos hx, set_last hm]
    · split
      · rw [set_cons, if_neg (lt_asymm hx), if_pos hx, ih hm]
      · rw [set_cons, if_neg (lt_asymm hx), if_pos hx, set_last hm]

/-- The fields of a sorted map, stored one after the other in a map with another entry. -/
theorem foldl_set (hsorted : (a ++ m).Pairwise fun x y => caseInsensitiveLess x.1 y.1 = true)
    (hne : ∀ x ∈ m, caseKey k ≠ caseKey x.1) :
    m.foldl (fun m x => HeaderMap.set x.1 x.2 m) (HeaderMap.set k v a) = HeaderMap.set k v (a ++ m) := by
  induction m generalizing a with
  | nil => rw [List.append_nil, List.foldl_nil]
  | cons x m ih =>
    have hlast : ∀ y ∈ a, caseKey y.1 < caseKey x.1 := fun y hy =>
      caseInsensitiveLess_iff.mp ((List.pairwise_append.mp hsorted).2.2 y hy x List.mem_cons_self)
    have happend : a ++ x :: m = a ++ [x] ++ m := (List.append_assoc a [x] m).symm
    rw [happend] at hsorted ⊢
    rw [List.foldl_cons, set_set_last hlast (hne x List.mem_cons_self)]
    exact ih hsorted fun y hy => hne y (List.mem_cons_of_mem x hy)

/-- What looking up does, by the key of the first entry. -/
theorem find_cons (x : Bytes × Bytes) :
    HeaderMap.find k (x :: m) = if caseKey k = caseKey x.1 then some x.2 else HeaderMap.find k m := by
  rw [HeaderMap.find, List.find?_cons]
  by_cases h : caseKey k = caseKey x.1
  · rw [if_pos h, caseInsensitiveLess_false_iff.mpr h.ge, caseInsensitiveLess_false_iff.mpr h.le]
    rfl
  · rw [if_neg h]
    rcases lt_or_gt_of_ne h with hlt | hgt
    · rw [caseInsensitiveLess_iff.mpr hlt]
      rfl
    · rw [caseInsensitiveLess_iff.mpr hgt, Bool.and_comm]
      rfl

/-- Looking up what was stored. -/
theorem find_set (h : caseKey k' = caseKey k) : HeaderMap.find k' (HeaderMap.set k v m) = some v := by
  induction m with
  | nil => rw [HeaderMap.set, find_cons, if_pos h]
  | cons x m ih =>
    rw [set_cons]
    split
    · rw [find_cons, if_pos h]
    · split
      · rename_i hlt
        rw [find_cons, if_neg (fun heq => absurd (h ▸ heq) hlt.ne'), ih]
      · rename_i hle hge
        rw [find_cons, if_pos (h.trans (le_antisymm (not_lt.mp hge) (not_lt.mp hle)))]

/-- Looking up another name. -/
theorem find_set_of_ne (h : caseKey k' ≠ caseKey k) :
    HeaderMap.find k' (HeaderMap.set k v m) = HeaderMap.find k' m := by
  induction m with
  | nil => rw [HeaderMap.set, find_cons, if_neg h]
  | cons x m ih =>
    rw [set_cons]
    split
    · rw [find_cons, if_neg h]
    · split
      · rw [find_cons, find_cons, ih]
      · rename_i hle hge
        have hkey : caseKey k = caseKey x.1 := le_antisymm (not_lt.mp hge) (not_lt.mp hle)
        rw [find_cons, find_cons, if_neg (hkey ▸ h), if_neg (hkey ▸ h)]

/-- Looking up a name that is not there. -/
theorem find_eq_none (h : ∀ x ∈ m, caseKey x.1 ≠ caseKey k) : HeaderMap.find k m = none := by
  induction m with
  | nil => rfl
  | cons x m ih =>
    rw [find_cons, if_neg (h x List.mem_cons_self).symm, ih fun y hy => h y (List.mem_cons_of_mem x hy)]

/-- Storing makes a map longer by one entry, if the name is new. -/
theorem length_set (h : ∀ x ∈ m, caseKey x.1 ≠ caseKey k) : (HeaderMap.set k v m).length = m.length + 1 := by
  induction m with
  | nil => rfl
  | cons x m ih =>
    rw [set_cons]
    split
    · rfl
    · split
      · rw [List.length_cons, ih fun y hy => h y (List.mem_cons_of_mem x hy), List.length_cons]
      · rename_i hle hge
        exact absurd (le_antisymm (not_lt.mp hle) (not_lt.mp hge)) (h x List.mem_cons_self)

/-- Storing does not make a map shorter. -/
theorem length_le_set : m.length ≤ (HeaderMap.set k v m).length := by
  induction m with
  | nil => exact Nat.zero_le _
  | cons x m ih =>
    rw [set_cons]
    split
    · exact Nat.le_succ _
    · split
      · exact Nat.succ_le_succ ih
      · exact Nat.le_refl _

end HeaderMap

end Bobliew.Http
