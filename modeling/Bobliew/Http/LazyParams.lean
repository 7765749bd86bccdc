import Bobliew.Http.Params

/-!
# Parsing parameters late

A map that is filled at the first look-up answers as one that is filled before, except for names that were
deleted in between: filling puts their entries back. A `setParam` before the parse is safe, because parsing
does not overwrite; a `delParam` before it is undone, until the name is set or deleted again.

The parameters and the cookies of a request are two such maps.
-/

namespace Bobliew.Http

namespace HeaderMap

variable {m : HeaderMap} {k k' v : Bytes}

/-- Names that differ in case only find the same. -/
theorem find_congr (h : caseKey k = caseKey k') : HeaderMap.find k m = HeaderMap.find k' m := by
  induction m with
  | nil => rfl
  | cons x m ih => rw [find_cons, find_cons, h, ih]

/-- Looking up after an insertion. -/
theorem find_insert (entry : Bytes × Bytes) :
    HeaderMap.find k (HeaderMap.insert entry m) =
      (HeaderMap.find k m).or (if caseKey k = caseKey entry.1 then some entry.2 else none) := by
  unfold HeaderMap.insert
  by_cases hkey : caseKey k = caseKey entry.1
  · have hsame : HeaderMap.find entry.1 m = HeaderMap.find k m := find_congr hkey.symm
    rw [hsame, if_pos hkey]
    cases hfind : HeaderMap.find k m with
    | some w => simp [hfind]
    | none => simp [find_set hkey]
  · rw [if_neg hkey, Option.or_none]
    split_ifs
    · rfl
    · exact find_set_of_ne hkey

/-- Looking up after an erasure. -/
theorem find_erase : HeaderMap.find k (HeaderMap.erase k' m) =
    if caseKey k = caseKey k' then none else HeaderMap.find k m := by
  induction m with
  | nil => simp [HeaderMap.erase, HeaderMap.find]
  | cons x m ih =>
    rw [HeaderMap.erase] at ih ⊢
    rw [List.filter_cons, find_cons]
    by_cases hx : caseKey x.1 = caseKey k'
    · rw [hx, decide_eq_true rfl, if_neg (by simp), ih]
      split_ifs <;> rfl
    · rw [decide_eq_false hx, if_pos (by simp), find_cons, ih]
      by_cases hk : caseKey k = caseKey k'
      · rw [if_pos hk, if_pos hk, if_neg (fun heq => hx (heq.symm.trans hk))]
      · rw [if_neg hk, if_neg hk]

/-- Looking up after entries have been inserted. -/
theorem find_insertAll (entries : List (Bytes × Bytes)) :
    HeaderMap.find k (HeaderMap.insertAll entries m) = (HeaderMap.find k m).or (HeaderMap.find k entries) := by
  induction entries generalizing m with
  | nil => simp [HeaderMap.insertAll, HeaderMap.find]
  | cons entry entries ih =>
    have hnext := ih (m := HeaderMap.insert entry m)
    rw [HeaderMap.insertAll] at hnext ⊢
    rw [List.foldl_cons, hnext, find_insert, find_cons, Option.or_assoc]
    split_ifs <;> rfl

end HeaderMap

/-! ## Maps that are filled late -/

/-- A map with the entries it is filled with at the first look-up. -/
structure LateMap where
  map : HeaderMap
  entries : List (Bytes × Bytes)
  filled : Bool

namespace LateMap

variable {m : LateMap} {k key val : Bytes}

/-- Fill the map, once. -/
def fill (m : LateMap) : LateMap :=
  if m.filled then m else { m with map := HeaderMap.insertAll m.entries m.map, filled := true }

/-- Perform one call. -/
def call (m : LateMap) : MapCall → ParamResult × LateMap
  | .get key default => (.value ((m.fill.map.find key).getD default), m.fill)
  | .has key val => (.found (m.fill.map.find key).isSome (if val then m.fill.map.find key else none), m.fill)
  | .set key val => (.done, { m with map := m.map.set key val })
  | .del key => (.done, { m with map := m.map.erase key })

/-- What a look-up would find. -/
def lookup (m : LateMap) (key : Bytes) : Option Bytes := m.fill.map.find key

/-- The names deleted before the first look-up and neither set nor deleted since, and whether there has been
a look-up. -/
structure Track where
  read : Bool
  dropped : List Bytes

namespace Track

/-- No call has been made. -/
def start : Track := ⟨false, []⟩

/-- The name is one of those deleted. -/
def Drops (t : Track) (key : Bytes) : Prop := ∃ d ∈ t.dropped, caseKey d = caseKey key

/-- Follow a call. -/
def next (t : Track) : MapCall → Track
  | .get _ _ => { t with read := true }
  | .has _ _ => { t with read := true }
  | .set key _ => { t with dropped := t.dropped.filter fun d => !decide (caseKey d = caseKey key) }
  | .del key =>
    if t.read then { t with dropped := t.dropped.filter fun d => !decide (caseKey d = caseKey key) }
    else { t with dropped := key :: t.dropped }

/-- The call does not look up a name that is deleted and has an entry, unless it does not tell the entry
from its default. -/
def Unseen (entries : List (Bytes × Bytes)) (t : Track) : MapCall → Prop
  | .get key default => t.Drops key → ∀ val, HeaderMap.find key entries = some val → val = default
  | .has key _ => t.Drops key → HeaderMap.find key entries = none
  | .set _ _ => True
  | .del _ => True

end Track

/-- A map that is filled late, next to one that was filled before the first call: they agree on every name
but those deleted, which the late one will still find. -/
structure Lags (late early : LateMap) (t : Track) : Prop where
  read : late.filled = t.read
  filled : early.filled = true
  agree : ∀ key, ¬ t.Drops key → early.lookup key = late.lookup key
  dropped : ∀ key, t.Drops key → early.lookup key = none ∧ late.lookup key = HeaderMap.find key late.entries

/-- A map that is filled. -/
theorem filled_fill (m : LateMap) : m.fill.filled = true := by
  unfold fill
  cases hfilled : m.filled <;> simp [hfilled]

/-- Filling keeps the entries. -/
theorem entries_fill (m : LateMap) : m.fill.entries = m.entries := by
  unfold fill
  split_ifs <;> rfl

/-- No call changes the entries. -/
theorem entries_call (m : LateMap) (c : MapCall) : (m.call c).2.entries = m.entries := by
  cases c with
  | get key default => exact m.entries_fill
  | has key val => exact m.entries_fill
  | set key val => rfl
  | del key => rfl

/-- What a look-up would find does not depend on whether there has been one. -/
theorem lookup_fill (m : LateMap) (key : Bytes) : m.fill.lookup key = m.lookup key := by
  unfold lookup fill
  cases hfilled : m.filled with
  | true => simp [hfilled]
  | false => simp

/-- Looking up a name after one has been set. -/
theorem lookup_set (m : LateMap) (key val k : Bytes) :
    ({ m with map := m.map.set key val } : LateMap).lookup k =
      if caseKey k = caseKey key then some val else m.lookup k := by
  unfold lookup fill
  cases hfilled : m.filled with
  | true =>
    by_cases hk : caseKey k = caseKey key
    · simp [hk, HeaderMap.find_set hk]
    · simp [hk, HeaderMap.find_set_of_ne hk]
  | false =>
    by_cases hk : caseKey k = caseKey key
    · simp [hk, HeaderMap.find_insertAll, HeaderMap.find_set hk]
    · simp [hk, HeaderMap.find_insertAll, HeaderMap.find_set_of_ne hk]

/-- Looking up a name after one has been deleted: before the map is filled its entry comes back. -/
theorem lookup_del (m : LateMap) (key k : Bytes) :
    ({ m with map := m.map.erase key } : LateMap).lookup k =
      if caseKey k = caseKey key then (if m.filled then none else HeaderMap.find k m.entries)
      else m.lookup k := by
  unfold lookup fill
  cases hfilled : m.filled with
  | true => simp [HeaderMap.find_erase]
  | false =>
    by_cases hk : caseKey k = caseKey key
    · simp [hk, HeaderMap.find_insertAll, HeaderMap.find_erase]
    · simp [hk, HeaderMap.find_insertAll, HeaderMap.find_erase]

/-- Setting or deleting a name takes it off the list. -/
theorem Track.drops_filter {read : Bool} {dropped : List Bytes} (key k : Bytes) :
    Track.Drops ⟨read, dropped.filter fun d => !decide (caseKey d = caseKey key)⟩ k ↔
      Track.Drops ⟨read, dropped⟩ k ∧ caseKey k ≠ caseKey key := by
  unfold Track.Drops
  constructor
  · rintro ⟨d, hd, heq⟩
    have hmem := List.mem_filter.mp hd
    refine ⟨⟨d, hmem.1, heq⟩, fun hk => ?_⟩
    have hne : ¬ caseKey d = caseKey key := by simpa using hmem.2
    exact hne (heq.trans hk)
  · rintro ⟨⟨d, hd, heq⟩, hk⟩
    refine ⟨d, List.mem_filter.mpr ⟨hd, ?_⟩, heq⟩
    simpa using fun hkey : caseKey d = caseKey key => hk (heq.symm.trans hkey)

section Lags

variable {late early : LateMap} {t : Track}

/-- At the start nothing is deleted. -/
theorem Lags.start (hlate : m.filled = false) : Lags m m.fill Track.start where
  read := hlate
  filled := m.filled_fill
  agree key _ := m.lookup_fill key
  dropped key h := by
    obtain ⟨d, hd, -⟩ := h
    cases hd

/-- A call gives the same results exactly if it does not see a deleted name. -/
theorem Lags.result_iff (h : Lags late early t) (c : MapCall) :
    (late.call c).1 = (early.call c).1 ↔ t.Unseen late.entries c := by
  cases c with
  | get key default =>
    have hcall : (late.call (.get key default)).1 = (early.call (.get key default)).1 ↔
        (late.lookup key).getD default = (early.lookup key).getD default := by
      simp only [call, lookup, ParamResult.value.injEq]
    rw [hcall]
    by_cases hdrops : t.Drops key
    · obtain ⟨hearly, hlate⟩ := h.dropped key hdrops
      rw [hearly, hlate, Option.getD_none]
      simp only [Track.Unseen, hdrops, forall_const]
      cases HeaderMap.find key late.entries <;> simp
    · rw [h.agree key hdrops]
      simp [Track.Unseen, hdrops]
  | has key val =>
    have hcall : (late.call (.has key val)).1 = (early.call (.has key val)).1 ↔
        (late.lookup key).isSome = (early.lookup key).isSome ∧
          (if val then late.lookup key else none) = (if val then early.lookup key else none) := by
      simp only [call, lookup, ParamResult.found.injEq]
    rw [hcall]
    by_cases hdrops : t.Drops key
    · obtain ⟨hearly, hlate⟩ := h.dropped key hdrops
      rw [hearly, hlate]
      simp only [Track.Unseen, hdrops, forall_const]
      cases HeaderMap.find key late.entries <;> simp
    · rw [h.agree key hdrops]
      simp [Track.Unseen, hdrops]
  | set key val => exact ⟨fun _ => trivial, fun _ => rfl⟩
  | del key => exact ⟨fun _ => trivial, fun _ => rfl⟩

/-- The two maps go on to differ in the deleted names only. -/
theorem Lags.next (h : Lags late early t) (c : MapCall) :
    Lags (late.call c).2 (early.call c).2 (t.next c) := by
  have hfill : Lags late.fill early.fill { t with read := true } :=
    { read := late.filled_fill
      filled := early.filled_fill
      agree := fun key hdrops => by
        rw [lookup_fill, lookup_fill]
        exact h.agree key hdrops
      dropped := fun key hdrops => by
        rw [lookup_fill, lookup_fill, entries_fill]
        exact h.dropped key hdrops }
  cases c with
  | get key default => exact hfill
  | has key val => exact hfill
  | set key val =>
    refine ⟨h.read, h.filled, fun k hdrops => ?_, fun k hdrops => ?_⟩
    · simp only [Track.next, Track.drops_filter, not_and_not_right] at hdrops
      simp only [call, lookup_set]
      split_ifs with hk
      · rfl
      · exact h.agree k fun hold => hk (hdrops hold)
    · simp only [Track.next, Track.drops_filter] at hdrops
      simp only [call, lookup_set, if_neg hdrops.2]
      exact h.dropped k hdrops.1
  | del key =>
    have hread := h.read
    cases hlate : t.read with
    | true =>
      rw [hlate] at hread
      refine ⟨by simp [call, Track.next, hlate, hread], h.filled, fun k hdrops => ?_, fun k hdrops => ?_⟩
      · simp only [Track.next, hlate, if_true, Track.drops_filter, not_and_not_right] at hdrops
        simp only [call, lookup_del]
        by_cases hk : caseKey k = caseKey key
        · rw [if_pos hk, if_pos hk, h.filled, hread, if_pos rfl, if_pos rfl]
        · rw [if_neg hk, if_neg hk]
          exact h.agree k fun hold => hk (hdrops hold)
      · simp only [Track.next, hlate, if_true, Track.drops_filter] at hdrops
        simp only [call, lookup_del, if_neg hdrops.2]
        exact h.dropped k hdrops.1
    | false =>
      rw [hlate] at hread
      have hcons : ∀ k, (t.next (.del key)).Drops k ↔ caseKey k = caseKey key ∨ t.Drops k := by
        intro k
        simp [Track.next, hlate, Track.Drops, eq_comm]
      refine ⟨by simp [call, Track.next, hlate, hread], h.filled, fun k hdrops => ?_, fun k hdrops => ?_⟩
      · rw [hcons, not_or] at hdrops
        simp only [call, lookup_del, if_neg hdrops.1]
        exact h.agree k hdrops.2
      · simp only [call, lookup_del]
        rw [hread, h.filled]
        by_cases hk : caseKey k = caseKey key
        · simp [hk]
        · rw [if_neg hk, if_neg hk]
          exact h.dropped k (((hcons k).mp hdrops).resolve_left hk)

end Lags

end LateMap

/-! ## The two maps of a request -/

namespace ParamRequest

open LateMap (Track Lags)

variable {r r' : ParamRequest}

/-- The parameters, which the query and the body fill. -/
def lateParams (r : ParamRequest) : LateMap := ⟨r.params, r.queryEntries ++ r.bodyEntries, r.queryParsed⟩

/-- The cookies, which the `cookie` header fills. -/
def lateCookies (r : ParamRequest) : LateMap := ⟨r.cookies, r.cookieEntries, r.cookiesParsed⟩

/-- The query and the body are parsed by the same calls. -/
theorem params_parsed (h : r.queryParsed = r.bodyParsed) :
    lateParams r.initQueryParam.initBodyParam = r.lateParams.fill ∧
      lateCookies r.initQueryParam.initBodyParam = r.lateCookies ∧
      r.initQueryParam.initBodyParam.queryParsed = r.initQueryParam.initBodyParam.bodyParsed := by
  cases hquery : r.queryParsed with
  | true =>
    have hbody : r.bodyParsed = true := h.symm.trans hquery
    simp [initQueryParam, initBodyParam, lateParams, LateMap.fill, hquery, hbody]
  | false =>
    have hbody : r.bodyParsed = false := h.symm.trans hquery
    simp [initQueryParam, initBodyParam, lateParams, lateCookies, LateMap.fill, hquery, hbody, queryEntries,
      bodyEntries, cookieEntries, HeaderMap.insertAll]

/-- A call on the parameters is a call on the map of parameters. -/
theorem call_param (h : r.queryParsed = r.bodyParsed) (c : MapCall) :
    (r.call (.param c)).1 = (r.lateParams.call c).1 ∧
      lateParams (r.call (.param c)).2 = (r.lateParams.call c).2 ∧
      lateCookies (r.call (.param c)).2 = r.lateCookies ∧
      (r.call (.param c)).2.queryParsed = (r.call (.param c)).2.bodyParsed := by
  obtain ⟨hparams, hcookies, hparsed⟩ := params_parsed h
  have hmap : r.initQueryParam.initBodyParam.params = r.lateParams.fill.map := congrArg LateMap.map hparams
  cases c with
  | get key default =>
    refine ⟨?_, hparams, hcookies, hparsed⟩
    simp only [call, getParam, LateMap.call, hmap]
  | has key val =>
    refine ⟨?_, hparams, hcookies, hparsed⟩
    simp only [call, hasParam, LateMap.call, hmap]
  | set key val => exact ⟨rfl, rfl, rfl, h⟩
  | del key => exact ⟨rfl, rfl, rfl, h⟩

/-- The `cookie` header is parsed without regard to the parameters. -/
theorem cookies_parsed (r : ParamRequest) :
    lateCookies r.initCookies = r.lateCookies.fill ∧ lateParams r.initCookies = r.lateParams ∧
      r.initCookies.queryParsed = r.queryParsed ∧ r.initCookies.bodyParsed = r.bodyParsed := by
  unfold initCookies LateMap.fill
  cases hparsed : r.cookiesParsed with
  | true => simp [lateCookies, hparsed]
  | false => simp [lateCookies, lateParams, hparsed, queryEntries, bodyEntries, cookieEntries]

/-- A call on the cookies is a call on the map of cookies. -/
theorem call_cookie (h : r.queryParsed = r.bodyParsed) (c : MapCall) :
    (r.call (.cookie c)).1 = (r.lateCookies.call c).1 ∧
      lateCookies (r.call (.cookie c)).2 = (r.lateCookies.call c).2 ∧
      lateParams (r.call (.cookie c)).2 = r.lateParams ∧
      (r.call (.cookie c)).2.queryParsed = (r.call (.cookie c)).2.bodyParsed := by
  obtain ⟨hcookies, hparams, hquery, hbody⟩ := cookies_parsed r
  have hsame : r.initCookies.queryParsed = r.initCookies.bodyParsed := by rw [hquery, hbody, h]
  have hmap : r.initCookies.cookies = r.lateCookies.fill.map := congrArg LateMap.map hcookies
  cases c with
  | get key default =>
    refine ⟨?_, hcookies, hparams, hsame⟩
    simp only [call, getCookie, LateMap.call, hmap]
  | has key val =>
    refine ⟨?_, hcookies, hparams, hsame⟩
    simp only [call, hasCookie, LateMap.call, hmap]
  | set key val => exact ⟨rfl, rfl, rfl, h⟩
  | del key => exact ⟨rfl, rfl, rfl, h⟩

/-- No call looks up a parameter that the query or the body has, or a cookie that the header has, after it
was deleted ahead of all look-ups and not set or deleted again. -/
def Unobserved (params cookies : List (Bytes × Bytes)) : Track → Track → List ParamCall → Prop
  | _, _, [] => True
  | p, c, .param x :: calls => p.Unseen params x ∧ Unobserved params cookies (p.next x) c calls
  | p, c, .cookie x :: calls => c.Unseen cookies x ∧ Unobserved params cookies p (c.next x) calls

/-- A request that parses late next to one that has parsed, from any state of the two maps. -/
theorem results_eq_iff (hlate : r.queryParsed = r.bodyParsed) (hearly : r'.queryParsed = r'.bodyParsed)
    {p c : Track} (hparams : Lags r.lateParams r'.lateParams p) (hcookies : Lags r.lateCookies r'.lateCookies c)
    (calls : List ParamCall) :
    r.results calls = r'.results calls ↔
      Unobserved r.lateParams.entries r.lateCookies.entries p c calls := by
  induction calls generalizing r r' p c with
  | nil => exact ⟨fun _ => trivial, fun _ => rfl⟩
  | cons x calls ih =>
    cases x with
    | param x =>
      obtain ⟨hresult, hmap, hother, hsame⟩ := call_param hlate x
      obtain ⟨hresult', hmap', hother', hsame'⟩ := call_param hearly x
      have hnext := hparams.next x
      rw [← hmap, ← hmap'] at hnext
      have hrest := hcookies
      rw [← hother, ← hother'] at hrest
      have hentries : (r.call (.param x)).2.lateParams.entries = r.lateParams.entries := by
        rw [hmap, LateMap.entries_call]
      simp only [results, List.cons.injEq, Unobserved]
      rw [hresult, hresult', hparams.result_iff x, ih hsame hsame' hnext hrest, hentries, hother]
    | cookie x =>
      obtain ⟨hresult, hmap, hother, hsame⟩ := call_cookie hlate x
      obtain ⟨hresult', hmap', hother', hsame'⟩ := call_cookie hearly x
      have hnext := hcookies.next x
      rw [← hmap, ← hmap'] at hnext
      have hrest := hparams
      rw [← hother, ← hother'] at hrest
      have hentries : (r.call (.cookie x)).2.lateCookies.entries = r.lateCookies.entries := by
        rw [hmap, LateMap.entries_call]
      simp only [results, List.cons.injEq, Unobserved]
      rw [hresult, hresult', hcookies.result_iff x, ih hsame hsame' hrest hnext, hentries, hother]

/-- For every request of which nothing has been parsed and every sequence of calls: the results are those of
the request with everything parsed before the first call, exactly if no call sees an entry that parsing put
back. -/
theorem late_parsing_unobserved_iff (request : HttpRequest) (params cookies : HeaderMap) (calls : List ParamCall) :
    (unparsed request params cookies).results calls = (unparsed request params cookies).initParam.results calls ↔
      Unobserved ((unparsed request params cookies).queryEntries ++ (unparsed request params cookies).bodyEntries)
        (unparsed request params cookies).cookieEntries .start .start calls := by
  obtain ⟨hparams, hcookies, hsame⟩ := params_parsed (r := unparsed request params cookies) rfl
  obtain ⟨hfilled, hkept, hquery, hbody⟩ :=
    cookies_parsed (unparsed request params cookies).initQueryParam.initBodyParam
  have hearly : (unparsed request params cookies).initParam.queryParsed =
      (unparsed request params cookies).initParam.bodyParsed := hquery.trans (hsame.trans hbody.symm)
  have hlagParams := Lags.start (m := (unparsed request params cookies).lateParams) rfl
  have hlagCookies := Lags.start (m := (unparsed request params cookies).lateCookies) rfl
  rw [← hparams, ← hkept] at hlagParams
  rw [← hcookies, ← hfilled] at hlagCookies
  exact results_eq_iff rfl hearly hlagParams hlagCookies calls

/-- A text with one entry and no separator behind it. -/
theorem parseParam_single {flag : UInt8} {trim : Bytes → Bytes} {str : Bytes} (c : UInt8) (rest : Bytes)
    (hrest : str.dropWhile (fun c => !decide (c = 61)) = c :: rest)
    (hlast : rest.dropWhile (fun c => !decide (c = flag)) = []) :
    parseParam flag trim str = [(trim (str.takeWhile fun c => !decide (c = 61)),
      urlDecode (rest.takeWhile fun c => !decide (c = flag)))] := by
  rw [parseParam]
  split
  · rename_i hnone
    rw [hrest] at hnone
    cases hnone
  · rename_i rest' hsome
    rw [hrest] at hsome
    cases hsome
    dsimp only
    split
    · rfl
    · rename_i hmore
      rw [hlast] at hmore
      cases hmore

/-- The query `a=1`: a parameter that was deleted first is found again, unless everything was parsed. -/
theorem deleted_param_found :
    (unparsed { HttpRequest.fresh with query := [97, 61, 49] } [] []).results
        [.param (.del [97]), .param (.has [97] true)] = [.done, .found true (some [49])] ∧
      (unparsed { HttpRequest.fresh with query := [97, 61, 49] } [] []).initParam.results
        [.param (.del [97]), .param (.has [97] true)] = [.done, .found false none] := by
  have hquery : parseParam 38 id [97, 61, 49] = [([97], [49])] :=
    parseParam_single 61 [49] (by decide) (by decide)
  have hentries : ∀ params cookies q b c,
      (⟨{ HttpRequest.fresh with query := [97, 61, 49] }, params, cookies, q, b, c⟩ : ParamRequest).queryEntries =
        [([97], [49])] := fun _ _ _ _ _ => hquery
  have hbody : ∀ params cookies q b c,
      (⟨{ HttpRequest.fresh with query := [97, 61, 49] }, params, cookies, q, b, c⟩ : ParamRequest).bodyEntries =
        [] := by
    intro params cookies q b c
    rw [bodyEntries]
    refine if_neg ?_
    change ¬ _ <:+: ([] : List ℕ)
    rw [List.infix_nil]
    decide
  constructor
  · simp only [results, call, delParam, hasParam, initQueryParam, initBodyParam, unparsed, hentries, hbody,
      Bool.false_eq_true, if_false, if_true]
    decide
  · simp only [results, call, delParam, hasParam, initParam, initQueryParam, initBodyParam, unparsed, hentries,
      hbody, Bool.false_eq_true, if_false]
    decide

end ParamRequest

end Bobliew.Http
