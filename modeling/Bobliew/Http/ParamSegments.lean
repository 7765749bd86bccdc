import Bobliew.Http.LazyParams
import Bobliew.Http.UrlCode
import Bobliew.Lib.Separated

/-!
# Parameters and the segments of a text

What the parsing of parameters inserts, against the segments of the text between the separators. The loop
looks for the next equals sign before it looks for the separator, so a segment without an equals sign becomes
part of the key of the next segment that has one.
-/

namespace Bobliew.Http

/-! ## Segments -/

/-- What a segment contributes: the text behind its first equals sign under the key in front of it, and nothing
if it has no equals sign. -/
def segmentEntry (trim : Bytes → Bytes) (segment : Bytes) : Option (Bytes × Bytes) :=
  if 61 ∈ segment then
    some (trim (segment.takeWhile fun c => !decide (c = 61)),
      urlDecode ((segment.dropWhile fun c => !decide (c = 61)).drop 1))
  else none

/-- The entries of the segments of a text. -/
def segmentEntries (flag : UInt8) (trim : Bytes → Bytes) (str : Bytes) : List (Bytes × Bytes) :=
  (str.splitOn flag).filterMap (segmentEntry trim)

/-- No segment without an equals sign stands in front of one with an equals sign. -/
def FieldsFirst (flag : UInt8) (str : Bytes) : Prop :=
  (str.splitOn flag).Pairwise fun s t => 61 ∈ t → 61 ∈ s

/-- The order of the segments can be checked. -/
instance (flag : UInt8) (str : Bytes) : Decidable (FieldsFirst flag str) :=
  inferInstanceAs (Decidable ((str.splitOn flag).Pairwise fun s t => 61 ∈ t → 61 ∈ s))

section Segments

variable {flag : UInt8} {trim : Bytes → Bytes} {key val rest str : Bytes} {segments : List Bytes}

/-- Without an equals sign there are no entries. -/
theorem parseParam_nil (hstr : 61 ∉ str) : parseParam flag trim str = [] := by
  unfold parseParam
  split
  · rfl
  · rename_i c rest hdrop
    rw [(List.cut_none hstr).2] at hdrop
    cases hdrop

/-- The last entry. -/
theorem parseParam_last (hkey : 61 ∉ key) (hval : flag ∉ val) :
    parseParam flag trim (key ++ 61 :: val) = [(trim key, urlDecode val)] := by
  unfold parseParam
  split
  · rename_i hdrop
    rw [(List.cut_first hkey).2] at hdrop
    cases hdrop
  · rename_i c rest hdrop
    rw [(List.cut_first hkey).2] at hdrop
    obtain ⟨rfl, rfl⟩ := List.cons_eq_cons.mp hdrop
    split
    · rw [(List.cut_first hkey).1, (List.cut_none hval).1]
    · rename_i d behind hbehind
      rw [(List.cut_none hval).2] at hbehind
      cases hbehind

/-- An entry in front of others. -/
theorem parseParam_more (hkey : 61 ∉ key) (hval : flag ∉ val) :
    parseParam flag trim (key ++ 61 :: (val ++ flag :: rest)) =
      (trim key, urlDecode val) :: parseParam flag trim rest := by
  rw [parseParam]
  split
  · rename_i hdrop
    rw [(List.cut_first hkey).2] at hdrop
    cases hdrop
  · rename_i c behind hdrop
    rw [(List.cut_first hkey).2] at hdrop
    obtain ⟨rfl, rfl⟩ := List.cons_eq_cons.mp hdrop
    split
    · rename_i hnone
      rw [(List.cut_first hval).2] at hnone
      cases hnone
    · rename_i d more hmore
      rw [(List.cut_first hval).2] at hmore
      obtain ⟨rfl, rfl⟩ := List.cons_eq_cons.mp hmore
      rw [(List.cut_first hkey).1, (List.cut_first hval).1]

/-- The entry of a segment with an equals sign. -/
theorem segmentEntry_cut (hkey : 61 ∉ key) :
    segmentEntry trim (key ++ 61 :: val) = some (trim key, urlDecode val) := by
  rw [segmentEntry, if_pos (by simp), (List.cut_first hkey).1, (List.cut_first hkey).2, List.drop_one, List.tail_cons]

/-- Segments without an equals sign make a text without one. -/
theorem not_mem_intercalate (hflag : flag ≠ 61) (hsegments : ∀ s ∈ segments, 61 ∉ s) :
    61 ∉ [flag].intercalate segments := by
  intro hmem
  rcases List.mem_of_mem_intercalate hmem with h | ⟨s, hs, h⟩
  · exact hflag (List.mem_singleton.mp h).symm
  · exact hsegments s hs h

/-- Segments in whose order those with an equals sign come first are parsed one by one. -/
theorem parseParam_intercalate (trim : Bytes → Bytes) (hflag : flag ≠ 61) (hsegments : ∀ s ∈ segments, flag ∉ s)
    (hfirst : segments.Pairwise fun s t => 61 ∈ t → 61 ∈ s) :
    parseParam flag trim ([flag].intercalate segments) = segments.filterMap (segmentEntry trim) := by
  induction segments with
  | nil => exact parseParam_nil List.not_mem_nil
  | cons s segments ih =>
    obtain ⟨hs, hrest⟩ := List.forall_mem_cons.mp hsegments
    obtain ⟨hbefore, hlater⟩ := List.pairwise_cons.mp hfirst
    have htail := ih hrest hlater
    by_cases hfield : 61 ∈ s
    · obtain ⟨key, val, rfl, hkey⟩ := List.eq_append_cons_of_mem hfield
      have hval : flag ∉ val := fun h => hs (List.mem_append_right key (List.mem_cons_of_mem 61 h))
      rw [List.filterMap_cons, segmentEntry_cut hkey]
      by_cases hnil : segments = []
      · rw [hnil, List.intercalate_singleton, parseParam_last hkey hval]
        rfl
      · rw [List.intercalate_cons_of_ne_nil hnil, List.append_assoc, List.append_assoc, List.cons_append,
          List.singleton_append, parseParam_more hkey hval, htail]
    · have hnone : ∀ t ∈ s :: segments, 61 ∉ t :=
        List.forall_mem_cons.mpr ⟨hfield, fun t ht h => hfield (hbefore t ht h)⟩
      rw [parseParam_nil (not_mem_intercalate hflag hnone), eq_comm, List.filterMap_eq_nil_iff]
      exact fun t ht => if_neg (hnone t ht)

/-- Otherwise some key contains the separator. -/
theorem exists_merged_key (trim : Bytes → Bytes) (hflag : flag ≠ 61) (hsegments : ∀ s ∈ segments, flag ∉ s)
    (hfirst : ¬ segments.Pairwise fun s t => 61 ∈ t → 61 ∈ s) :
    ∃ entry ∈ parseParam flag trim ([flag].intercalate segments), ∃ key, entry.1 = trim key ∧ flag ∈ key ∧
      key ⊆ [flag].intercalate segments := by
  induction segments with
  | nil => exact absurd List.Pairwise.nil hfirst
  | cons s segments ih =>
    obtain ⟨hs, hrest⟩ := List.forall_mem_cons.mp hsegments
    have hnil : segments ≠ [] := by
      rintro rfl
      exact hfirst (List.pairwise_singleton _ _)
    rw [List.intercalate_cons_of_ne_nil hnil, List.append_assoc]
    by_cases hfield : 61 ∈ s
    · have hlater : ¬ segments.Pairwise fun s t => 61 ∈ t → 61 ∈ s :=
        fun h => hfirst (List.pairwise_cons.mpr ⟨fun t _ _ => hfield, h⟩)
      obtain ⟨entry, hentry, merged, hmerged, hmem, hsubset⟩ := ih hrest hlater
      obtain ⟨key, val, rfl, hcut⟩ := List.eq_append_cons_of_mem hfield
      have hval : flag ∉ val := fun h => hs (List.mem_append_right key (List.mem_cons_of_mem 61 h))
      rw [List.append_assoc, List.cons_append, List.singleton_append, parseParam_more hcut hval]
      refine ⟨entry, List.mem_cons_of_mem _ hentry, merged, hmerged, hmem, fun c hc => ?_⟩
      exact List.mem_append_right key (List.mem_cons_of_mem _ (List.mem_append_right val
        (List.mem_cons_of_mem _ (hsubset hc))))
    · obtain ⟨t, ht, hfield'⟩ : ∃ t ∈ segments, 61 ∈ t := by
        by_contra hnot
        have hnone : ∀ t ∈ segments, 61 ∉ t := fun t ht h => hnot ⟨t, ht, h⟩
        refine hfirst (List.pairwise_cons.mpr ⟨fun t ht h => absurd h (hnone t ht), ?_⟩)
        exact List.pairwise_of_forall_mem_list fun u _ t ht h => absurd h (hnone t ht)
      have hmem : 61 ∈ [flag].intercalate segments := List.mem_intercalate_of_mem ht hfield'
      obtain ⟨key, rest, hcut, hkey⟩ := List.eq_append_cons_of_mem hmem
      have hjoined : s ++ ([flag] ++ [flag].intercalate segments) = (s ++ flag :: key) ++ 61 :: rest := by
        rw [hcut]
        simp
      have hfront : 61 ∉ s ++ flag :: key := by
        simp only [List.mem_append, List.mem_cons, not_or]
        exact ⟨hfield, hflag.symm, hkey⟩
      rw [hjoined]
      by_cases hmore : flag ∈ rest
      · obtain ⟨val, behind, rfl, hval⟩ := List.eq_append_cons_of_mem hmore
        rw [parseParam_more hfront hval]
        exact ⟨_, List.mem_cons_self, _, rfl, by simp, List.subset_append_left _ _⟩
      · rw [parseParam_last hfront hmore]
        exact ⟨_, List.mem_cons_self, _, rfl, by simp, List.subset_append_left _ _⟩

/-- The keys of the segments are bytes of the text, without the separator. -/
theorem mem_segmentEntries {entry : Bytes × Bytes} (h : entry ∈ segmentEntries flag trim str) :
    ∃ key, entry.1 = trim key ∧ key ⊆ str ∧ flag ∉ key := by
  obtain ⟨s, hs, hentry⟩ := List.mem_filterMap.mp h
  have hflag := List.not_mem_of_mem_splitOn hs
  have hstr : s ⊆ str := by
    intro c hc
    have hjoined : [flag].intercalate (str.splitOn flag) = str := List.intercalate_splitOn flag
    rw [← hjoined]
    exact List.mem_intercalate_of_mem hs hc
  unfold segmentEntry at hentry
  split at hentry
  · obtain rfl := Option.some.inj hentry
    have hkey := List.takeWhile_subset (l := s) fun c => !decide (c = 61)
    exact ⟨_, rfl, fun c hc => hstr (hkey hc), fun hc => hflag (hkey hc)⟩
  · cases hentry

end Segments

/-! ## Maps -/

/-- Without NUL, names are compared in full. -/
theorem caseKey_eq {s : Bytes} (hs : 0 ∉ s) : caseKey s = s.map fun c => (toLower c).toNat := by
  have hall : ∀ c ∈ s, (!decide (c = 0)) = true := by
    intro c hc
    simpa using fun h : c = 0 => hs (h ▸ hc)
  rw [caseKey, List.takeWhile_eq_self_iff.mpr hall]

/-- A separator is not a letter. -/
def IsSeparator (flag : UInt8) : Prop := ∀ c, toLower c = toLower flag → c = flag

/-- A name that contains a separator is not the same as one that does not. -/
theorem mem_of_caseKey_eq {flag : UInt8} {k l : Bytes} (hflag : IsSeparator flag) (hk : 0 ∉ k) (hl : 0 ∉ l)
    (h : caseKey k = caseKey l) (hmem : flag ∈ k) : flag ∈ l := by
  rw [caseKey_eq hk, caseKey_eq hl] at h
  have hlower : (toLower flag).toNat ∈ l.map fun c => (toLower c).toNat :=
    h ▸ List.mem_map.mpr ⟨flag, hmem, rfl⟩
  obtain ⟨c, hc, heq⟩ := List.mem_map.mp hlower
  rwa [← hflag c (UInt8.toNat_inj.mp heq)]

namespace HeaderMap

/-- A name of an entry is found. -/
theorem find_of_mem {m : HeaderMap} {entry : Bytes × Bytes} (h : entry ∈ m) :
    ∃ val, HeaderMap.find entry.1 m = some val := by
  induction m with
  | nil => cases h
  | cons x m ih =>
    rw [find_cons]
    rcases List.mem_cons.mp h with rfl | h
    · exact ⟨_, if_pos rfl⟩
    · split
      · exact ⟨_, rfl⟩
      · exact ih h

/-- What is found has an entry under the same name. -/
theorem exists_mem_of_find {m : HeaderMap} {k val : Bytes} (h : HeaderMap.find k m = some val) :
    ∃ entry ∈ m, caseKey k = caseKey entry.1 := by
  by_contra hnone
  have hnot : ∀ x ∈ m, caseKey x.1 ≠ caseKey k := fun x hx heq => hnone ⟨x, hx, heq.symm⟩
  rw [find_eq_none hnot] at h
  cases h

end HeaderMap

section Maps

variable {flag : UInt8} {trim : Bytes → Bytes} {str : Bytes}

/-- The map that is parsed is that of the segments exactly when the segments with an equals sign come first. -/
theorem insertAll_parseParam_iff (hflag : IsSeparator flag) (hfield : flag ≠ 61)
    (htrim : ∀ key, flag ∈ key ↔ flag ∈ trim key) (hsubset : ∀ key, trim key ⊆ key) (hnul : 0 ∉ str) :
    HeaderMap.insertAll (parseParam flag trim str) [] = HeaderMap.insertAll (segmentEntries flag trim str) [] ↔
      FieldsFirst flag str := by
  have hsegments : ∀ s ∈ str.splitOn flag, flag ∉ s := fun s hs => List.not_mem_of_mem_splitOn hs
  constructor
  · intro hmap
    by_contra hfirst
    obtain ⟨entry, hentry, key, hkey, hmem, hinside⟩ := exists_merged_key trim hfield hsegments hfirst
    rw [List.intercalate_splitOn] at hentry hinside
    obtain ⟨val, hval⟩ := HeaderMap.find_of_mem hentry
    have hfind : HeaderMap.find entry.1 (HeaderMap.insertAll (segmentEntries flag trim str) []) = some val := by
      rw [← hmap, HeaderMap.find_insertAll, hval]
      rfl
    rw [HeaderMap.find_insertAll] at hfind
    obtain ⟨other, hother, hsame⟩ := HeaderMap.exists_mem_of_find hfind
    obtain ⟨key', hkey', hstr, hnone⟩ := mem_segmentEntries hother
    have hmem' : flag ∈ entry.1 := hkey ▸ (htrim key).mp hmem
    have hnone' : flag ∉ other.1 := fun h => hnone ((htrim key').mpr (hkey' ▸ h))
    refine hnone' (mem_of_caseKey_eq hflag ?_ ?_ hsame hmem')
    · exact fun h => hnul (hinside (hsubset key (hkey ▸ h)))
    · exact fun h => hnul (hstr (hsubset key' (hkey' ▸ h)))
  · intro hfirst
    have hparsed := parseParam_intercalate trim hfield hsegments hfirst
    rw [List.intercalate_splitOn] at hparsed
    rw [hparsed]
    rfl

end Maps

/-- A byte below the letters is a separator. -/
theorem isSeparator_of_lt {flag : UInt8} (hflag : flag.toNat < 65) : IsSeparator flag := by
  intro c hc
  have hsame : toLower flag = flag := if_neg (by omega)
  rw [hsame] at hc
  unfold toLower at hc
  split at hc
  · rename_i hletter
    have hsum := congrArg UInt8.toNat hc
    rw [UInt8.toNat_add] at hsum
    change (c.toNat + 32) % 256 = flag.toNat at hsum
    omega
  · exact hc

/-- Trimming drops bytes at both ends. -/
theorem trim_subset (key : Bytes) : trim key ⊆ key := by
  intro c hc
  have hfront := (List.dropWhile_sublist _).subset (List.mem_reverse.mp hc)
  exact (List.dropWhile_sublist _).subset (List.mem_reverse.mp hfront)

/-- Trimming keeps a byte that is no delimiter. -/
theorem mem_trim {c : UInt8} (hc : isTrimmed c = false) {key : Bytes} : c ∈ key ↔ c ∈ trim key := by
  have hkept : ∀ l : Bytes, c ∈ l → c ∈ l.dropWhile isTrimmed := by
    intro l hl
    rw [← List.takeWhile_append_dropWhile (p := isTrimmed) (l := l)] at hl
    refine (List.mem_append.mp hl).resolve_left fun hdropped => ?_
    rw [List.mem_takeWhile_imp hdropped] at hc
    cases hc
  constructor
  · intro hmem
    exact List.mem_reverse.mpr (hkept _ (List.mem_reverse.mpr (hkept key hmem)))
  · exact fun hmem => trim_subset key hmem

/-- The content type says that the body is a form. -/
def HttpRequest.IsForm (r : HttpRequest) : Prop :=
  caseKey (asciiText ['a', 'p', 'p', 'l', 'i', 'c', 'a', 't', 'i', 'o', 'n', '/', 'x', '-', 'w', 'w', 'w', '-',
    'f', 'o', 'r', 'm', '-', 'u', 'r', 'l', 'e', 'n', 'c', 'o', 'd', 'e', 'd']) <:+:
    caseKey (r.getHeader (asciiText ['c', 'o', 'n', 't', 'e', 'n', 't', '-', 't', 'y', 'p', 'e']))

/-- The content type can be checked. -/
instance (r : HttpRequest) : Decidable r.IsForm :=
  inferInstanceAs (Decidable (caseKey _ <:+: caseKey _))

namespace ParamRequest

/-- The maps that are parsed from the query, from the body of a form and from the cookies are those of the
segments exactly when no segment without an equals sign stands in front of one with an equals sign. -/
theorem parsed_by_segments_iff (r : HttpRequest) :
    (0 ∉ r.query → ((unparsed r [] []).initQueryParam.params =
      HeaderMap.insertAll (segmentEntries 38 id r.query) [] ↔ FieldsFirst 38 r.query)) ∧
    (0 ∉ r.body → r.IsForm → ((unparsed r [] []).initBodyParam.params =
      HeaderMap.insertAll (segmentEntries 38 id r.body) [] ↔ FieldsFirst 38 r.body)) ∧
    (0 ∉ r.getHeader (asciiText ['c', 'o', 'o', 'k', 'i', 'e']) →
      ((unparsed r [] []).initCookies.cookies =
        HeaderMap.insertAll (segmentEntries 59 trim (r.getHeader (asciiText ['c', 'o', 'o', 'k', 'i', 'e']))) [] ↔
          FieldsFirst 59 (r.getHeader (asciiText ['c', 'o', 'o', 'k', 'i', 'e'])))) := by
  refine ⟨fun hnul => ?_, fun hnul hform => ?_, fun hnul => ?_⟩
  · exact insertAll_parseParam_iff (isSeparator_of_lt (by decide)) (by decide) (fun _ => Iff.rfl)
      (fun key => List.Subset.refl key) hnul
  · have hentries : (unparsed r [] []).bodyEntries = parseParam 38 id r.body := if_pos hform
    have hparams : (unparsed r [] []).initBodyParam.params =
        HeaderMap.insertAll (unparsed r [] []).bodyEntries [] := rfl
    rw [hparams, hentries]
    exact insertAll_parseParam_iff (isSeparator_of_lt (by decide)) (by decide) (fun _ => Iff.rfl)
      (fun key => List.Subset.refl key) hnul
  · exact insertAll_parseParam_iff (isSeparator_of_lt (by decide)) (by decide) (fun _ => mem_trim (by decide))
      trim_subset hnul

/-- A request with the query `a=1&b`, the form body `c=2` and the cookies `d=3; e=4`. -/
def formRequest : HttpRequest :=
  { HttpRequest.fresh with
    query := asciiText ['a', '=', '1', '&', 'b']
    body := asciiText ['c', '=', '2']
    headers := [
      (asciiText ['c', 'o', 'n', 't', 'e', 'n', 't', '-', 't', 'y', 'p', 'e'],
        asciiText ['a', 'p', 'p', 'l', 'i', 'c', 'a', 't', 'i', 'o', 'n', '/', 'x', '-', 'w', 'w', 'w', '-',
          'f', 'o', 'r', 'm', '-', 'u', 'r', 'l', 'e', 'n', 'c', 'o', 'd', 'e', 'd']),
      (asciiText ['c', 'o', 'o', 'k', 'i', 'e'], asciiText ['d', '=', '3', ';', ' ', 'e', '=', '4'])] }

/-- Its maps are those of the segments. -/
theorem parsed_by_segments_formRequest :
    (unparsed formRequest [] []).initQueryParam.params =
        HeaderMap.insertAll (segmentEntries 38 id formRequest.query) [] ∧
      (unparsed formRequest [] []).initBodyParam.params =
        HeaderMap.insertAll (segmentEntries 38 id formRequest.body) [] ∧
      (unparsed formRequest [] []).initCookies.cookies =
        HeaderMap.insertAll (segmentEntries 59 trim
          (formRequest.getHeader (asciiText ['c', 'o', 'o', 'k', 'i', 'e']))) [] := by
  obtain ⟨hquery, hbody, hcookies⟩ := parsed_by_segments_iff formRequest
  refine ⟨(hquery ?_).mpr ?_, (hbody ?_ ?_).mpr ?_, (hcookies ?_).mpr ?_⟩
  all_goals decide

/-- The query `a&b=1` gives the parameter `a&b`, where the segments give `b`. -/
theorem merged_parameter : 0 ∉ asciiText ['a', '&', 'b', '=', '1'] ∧
    (unparsed { HttpRequest.fresh with query := asciiText ['a', '&', 'b', '=', '1'] } [] []).initQueryParam.params ≠
      HeaderMap.insertAll (segmentEntries 38 id (asciiText ['a', '&', 'b', '=', '1'])) [] := by
  refine ⟨by decide, fun hmap => ?_⟩
  have hfirst := (insertAll_parseParam_iff (isSeparator_of_lt (by decide)) (by decide) (fun _ => Iff.rfl)
    (fun key => List.Subset.refl key) (by decide)).mp hmap
  exact absurd hfirst (by decide)

end ParamRequest

/-! ## Encoded queries -/

/-- `setQuery`. -/
def HttpRequest.setQuery (r : HttpRequest) (v : Bytes) : HttpRequest := { r with query := v }

/-- Pairs of a key and the encoding of a value, joined to a query. -/
def encodedQuery (pairs : List (Bytes × Bytes)) : Bytes :=
  [38].intercalate (pairs.map fun x => x.1 ++ 61 :: StringUtil.urlEncode x.2 true)

/-- An encoded value does not contain the separator. -/
theorem not_mem_urlEncode (v : Bytes) : 38 ∉ StringUtil.urlEncode v true := by
  rw [StringUtil.urlEncode_eq]
  intro hmem
  obtain ⟨c, _, hc⟩ := List.mem_flatMap.mp hmem
  split at hc
  · rename_i hunreserved
    exact (StringUtil.ne_of_charIsUnreserved hunreserved).2.2 (List.mem_singleton.mp hc).symm
  · unfold StringUtil.encodeChar at hc
    split at hc
    · cases List.mem_singleton.mp hc
    · have hdigits : ∀ d < 16, StringUtil.hexdigits.getD d 0 ≠ 38 := by decide
      obtain ⟨hhigh, hlow⟩ := StringUtil.halves_lt c
      simp only [List.mem_cons, List.not_mem_nil, or_false] at hc
      rcases hc with hc | hc | hc
      · cases hc
      · exact hdigits _ hhigh hc.symm
      · exact hdigits _ hlow hc.symm

/-- The entries of an encoded query are the pairs. -/
theorem parseParam_encodedQuery {pairs : List (Bytes × Bytes)} (hkeys : ∀ x ∈ pairs, 61 ∉ x.1 ∧ 38 ∉ x.1) :
    parseParam 38 id (encodedQuery pairs) = pairs := by
  have hsegments : ∀ s ∈ pairs.map fun x => x.1 ++ 61 :: StringUtil.urlEncode x.2 true, (38 : UInt8) ∉ s := by
    intro s hs
    obtain ⟨x, hx, rfl⟩ := List.mem_map.mp hs
    simp only [List.mem_append, List.mem_cons, not_or]
    exact ⟨(hkeys x hx).2, by decide, not_mem_urlEncode x.2⟩
  have hfields : ∀ s ∈ pairs.map fun x => x.1 ++ 61 :: StringUtil.urlEncode x.2 true, (61 : UInt8) ∈ s := by
    intro s hs
    obtain ⟨x, _, rfl⟩ := List.mem_map.mp hs
    simp
  rw [encodedQuery, parseParam_intercalate id (by decide) hsegments
    (List.pairwise_of_forall_mem_list fun s hs _ _ _ => hfields s hs)]
  clear hsegments hfields
  induction pairs with
  | nil => rfl
  | cons x pairs ih =>
    obtain ⟨hx, hrest⟩ := List.forall_mem_cons.mp hkeys
    have hdecoded : urlDecode (StringUtil.urlEncode x.2 true) = x.2 := by
      rw [← StringUtil.plainDecode_true, StringUtil.urlEncode_eq, StringUtil.plainDecode_plainEncode]
    rw [List.map_cons, List.filterMap_cons, segmentEntry_cut hx.1, hdecoded, ih hrest]
    rfl

/-- Each of several different names is found with its value. -/
theorem HeaderMap.find_of_pairwise {m : HeaderMap} {x : Bytes × Bytes}
    (hdistinct : m.Pairwise fun x y => caseKey x.1 ≠ caseKey y.1) (hx : x ∈ m) :
    HeaderMap.find x.1 m = some x.2 := by
  induction m with
  | nil => cases hx
  | cons y m ih =>
    obtain ⟨hfirst, hrest⟩ := List.pairwise_cons.mp hdistinct
    rw [find_cons]
    rcases List.mem_cons.mp hx with rfl | hx
    · exact if_pos rfl
    · rw [if_neg fun heq => hfirst x hx heq.symm, ih hrest hx]

/-- Names without NUL are the same if and only if they differ in case only. -/
theorem caseKey_eq_iff {k l : Bytes} (hk : 0 ∉ k) (hl : 0 ∉ l) :
    caseKey k = caseKey l ↔ k.map toLower = l.map toLower := by
  rw [caseKey_eq hk, caseKey_eq hl]
  constructor
  · intro h
    refine List.map_injective_iff.mpr (fun c d hcd => UInt8.toNat_inj.mp hcd) ?_
    rwa [List.map_map, List.map_map]
  · intro h
    have hmap := congrArg (List.map UInt8.toNat) h
    rwa [List.map_map, List.map_map] at hmap

namespace ParamRequest

/-- The parameters of an encoded query are found again with their values, and no others. -/
theorem encodedQuery_found (r : HttpRequest) (pairs : List (Bytes × Bytes)) (hbody : ¬ r.IsForm ∨ r.body = [])
    (hkeys : ∀ x ∈ pairs, 61 ∉ x.1 ∧ 38 ∉ x.1 ∧ 0 ∉ x.1)
    (hdistinct : pairs.Pairwise fun x y => x.1.map toLower ≠ y.1.map toLower) :
    (∀ x ∈ pairs, ∀ default,
      ((unparsed (r.setQuery (encodedQuery pairs)) [] []).getParam x.1 default).1 = x.2) ∧
    ∀ key, 0 ∉ key → (∀ x ∈ pairs, key.map toLower ≠ x.1.map toLower) → ∀ val,
      ((unparsed (r.setQuery (encodedQuery pairs)) [] []).hasParam key val).1.1 = false := by
  have hbodyEntries : (unparsed (r.setQuery (encodedQuery pairs)) [] []).bodyEntries = [] := by
    rcases hbody with hform | hempty
    · exact if_neg hform
    · have hnil : parseParam 38 id r.body = [] := hempty ▸ parseParam_nil List.not_mem_nil
      have hentries : (unparsed (r.setQuery (encodedQuery pairs)) [] []).bodyEntries =
          if r.IsForm then parseParam 38 id r.body else [] := rfl
      rw [hentries, hnil, ite_self]
  have hqueryEntries : (unparsed (r.setQuery (encodedQuery pairs)) [] []).queryEntries = pairs :=
    parseParam_encodedQuery fun x hx => ⟨(hkeys x hx).1, (hkeys x hx).2.1⟩
  have hparams :
      (unparsed (r.setQuery (encodedQuery pairs)) [] []).initQueryParam.initBodyParam.params =
        HeaderMap.insertAll pairs [] := by
    have hboth : (unparsed (r.setQuery (encodedQuery pairs)) [] []).initQueryParam.initBodyParam.params =
        HeaderMap.insertAll (unparsed (r.setQuery (encodedQuery pairs)) [] []).bodyEntries
          (HeaderMap.insertAll (unparsed (r.setQuery (encodedQuery pairs)) [] []).queryEntries []) := rfl
    rw [hboth, hbodyEntries, hqueryEntries]
    rfl
  have hkeysDistinct : pairs.Pairwise fun x y => caseKey x.1 ≠ caseKey y.1 := by
    refine hdistinct.imp_of_mem fun hx hy hne heq => hne ?_
    exact (caseKey_eq_iff (hkeys _ hx).2.2 (hkeys _ hy).2.2).mp heq
  constructor
  · intro x hx default
    rw [getParam, hparams, HeaderMap.find_insertAll, HeaderMap.find_of_pairwise hkeysDistinct hx]
    rfl
  · intro key hkey hother val
    have hnone : HeaderMap.find key pairs = none :=
      HeaderMap.find_eq_none fun x hx heq => hother x hx ((caseKey_eq_iff hkey (hkeys x hx).2.2).mp heq.symm)
    rw [hasParam, hparams, HeaderMap.find_insertAll, hnone]
    rfl

/-- The query `k=a%26b&l=` of two pairs. -/
theorem encodedQuery_found_twoPairs :
    ((unparsed (HttpRequest.fresh.setQuery (encodedQuery
        [(asciiText ['k'], asciiText ['a', '&', 'b']), (asciiText ['l'], [])])) [] []).getParam
          (asciiText ['k']) []).1 = asciiText ['a', '&', 'b'] ∧
      ((unparsed (HttpRequest.fresh.setQuery (encodedQuery
        [(asciiText ['k'], asciiText ['a', '&', 'b']), (asciiText ['l'], [])])) [] []).hasParam
          (asciiText ['b']) false).1.1 = false := by
  obtain ⟨hget, hhas⟩ := encodedQuery_found HttpRequest.fresh
    [(asciiText ['k'], asciiText ['a', '&', 'b']), (asciiText ['l'], [])] (.inr rfl) (by decide) (by decide)
  exact ⟨hget (asciiText ['k'], asciiText ['a', '&', 'b']) List.mem_cons_self [],
    hhas (asciiText ['b']) (by decide) (by decide) false⟩

end ParamRequest

end Bobliew.Http
