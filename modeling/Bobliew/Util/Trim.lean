import Bobliew.Http.Params
import Bobliew.Lib.Trimmed

/-!
# Trimming strings

`StringUtil::TrimLeft`, `TrimRight` and `Trim` cut a string at the first and behind the last character that is not a
delimiter. `TrimRight` takes the position of the last one for a length, and so drops it too: it is the longest
prefix that does not end in a delimiter with its last character gone. Only for strings of delimiters is there no
such character, and only these are trimmed as they should be.
-/

namespace Bobliew.StringUtil

open Http (Bytes)
open Trimmed

/-- Whether a character is one of the delimiters. -/
def delimits (delimit : Bytes) (c : UInt8) : Bool := decide (c ∈ delimit)

/-- `find_first_not_of`; none for `npos`. -/
def findFirstNotOf (str delimit : Bytes) : Option ℕ := str.findIdx? fun c => !delimits delimit c

/-- `find_last_not_of`; none for `npos`. -/
def findLastNotOf (str delimit : Bytes) : Option ℕ :=
  (str.reverse.findIdx? fun c => !delimits delimit c).map fun i => str.length - 1 - i

/-- `substr`, from a position inside the string. -/
def substr (str : Bytes) (pos count : ℕ) : Bytes := (str.drop pos).take count

/-- `StringUtil::Trim`. When there is a first character, there is a last one. -/
def trim (str delimit : Bytes) : Bytes :=
  match findFirstNotOf str delimit with
  | none => []
  | some first =>
    match findLastNotOf str delimit with
    | none => []
    | some last => substr str first (last - first + 1)

/-- `StringUtil::TrimLeft`. -/
def trimLeft (str delimit : Bytes) : Bytes :=
  match findFirstNotOf str delimit with
  | none => []
  | some first => str.drop first

/-- `StringUtil::TrimRight`. -/
def trimRight (str delimit : Bytes) : Bytes :=
  match findLastNotOf str delimit with
  | none => []
  | some last => substr str 0 last

/-- What the three functions are for, on a string. -/
structure Trims (str delimit : Bytes) : Prop where
  right : LongestPrefix (NotEnding (delimits delimit)) str (trimRight str delimit)
  left : LongestSuffix (NotBeginning (delimits delimit)) str (trimLeft str delimit)
  leftOfRight : trim str delimit = trimLeft (trimRight str delimit) delimit
  rightOfLeft : trim str delimit = trimRight (trimLeft str delimit) delimit
  idempotent : trim (trim str delimit) delimit = trim str delimit
  idempotentLeft : trimLeft (trimLeft str delimit) delimit = trimLeft str delimit
  idempotentRight : trimRight (trimRight str delimit) delimit = trimRight str delimit

variable {str delimit : Bytes}

/-! ## What the functions compute -/

/-- There is no first character that is not a delimiter exactly in strings of delimiters. -/
theorem findFirstNotOf_eq_none_iff : findFirstNotOf str delimit = none ↔ ∀ c ∈ str, delimits delimit c = true := by
  simp [findFirstNotOf]

/-- `TrimLeft` drops the delimiters at the beginning. -/
theorem trimLeft_eq (str delimit : Bytes) : trimLeft str delimit = str.dropWhile (delimits delimit) := by
  rw [List.dropWhile_eq_drop_findIdx_not]
  unfold trimLeft
  cases hfirst : findFirstNotOf str delimit with
  | none =>
    rw [findFirstNotOf, List.findIdx?_eq_none_iff_findIdx_eq] at hfirst
    rw [hfirst, List.drop_length]
  | some first =>
    obtain ⟨_, hfirst⟩ := List.findIdx?_eq_some_iff_findIdx_eq.mp hfirst
    rw [hfirst]

/-- The characters up to the last one that is not a delimiter. -/
theorem take_findLastNotOf {last : ℕ} (h : findLastNotOf str delimit = some last) :
    last < str.length ∧ str.take (last + 1) = str.rdropWhile (delimits delimit) := by
  obtain ⟨i, hi, rfl⟩ := Option.map_eq_some_iff.mp h
  obtain ⟨hlt, hi⟩ := List.findIdx?_eq_some_iff_findIdx_eq.mp hi
  rw [List.length_reverse] at hlt
  refine ⟨by omega, ?_⟩
  rw [List.rdropWhile, List.dropWhile_eq_drop_findIdx_not, hi, List.drop_reverse, List.reverse_reverse]
  congr 1
  omega

/-- There is a last one as soon as there is a first one. -/
theorem findLastNotOf_eq_none_iff : findLastNotOf str delimit = none ↔ ∀ c ∈ str, delimits delimit c = true := by
  simp [findLastNotOf]

/-- `TrimRight` drops the delimiters at the end and one character more. -/
theorem trimRight_eq (str delimit : Bytes) : trimRight str delimit = (str.rdropWhile (delimits delimit)).dropLast := by
  unfold trimRight
  cases hlast : findLastNotOf str delimit with
  | none =>
    rw [List.rdropWhile_eq_nil_iff.mpr (findLastNotOf_eq_none_iff.mp hlast)]
    rfl
  | some last =>
    obtain ⟨hlt, htake⟩ := take_findLastNotOf hlast
    have hlength : (str.take (last + 1)).length = last + 1 := List.length_take_of_le hlt
    rw [← htake, List.dropLast_eq_take, hlength, Nat.add_sub_cancel, List.take_take,
      Nat.min_eq_left (Nat.le_succ last)]
    rfl

/-- `Trim` drops the delimiters at both ends. -/
theorem trim_eq (str delimit : Bytes) :
    trim str delimit = (str.dropWhile (delimits delimit)).rdropWhile (delimits delimit) := by
  rw [← trimLeft_eq]
  unfold trim trimLeft
  cases hfirst : findFirstNotOf str delimit with
  | none => rfl
  | some first =>
    have hsome : findLastNotOf str delimit ≠ none := by
      rw [Ne, findLastNotOf_eq_none_iff, ← findFirstNotOf_eq_none_iff, hfirst]
      exact Option.some_ne_none first
    obtain ⟨last, hlast⟩ := Option.ne_none_iff_exists'.mp hsome
    obtain ⟨hlt, htake⟩ := take_findLastNotOf hlast
    obtain ⟨hin, hc, _⟩ := List.findIdx?_eq_some_iff_getElem.mp hfirst
    -- The rest behind the first character is not dropped at the end.
    have hrest : (str.drop first).rdropWhile (delimits delimit) ≠ [] := by
      rw [Ne, List.rdropWhile_eq_nil_iff]
      intro hall
      have hhead := hall str[first] (by rw [List.drop_eq_getElem_cons hin]; exact List.mem_cons_self)
      rw [hhead] at hc
      cases hc
    have hsplit := rdropWhile_append hrest (str.take first)
    rw [List.take_append_drop, ← htake] at hsplit
    have hlength : (str.take first).length = first := List.length_take_of_le hin.le
    have hle : first ≤ last := by
      have hlong := congrArg List.length hsplit
      have hpos := List.length_pos_iff.mpr hrest
      rw [List.length_take_of_le hlt, List.length_append, hlength] at hlong
      omega
    have hdrop := congrArg (List.drop first) hsplit
    rw [List.drop_left' hlength, List.drop_take, Nat.sub_add_comm hle] at hdrop
    rw [hlast]
    exact hdrop

/-- `TrimLeft` is idempotent on all strings. -/
theorem trimLeft_idempotent (str delimit : Bytes) : trimLeft (trimLeft str delimit) delimit = trimLeft str delimit := by
  rw [trimLeft_eq, trimLeft_eq, List.dropWhile_idempotent]

/-- `Trim` is idempotent on all strings. -/
theorem trim_idempotent (str delimit : Bytes) : trim (trim str delimit) delimit = trim str delimit := by
  rw [trim_eq, trim_eq, dropWhile_rdropWhile, List.dropWhile_idempotent, List.rdropWhile_idempotent]

/-- `TrimLeft` does what it is for. -/
theorem longestSuffix_trimLeft (str delimit : Bytes) :
    LongestSuffix (NotBeginning (delimits delimit)) str (trimLeft str delimit) := by
  rw [trimLeft_eq]
  exact longestSuffix_dropWhile _ str

/-- `TrimRight` does what it is for exactly on strings of delimiters. -/
theorem longestPrefix_trimRight_iff (str delimit : Bytes) :
    LongestPrefix (NotEnding (delimits delimit)) str (trimRight str delimit) ↔
      ∀ c ∈ str, delimits delimit c = true := by
  have hdropped := longestPrefix_rdropWhile (delimits delimit) str
  rw [trimRight_eq, ← List.rdropWhile_eq_nil_iff]
  constructor
  · intro h
    have hlength := congrArg List.length (h.unique hdropped)
    rw [List.length_dropLast] at hlength
    exact List.length_eq_zero_iff.mp (by omega)
  · intro hnil
    rw [hnil] at hdropped ⊢
    exact hdropped

/-- Strings of delimiters are trimmed to nothing. -/
theorem trims_of_forall (h : ∀ c ∈ str, delimits delimit c = true) : Trims str delimit := by
  have hleft : trimLeft str delimit = [] := by rwa [trimLeft_eq, List.dropWhile_eq_nil_iff]
  have hright : trimRight str delimit = [] := by
    rw [trimRight_eq, List.rdropWhile_eq_nil_iff.mpr h]
    rfl
  have htrim : trim str delimit = [] := by
    rw [trim_eq, ← trimLeft_eq, hleft]
    rfl
  exact {
    right := (longestPrefix_trimRight_iff str delimit).mpr h
    left := longestSuffix_trimLeft str delimit
    leftOfRight := by
      rw [htrim, hright]
      rfl
    rightOfLeft := by
      rw [htrim, hleft]
      rfl
    idempotent := trim_idempotent str delimit
    idempotentLeft := trimLeft_idempotent str delimit
    idempotentRight := by
      rw [hright]
      rfl }

/-- **When a string is trimmed.** The three functions do what they are for exactly on strings of delimiters. -/
theorem trims_iff (str delimit : Bytes) : Trims str delimit ↔ ∀ c ∈ str, c ∈ delimit := by
  have hdelimits : (∀ c ∈ str, delimits delimit c = true) ↔ ∀ c ∈ str, c ∈ delimit := by simp [delimits]
  rw [← hdelimits]
  exact ⟨fun h => (longestPrefix_trimRight_iff str delimit).mp h.right, trims_of_forall⟩

/-- `TrimRight` of a text without spaces loses its last letter. -/
theorem not_trims_text : ¬Trims [97, 98] [32] := by
  intro h
  have hkept : NotEnding (delimits [32]) [97, 98] := by
    rintro x ⟨⟩
    rfl
  have hlong := h.right.longest [97, 98] List.prefix_rfl hkept
  revert hlong
  decide

end Bobliew.StringUtil
