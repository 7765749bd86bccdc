import Bobliew.Stream.ZlibStream

/-!
# What the result of a decoding stream says

`inflate` reports data that is not valid with codes of their own, and the end of the data with `Z_STREAM_END`. The
loops of `decode` look for one of these codes only: a call of `write` or `flush` returns `Z_STREAM_ERROR` when some
call of `inflate` has returned it, and `Z_OK` otherwise.

So the calls return `Z_OK` for data that is damaged and for data that is cut off.
-/

namespace Bobliew

open Http (Bytes)

def Z_NEED_DICT : ℤ := 2

def Z_DATA_ERROR : ℤ := -3

def Z_MEM_ERROR : ℤ := -4

def Z_BUF_ERROR : ℤ := -5

namespace ZlibStream

/-- The codes by which `inflate` reports an error. -/
def errorCodes : List ℤ := [Z_DATA_ERROR, Z_NEED_DICT, Z_MEM_ERROR, Z_STREAM_ERROR]

/-- No call of `inflate` has reported an error, and the end of the data was reached. -/
def Intact (codes : List ℤ) : Prop := (∀ code ∈ codes, code ∉ errorCodes) ∧ Z_STREAM_END ∈ codes

/-- When all calls of `write` and `flush` return `Z_OK`, the data was intact. -/
def OkMeansIntact (results codes : List ℤ) : Prop := (∀ ret ∈ results, ret = Z_OK) → Intact codes

section Calls

variable (deflate inflate : Codec) (rounds : ℕ)

/-- Some calls of `write`, and `flush`: what they return. -/
def results : List (List Bytes) → ZlibStream → Option (List ℤ × ZlibStream)
  | [], z => (flush deflate inflate rounds z).map fun r => ([r.1], r.2)
  | v :: writes, z =>
    match write deflate inflate rounds v z with
    | none => none
    | some (ret, z) => (results writes z).map fun r => (ret :: r.1, r.2)

/-- The stream is the one after these calls. -/
theorem writeAndFlush_eq_results (writes : List (List Bytes)) (z : ZlibStream) :
    writeAndFlush deflate inflate rounds writes z = (results deflate inflate rounds writes z).map Prod.snd := by
  induction writes generalizing z with
  | nil =>
    rw [writeAndFlush, results, Option.map_map]
    rfl
  | cons v writes ih =>
    rw [writeAndFlush, results]
    cases write deflate inflate rounds v z with
    | none => rfl
    | some r =>
      dsimp only
      rw [ih, Option.map_map]
      rfl

end Calls

variable {codec deflate inflate : Codec} {z z' : ZlibStream} {flush : Flush} {input : Bytes} {rounds : ℕ}
  {error : Option ℤ} {codes : List ℤ}

/-- What the loops make of the codes that calls of the library return. -/
def errorOf (codes : List ℤ) : Option ℤ := if Z_STREAM_ERROR ∈ codes then some Z_STREAM_ERROR else none

/-- Codes without `Z_STREAM_ERROR` make no difference. -/
theorem errorOf_append (h : Z_STREAM_ERROR ∉ codes) (more : List ℤ) : errorOf (codes ++ more) = errorOf more := by
  simp [errorOf, h]

/-- A call of the library adds its code. -/
theorem returned_called (codec : Codec) (flush : Flush) (input : Bytes) (z : ZlibStream) :
    returned (z.called codec flush input) = returned z.m_zstream ++ [(z.answer codec flush input).ret] := by
  rw [called, returned_append]
  rfl

/-- The loop for one buffer ends with an error exactly when the last call has returned it. -/
theorem flateLoop_error (h : flateLoop codec flush rounds input z = some (error, z')) :
    ∃ codes, returned z'.m_zstream = returned z.m_zstream ++ codes ∧ error = errorOf codes := by
  refine flateLoop_induct (P := fun _ z error z' =>
    ∃ codes, returned z'.m_zstream = returned z.m_zstream ++ codes ∧ error = errorOf codes) ?_ ?_ ?_ h
  · intro input z hret
    refine ⟨[Z_STREAM_ERROR], ?_, by simp [errorOf]⟩
    rw [← hret]
    exact returned_called codec flush input z
  · intro input z hret _
    exact ⟨_, returned_called codec flush input z, by simp [errorOf, Ne.symm hret]⟩
  · rintro input z error z' hret _ ⟨codes, hcodes, rfl⟩
    refine ⟨(z.answer codec flush input).ret :: codes, ?_, ?_⟩
    · rw [hcodes]
      change returned (z.called codec flush input) ++ codes = _
      rw [returned_called, List.append_assoc]
      rfl
    · have hone : Z_STREAM_ERROR ∉ [(z.answer codec flush input).ret] := by simpa using Ne.symm hret
      exact (errorOf_append hone codes).symm

/-- The loop over the buffers ends with an error exactly when a call has returned it. -/
theorem flateBuffers_error {finish : Bool} {v : List Bytes}
    (h : flateBuffers codec rounds finish v z = some (error, z')) :
    ∃ codes, returned z'.m_zstream = returned z.m_zstream ++ codes ∧ error = errorOf codes := by
  induction v generalizing z with
  | nil =>
    cases h
    exact ⟨[], (List.append_nil _).symm, rfl⟩
  | cons iov v ih =>
    rw [flateBuffers] at h
    split at h
    · cases h
    · rename_i hloop
      cases h
      exact flateLoop_error hloop
    · rename_i hloop
      obtain ⟨first, hfirst, hnone⟩ := flateLoop_error hloop
      obtain ⟨rest, hrest, rfl⟩ := ih h
      have hclean : Z_STREAM_ERROR ∉ first := by
        intro hmem
        rw [errorOf, if_pos hmem] at hnone
        cases hnone
      exact ⟨first ++ rest, by rw [hrest, hfirst, List.append_assoc], (errorOf_append hclean rest).symm⟩

/-- **The result of a call.** A call of `encode` or `decode` returns `Z_STREAM_ERROR` when one of its calls of the
library has returned it, and `Z_OK` otherwise. -/
theorem flate_ret {finish : Bool} {v : List Bytes} {ret : ℤ} (h : flate codec rounds v finish z = some (ret, z')) :
    ∃ codes, returned z'.m_zstream = returned z.m_zstream ++ codes ∧ (ret = Z_OK ↔ Z_STREAM_ERROR ∉ codes) := by
  unfold flate at h
  split at h
  · cases h
  · rename_i hloop
    cases h
    obtain ⟨codes, hcodes, herror⟩ := flateBuffers_error hloop
    refine ⟨codes, hcodes, ?_⟩
    unfold errorOf at herror
    split at herror
    · rename_i hmem
      cases herror
      exact iff_of_false (by decide) (not_not.mpr hmem)
    · cases herror
  · rename_i done hloop
    cases h
    obtain ⟨codes, hcodes, herror⟩ := flateBuffers_error hloop
    refine ⟨codes, ?_, iff_of_true rfl fun hmem => ?_⟩
    · split
      · change returned (done.m_zstream ++ [.ended]) = _
        rw [returned_append, hcodes]
        exact List.append_nil _
      · exact hcodes
    · rw [errorOf, if_pos hmem] at herror
      cases herror

/-- `write`. -/
theorem write_ret {v : List Bytes} {ret : ℤ} (h : write deflate inflate rounds v z = some (ret, z')) :
    ∃ codes, returned z'.m_zstream = returned z.m_zstream ++ codes ∧ (ret = Z_OK ↔ Z_STREAM_ERROR ∉ codes) := by
  unfold write at h
  split at h
  · exact flate_ret h
  · exact flate_ret h

/-- `flush`. -/
theorem flush_ret {ret : ℤ} (h : ZlibStream.flush deflate inflate rounds z = some (ret, z')) :
    ∃ codes, returned z'.m_zstream = returned z.m_zstream ++ codes ∧ (ret = Z_OK ↔ Z_STREAM_ERROR ∉ codes) := by
  unfold ZlibStream.flush at h
  split at h
  · exact flate_ret h
  · exact flate_ret h

/-- All calls return `Z_OK` exactly when no call of the library has returned `Z_STREAM_ERROR`. -/
theorem results_ok {writes : List (List Bytes)} {rets : List ℤ}
    (h : results deflate inflate rounds writes z = some (rets, z')) :
    ∃ codes, returned z'.m_zstream = returned z.m_zstream ++ codes ∧
      ((∀ ret ∈ rets, ret = Z_OK) ↔ Z_STREAM_ERROR ∉ codes) := by
  induction writes generalizing z rets with
  | nil =>
    obtain ⟨⟨ret, z''⟩, hflush, hpair⟩ := Option.map_eq_some_iff.mp h
    cases hpair
    obtain ⟨codes, hcodes, hret⟩ := flush_ret hflush
    exact ⟨codes, hcodes, by simpa using hret⟩
  | cons v writes ih =>
    rw [results] at h
    split at h
    · cases h
    · rename_i ret next hwrite
      obtain ⟨⟨rest, z''⟩, hresults, hpair⟩ := Option.map_eq_some_iff.mp h
      cases hpair
      obtain ⟨first, hfirst, hret⟩ := write_ret hwrite
      obtain ⟨later, hlater, hrets⟩ := ih hresults
      refine ⟨first ++ later, by rw [hlater, hfirst, List.append_assoc], ?_⟩
      rw [List.forall_mem_cons, hret, hrets, List.mem_append, not_or]

/-- When the results of a new stream say that the data was intact: when `Z_STREAM_ERROR` was returned, or the data was
in fact intact. -/
theorem okMeansIntact_iff {encode : Bool} {buffSize : ℕ} {writes : List (List Bytes)} {rets : List ℤ}
    (h : results deflate inflate rounds writes (create encode buffSize) = some (rets, z)) :
    OkMeansIntact rets (returned z.m_zstream) ↔
      Z_STREAM_ERROR ∈ returned z.m_zstream ∨ Intact (returned z.m_zstream) := by
  obtain ⟨codes, hcodes, hok⟩ := results_ok h
  rw [show returned z.m_zstream = codes from hcodes, OkMeansIntact, hok, or_iff_not_imp_left]

end ZlibStream

end Bobliew
