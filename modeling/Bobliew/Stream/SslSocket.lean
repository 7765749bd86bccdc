import Bobliew.Stream.FixSize

/-!
# Vectored transfers of an SSL socket

`SSLSocket::recv` and `SSLSocket::send` with an array of buffers perform one `SSL_read` or `SSL_write` for each
buffer, with its length as an `int`. They go on to the next buffer when the operation has transferred this `int`, and
return the total otherwise. An operation that fails ends them with its own result, also when earlier operations have
transferred something, which is then not reported.
-/

namespace Bobliew.SSLSocket

open Http (Bytes toInt32)
open FixedTransfer
open Bobliew.Stream (ErrorCode CallResult notConnected toInt32_eq)

/-- The results of the operations on a connection, the first for the first buffer. -/
abbrev Answers {A : Type} (size : A → ℕ) := ℕ → (n : ℕ) → Answer ErrorCode size n

/-- What a call returns, and what its operations have transferred, one for each buffer from the first on. -/
abbrev Transferred (A : Type) := ℤ × List A

section Loop

variable {A : Type} {size : A → ℕ}

/-- The loop over the buffers, with the sum of the results so far. -/
def transferLoop (answers : Answers size) (total : ℕ) : List Bytes → Transferred A
  | [] => (toInt32 total, [])
  | buffer :: buffers =>
    match answers 0 (toInt32 buffer.length).toNat with
    | .failed tmp => (tmp, [])
    | .moved data _ _ =>
      if (size data : ℤ) ≠ toInt32 buffer.length then (toInt32 (total + size data), [data])
      else
        let rest := transferLoop (fun i => answers (i + 1)) (total + size data) buffers
        (rest.1, data :: rest.2)

end Loop

/-- Store what has been received into the buffers. -/
def storeInto : List Bytes → List Bytes → List Bytes
  | buffer :: buffers, got :: pieces => buffer.overwrite 0 got :: storeInto buffers pieces
  | buffers, _ => buffers

/-- What `recv` returns, the buffers afterwards, and what each operation has received. -/
structure Received where
  result : ℤ
  memory : List Bytes
  pieces : List Bytes

/-- `SSLSocket::recv(buffers, length, flags)`. -/
def recv (m_ssl : Option (Answers (A := Bytes) List.length)) (buffers : List Bytes) : Received :=
  match m_ssl with
  | none => ⟨notConnected, buffers, []⟩
  | some SSL_read =>
    let r := transferLoop SSL_read 0 buffers
    ⟨r.1, storeInto buffers r.2, r.2⟩

/-- What `send` returns, and what each operation has taken. -/
structure Sent where
  result : ℤ
  pieces : List Bytes

/-- `SSLSocket::send(buffers, length, flags)`. -/
def send (m_ssl : Option (Answers (A := ℕ) id)) (buffers : List Bytes) : Sent :=
  match m_ssl with
  | none => ⟨notConnected, []⟩
  | some SSL_write =>
    let w := transferLoop SSL_write 0 buffers
    ⟨w.1, List.zipWith List.take w.2 buffers⟩

/-- The beginning of every buffer that takes part in the transfer is behind all that is transferred before it. -/
def InOrder (buffers : List Bytes) (counts : List ℕ) : Prop :=
  ∀ j < counts.length, ((buffers.take j).map List.length).sum = (counts.take j).sum

/-- A transfer is reported as it has taken place. -/
structure Accounted (result : ℤ) (buffers : List Bytes) (counts : List ℕ) : Prop where
  positive : 0 < counts.sum → result = counts.sum
  nonpositive : result ≤ 0 → counts.sum = 0
  inOrder : InOrder buffers counts

/-- What is received is reported, and the buffers are filled with it from the first byte on. -/
structure Filled (buffers : List Bytes) (received : Received) : Prop
    extends Accounted received.result buffers (received.pieces.map List.length) where
  memory : received.memory.flatten =
    received.pieces.flatten ++ buffers.flatten.drop received.pieces.flatten.length

/-- What is sent is reported, and it is the beginning of the buffers. -/
structure Drained (buffers : List Bytes) (sent : Sent) : Prop
    extends Accounted sent.result buffers (sent.pieces.map List.length) where
  data : sent.pieces.flatten = buffers.flatten.take sent.pieces.flatten.length

section Condition

variable {A : Type} {size : A → ℕ}

/-- The number of units that the first operation transfers. -/
def first (answers : Answers size) (buffer : Bytes) : ℕ := (answers 0 (toInt32 buffer.length).toNat).count

/-- Some operations transfer the whole of their buffers, and one behind them transfers something, which is not all
of its length as an `int` unless it is for the last buffer. The sum is below the largest `int`. -/
inductive Unbroken : Answers size → ℕ → List Bytes → Prop
  | last {answers : Answers size} {total : ℕ} {buffer : Bytes} {buffers : List Bytes} : 0 < first answers buffer →
      buffers = [] ∨ (first answers buffer : ℤ) ≠ toInt32 buffer.length → total + first answers buffer < 2 ^ 31 →
      Unbroken answers total (buffer :: buffers)
  | whole {answers : Answers size} {total : ℕ} {buffer : Bytes} {buffers : List Bytes} : 0 < first answers buffer →
      first answers buffer = buffer.length →
      Unbroken (fun i => answers (i + 1)) (total + first answers buffer) buffers →
      Unbroken answers total (buffer :: buffers)

/-- Nothing is transferred because there is no connection or no buffer, or because the first operation fails, or the
operations that transfer something are not followed by one that fails. -/
def Sound (m_ssl : Option (Answers size)) (buffers : List Bytes) : Prop :=
  match m_ssl, buffers with
  | none, _ => True
  | some _, [] => True
  | some answers, buffer :: buffers => first answers buffer = 0 ∨ Unbroken answers 0 (buffer :: buffers)

variable {answers : Answers size} {total : ℕ} {buffer : Bytes} {buffers : List Bytes} {counts : List ℕ}

/-! ## One operation -/

/-- A length is its `int` if and only if it is below the largest one. -/
theorem toInt32_eq_iff {n : ℕ} : toInt32 n = n ↔ n < 2 ^ 31 := by
  refine ⟨fun h => ?_, toInt32_eq⟩
  unfold toInt32 at h
  split at h <;> omega

/-- An operation transfers no more than the length as an `int`, and this is no more than the length. -/
theorem first_le (answers : Answers size) (buffer : Bytes) :
    first answers buffer ≤ (toInt32 buffer.length).toNat ∧ toInt32 buffer.length ≤ buffer.length := by
  constructor
  · unfold first
    cases answers 0 (toInt32 buffer.length).toNat with
    | failed code => exact Nat.zero_le _
    | moved data _ le => exact le
  · unfold toInt32
    split <;> omega

/-- What the loop does with a buffer. -/
theorem transferLoop_cases (answers : Answers size) (total : ℕ) (buffer : Bytes) (buffers : List Bytes) :
    (∃ tmp : ErrorCode, first answers buffer = 0 ∧ transferLoop answers total (buffer :: buffers) = (tmp.val, [])) ∨
    ∃ data, 0 < first answers buffer ∧ size data = first answers buffer ∧
      ((first answers buffer : ℤ) ≠ toInt32 buffer.length ∧
        transferLoop answers total (buffer :: buffers) = (toInt32 (total + first answers buffer), [data]) ∨
      (first answers buffer : ℤ) = toInt32 buffer.length ∧
        transferLoop answers total (buffer :: buffers) =
          ((transferLoop (fun i => answers (i + 1)) (total + first answers buffer) buffers).1,
            data :: (transferLoop (fun i => answers (i + 1)) (total + first answers buffer) buffers).2)) := by
  unfold first
  rw [transferLoop]
  cases answers 0 (toInt32 buffer.length).toNat with
  | failed tmp => exact .inl ⟨tmp, rfl, rfl⟩
  | moved data pos le =>
    refine .inr ⟨data, pos, rfl, ?_⟩
    dsimp only [Answer.count]
    by_cases hshort : (size data : ℤ) ≠ toInt32 buffer.length
    · exact .inl ⟨hshort, if_pos hshort⟩
    · exact .inr ⟨not_not.mp hshort, if_neg hshort⟩

/-- Nothing is transferred in order. -/
theorem inOrder_nil (buffers : List Bytes) : InOrder buffers [] := fun j hj => absurd hj (Nat.not_lt_zero j)

/-- One buffer before the others: unless it is the last one, it is transferred to its end. -/
theorem inOrder_cons {count : ℕ} : InOrder (buffer :: buffers) (count :: counts) ↔
    (counts = [] ∨ count = buffer.length) ∧ InOrder buffers counts := by
  constructor
  · intro h
    cases counts with
    | nil => exact ⟨.inl rfl, inOrder_nil buffers⟩
    | cons next counts =>
      have hfull : buffer.length = count := by simpa using h 1 (by simp)
      refine ⟨.inr hfull.symm, fun j hj => ?_⟩
      have hnext := h (j + 1) (by simpa using hj)
      simp only [List.take_succ_cons, List.map_cons, List.sum_cons, hfull] at hnext
      omega
  · rintro ⟨hfull, hrest⟩ j hj
    cases j with
    | zero => rfl
    | succ j =>
      have hj' : j < counts.length := by simpa using hj
      have hcount : count = buffer.length := hfull.resolve_left (List.length_pos_iff.mp (by omega))
      simp only [List.take_succ_cons, List.map_cons, List.sum_cons, hrest j hj', hcount]

/-- An operation that transfers the whole of a buffer goes on to the next one. -/
theorem whole_eq (hpos : 0 < first answers buffer) (hwhole : first answers buffer = buffer.length) :
    (first answers buffer : ℤ) = toInt32 buffer.length := by
  obtain ⟨hle, hint⟩ := first_le answers buffer
  omega

/-! ## The loop -/

/-- The loop over some buffers returns the sum, and transfers in order. -/
def Exact (answers : Answers size) (total : ℕ) (buffers : List Bytes) : Prop :=
  (transferLoop answers total buffers).1 = total + ((transferLoop answers total buffers).2.map size).sum ∧
    InOrder buffers ((transferLoop answers total buffers).2.map size)

/-- Operations that are not broken off transfer something. -/
theorem Unbroken.moved (h : Unbroken answers total buffers) : (transferLoop answers total buffers).2 ≠ [] := by
  have hpos : ∃ buffer rest, buffers = buffer :: rest ∧ 0 < first answers buffer := by
    cases h with
    | last hpos _ _ => exact ⟨_, _, rfl, hpos⟩
    | whole hpos _ _ => exact ⟨_, _, rfl, hpos⟩
  obtain ⟨buffer, rest, rfl, hpos⟩ := hpos
  rcases transferLoop_cases answers total buffer rest with ⟨_, hzero, _⟩ | ⟨data, _, _, ⟨_, heq⟩ | ⟨_, heq⟩⟩
  · omega
  · rw [heq]
    exact List.cons_ne_nil _ _
  · rw [heq]
    exact List.cons_ne_nil _ _

/-- At the buffer that ends the loop the sum is returned if and only if it is an `int`. -/
theorem ends_iff (hpos : 0 < first answers buffer)
    (hend : buffers = [] ∨ (first answers buffer : ℤ) ≠ toInt32 buffer.length) :
    toInt32 (total + first answers buffer) = (total : ℤ) + first answers buffer ↔
      Unbroken answers total (buffer :: buffers) := by
  rw [← Nat.cast_add, toInt32_eq_iff]
  refine ⟨.last hpos hend, fun h => ?_⟩
  cases h with
  | last _ _ hsmall => exact hsmall
  | whole _ hwhole hrest =>
    rcases hend with rfl | hshort
    · cases hrest
    · exact absurd (whole_eq hpos hwhole) hshort

/-- Once something has been transferred, the loop returns the sum and transfers in order if and only if it is not
broken off. -/
theorem exact_iff (answers : Answers size) (total : ℕ) (hne : buffers ≠ [])
    (hstart : ∀ buffer rest, buffers = buffer :: rest → 0 < total + first answers buffer) :
    Exact answers total buffers ↔ Unbroken answers total buffers := by
  induction buffers generalizing answers total with
  | nil => exact absurd rfl hne
  | cons buffer buffers ih =>
    have hstart := hstart buffer buffers rfl
    unfold Exact
    rcases transferLoop_cases answers total buffer buffers with
      ⟨tmp, hzero, heq⟩ | ⟨data, hpos, hsize, ⟨hshort, heq⟩ | ⟨hgoes, heq⟩⟩
    · refine iff_of_false (fun h => ?_) fun h => ?_
      · have hresult := h.1
        have hcode := tmp.property
        rw [heq] at hresult
        simp only [List.map_nil, List.sum_nil] at hresult
        omega
      · cases h <;> omega
    · have hone : InOrder (buffer :: buffers) [first answers buffer] := inOrder_cons.mpr ⟨.inl rfl, inOrder_nil buffers⟩
      rw [heq, ← ends_iff hpos (.inr hshort)]
      simp only [List.map_cons, List.map_nil, List.sum_cons, List.sum_nil, Nat.add_zero, hone, and_true, hsize]
    · rw [heq]
      rcases eq_or_ne buffers [] with rfl | hrest
      · have hone : InOrder [buffer] [first answers buffer] := inOrder_cons.mpr ⟨.inl rfl, inOrder_nil []⟩
        rw [← ends_iff hpos (.inl rfl)]
        simp only [transferLoop, List.map_cons, List.map_nil, List.sum_cons, List.sum_nil, Nat.add_zero, hone,
          and_true, hsize]
      · have hnext := ih (fun i => answers (i + 1)) (total + first answers buffer) hrest
          (fun _ _ _ => by omega)
        simp only [List.map_cons, List.sum_cons, hsize, inOrder_cons, List.map_eq_nil_iff]
        constructor
        · rintro ⟨hresult, hfull, horder⟩
          have hunbroken := hnext.mp ⟨by rw [hresult]; omega, horder⟩
          exact .whole hpos (hfull.resolve_left hunbroken.moved) hunbroken
        · intro h
          cases h with
          | last _ hlast _ => exact absurd hgoes (hlast.resolve_left hrest)
          | whole _ hwhole hunbroken =>
            obtain ⟨hresult, horder⟩ := hnext.mpr hunbroken
            exact ⟨by rw [hresult]; omega, .inr hwhole, horder⟩

/-- A call that transfers nothing reports no number. -/
theorem accounted_nil {result : ℤ} (buffers : List Bytes) : Accounted result buffers [] where
  positive := fun hpos => absurd hpos (lt_irrefl 0)
  nonpositive := fun _ => rfl
  inOrder := inOrder_nil buffers

/-- A call with a connection accounts for what it has transferred if and only if the first operation fails or the
operations are not broken off. -/
theorem accounted_iff (answers : Answers size) (buffers : List Bytes) :
    Accounted (transferLoop answers 0 buffers).1 buffers ((transferLoop answers 0 buffers).2.map size) ↔
      Sound (some answers) buffers := by
  cases buffers with
  | nil => exact iff_of_true (accounted_nil []) trivial
  | cons buffer buffers =>
    change _ ↔ first answers buffer = 0 ∨ Unbroken answers 0 (buffer :: buffers)
    rcases transferLoop_cases answers 0 buffer buffers with ⟨tmp, hzero, heq⟩ | ⟨data, hpos, hsize, hcases⟩
    · rw [heq]
      exact iff_of_true (accounted_nil _) (.inl hzero)
    · have hexact := exact_iff answers 0 (List.cons_ne_nil buffer buffers) fun _ _ heq => by
        cases heq
        omega
      have hsum : 0 < ((transferLoop answers 0 (buffer :: buffers)).2.map size).sum := by
        rcases hcases with ⟨_, heq⟩ | ⟨_, heq⟩
        · rw [heq, List.map_cons, List.sum_cons, hsize]
          omega
        · rw [heq, List.map_cons, List.sum_cons, hsize]
          omega
      rw [or_iff_right hpos.ne', ← hexact]
      constructor
      · intro h
        exact ⟨by rw [h.positive hsum]; simp, h.inOrder⟩
      · rintro ⟨hresult, horder⟩
        exact ⟨fun _ => by rw [hresult]; simp, fun hle => by rw [hresult] at hle; omega, horder⟩

end Condition

/-! ## The bytes -/

/-- No buffer takes part with more than its length. -/
def Fits : List Bytes → List ℕ → Prop
  | _, [] => True
  | [], _ :: _ => False
  | buffer :: buffers, count :: counts => count ≤ buffer.length ∧ Fits buffers counts

/-- Nothing fits. -/
theorem fits_nil (buffers : List Bytes) : Fits buffers [] := by
  cases buffers <;> trivial

/-- What the loop has transferred fits into the buffers. -/
theorem fits_transferLoop {A : Type} {size : A → ℕ} (answers : Answers size) (total : ℕ) (buffers : List Bytes) :
    Fits buffers ((transferLoop answers total buffers).2.map size) := by
  induction buffers generalizing answers total with
  | nil => trivial
  | cons buffer buffers ih =>
    obtain ⟨hle, hint⟩ := first_le answers buffer
    rcases transferLoop_cases answers total buffer buffers with
      ⟨tmp, _, heq⟩ | ⟨data, _, hsize, ⟨_, heq⟩ | ⟨_, heq⟩⟩
    · rw [heq]
      exact fits_nil _
    · rw [heq]
      exact ⟨by rw [hsize]; omega, fits_nil _⟩
    · rw [heq]
      exact ⟨by rw [hsize]; omega, ih _ _⟩

/-- What is stored in order fills the buffers from the first byte on. -/
theorem flatten_storeInto {buffers pieces : List Bytes} (hfits : Fits buffers (pieces.map List.length))
    (h : InOrder buffers (pieces.map List.length)) :
    (storeInto buffers pieces).flatten = pieces.flatten ++ buffers.flatten.drop pieces.flatten.length := by
  induction buffers generalizing pieces with
  | nil =>
    cases pieces with
    | nil => rfl
    | cons got pieces => exact hfits.elim
  | cons buffer buffers ih =>
    cases pieces with
    | nil => rfl
    | cons got pieces =>
      obtain ⟨hle, hfits⟩ := hfits
      obtain ⟨hfull, horder⟩ := inOrder_cons.mp h
      have hstored : buffer.overwrite 0 got = got ++ buffer.drop got.length := by simp [List.overwrite]
      rw [storeInto, List.flatten_cons, ih hfits horder, hstored, List.flatten_cons, List.flatten_cons,
        List.length_append]
      rcases hfull with hlast | hwhole
      · obtain rfl : pieces = [] := List.map_eq_nil_iff.mp hlast
        simp [List.drop_append_of_le_length hle]
      · rw [hwhole, List.drop_length, ← List.drop_drop, List.drop_left]
        simp

/-- As many bytes are taken from the buffers as are counted. -/
theorem length_zipWith_take {buffers : List Bytes} {counts : List ℕ} (hfits : Fits buffers counts) :
    (List.zipWith List.take counts buffers).map List.length = counts := by
  induction buffers generalizing counts with
  | nil =>
    cases counts with
    | nil => rfl
    | cons count counts => exact hfits.elim
  | cons buffer buffers ih =>
    cases counts with
    | nil => rfl
    | cons count counts =>
      rw [List.zipWith_cons_cons, List.map_cons, ih hfits.2, List.length_take_of_le hfits.1]

/-- What is taken in order is the beginning of the buffers. -/
theorem flatten_zipWith_take {buffers : List Bytes} {counts : List ℕ} (hfits : Fits buffers counts)
    (h : InOrder buffers counts) :
    (List.zipWith List.take counts buffers).flatten = buffers.flatten.take counts.sum := by
  induction buffers generalizing counts with
  | nil =>
    cases counts with
    | nil => rfl
    | cons count counts => exact hfits.elim
  | cons buffer buffers ih =>
    cases counts with
    | nil => rfl
    | cons count counts =>
      obtain ⟨hle, hfits⟩ := hfits
      obtain ⟨hfull, horder⟩ := inOrder_cons.mp h
      rw [List.zipWith_cons_cons, List.flatten_cons, ih hfits horder, List.flatten_cons, List.sum_cons]
      rcases hfull with rfl | rfl
      · simp [List.take_append_of_le_length hle]
      · rw [List.take_length, List.take_length_add_append]

/-! ## The calls -/

/-- `recv` and `send` return the number of bytes transferred whenever it is positive, nothing positive when none was
transferred, and fill or drain the buffers in order, if and only if no operation fails behind one that has
transferred something, every buffer before the last one that takes part is transferred to its end, and the number is
below the largest `int`. -/
theorem accounted_iff_sound (buffers : List Bytes) :
    (∀ m_ssl, Filled buffers (recv m_ssl buffers) ↔ Sound m_ssl buffers) ∧
      ∀ m_ssl, Drained buffers (send m_ssl buffers) ↔ Sound m_ssl buffers := by
  constructor
  · rintro (_ | SSL_read)
    · exact iff_of_true ⟨accounted_nil buffers, rfl⟩ trivial
    · rw [← accounted_iff]
      exact ⟨Filled.toAccounted, fun h => ⟨h, flatten_storeInto (fits_transferLoop SSL_read 0 buffers) h.inOrder⟩⟩
  · rintro (_ | SSL_write)
    · exact iff_of_true ⟨accounted_nil buffers, rfl⟩ trivial
    · have hfits := fits_transferLoop SSL_write 0 buffers
      have hlengths := length_zipWith_take hfits
      rw [← accounted_iff]
      rw [List.map_id] at hfits hlengths ⊢
      have hlength : (send (some SSL_write) buffers).pieces.map List.length = (transferLoop SSL_write 0 buffers).2 :=
        hlengths
      refine ⟨fun h => hlength ▸ h.toAccounted, fun h => ⟨hlength.symm ▸ h, ?_⟩⟩
      rw [List.length_flatten, hlength]
      exact flatten_zipWith_take hfits h.inOrder

/-- A connection that receives four bytes and then fails. -/
def fourBytes : Answers (A := Bytes) List.length := fun i n =>
  if h : i = 0 ∧ 4 ≤ n then .moved [1, 2, 3, 4] (by decide) h.2 else .failed notConnected

/-- Four bytes are received into the first of two buffers, and the call returns an error. -/
theorem not_filled_fourBytes : (recv (some fourBytes) [[0, 0, 0, 0], [0, 0, 0, 0]]).pieces = [[1, 2, 3, 4]] ∧
    (recv (some fourBytes) [[0, 0, 0, 0], [0, 0, 0, 0]]).result = -1 ∧
    ¬ Filled [[0, 0, 0, 0], [0, 0, 0, 0]] (recv (some fourBytes) [[0, 0, 0, 0], [0, 0, 0, 0]]) := by
  refine ⟨by decide, by decide, fun h => ?_⟩
  have hreported := h.positive (by decide)
  revert hreported
  decide

end Bobliew.SSLSocket
