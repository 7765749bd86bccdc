import Mathlib.Data.List.Basic
import Mathlib.Order.Nat

/-!
# Slicing vectors

`Slice` cuts a vector into vectors of a given size, the last of which may be shorter. The rest gets shorter by the
size with every round of the loop, and so the loop ends unless the size is 0 and there is something to cut: then
it pushes empty vectors for ever.
-/

namespace Bobliew.Slice

variable {T : Type*}

/-- Why there is no result: the loop has not ended within its rounds, or an element behind the end was read. -/
inductive Fault where
  | rounds
  | outOfRange
  deriving DecidableEq, Repr

/-- The loops over `i`: the elements of `src` behind `pos` are pushed to `tmp`, from the one at `i` on. -/
def pushFrom (src : List T) (pos i : ℕ) (tmp : List T) : ℕ → Except Fault (List T)
  | 0 => .ok tmp
  | count + 1 =>
    match src[pos + i]? with
    | none => .error .outOfRange
    | some t => pushFrom src pos (i + 1) (tmp ++ [t]) count

/-- The loop of `Slice`, and what is done behind it. -/
def sliceFrom (src : List T) (size : ℕ) : ℕ → ℕ → ℕ → List (List T) → Except Fault (List (List T))
  | 0, _, _, _ => .error .rounds
  | rounds + 1, left, pos, dst =>
    if left > size then do
      let tmp ← pushFrom src pos 0 [] size
      sliceFrom src size rounds (left - size) (pos + size) (dst ++ [tmp])
    else if left > 0 then do
      let tmp ← pushFrom src pos 0 [] left
      return dst ++ [tmp]
    else return dst

/-- `Slice`, within a number of rounds. -/
def slice (rounds : ℕ) (dst : List (List T)) (src : List T) (size : ℕ) : Except Fault (List (List T)) :=
  sliceFrom src size rounds src.length 0 dst

/-- The slices of a vector. -/
structure Slices (src : List T) (size : ℕ) (slices : List (List T)) : Prop where
  flatten : slices.flatten = src
  nonempty : ∀ tmp ∈ slices, tmp ≠ []
  full : ∀ tmp ∈ slices.dropLast, tmp.length = size
  last : ∀ tmp ∈ slices.getLast?, tmp.length ≤ size

/-- What `Slice` is for: with enough rounds it appends the slices of `src`. -/
def Sliced (src : List T) (size : ℕ) : Prop :=
  ∃ slices, Slices src size slices ∧
    ∃ enough, ∀ rounds ≥ enough, ∀ dst, slice rounds dst src size = .ok (dst ++ slices)

variable {src rest : List T} {size : ℕ} {slices : List (List T)}

/-! ## The slices of a vector -/

/-- Nothing has no slices. -/
theorem Slices.nil (size : ℕ) : Slices ([] : List T) size [] where
  flatten := rfl
  nonempty := by simp
  full := by simp
  last := by simp

/-- What fits in one slice is one slice. -/
theorem Slices.single (hne : src ≠ []) (hle : src.length ≤ size) : Slices src size [src] where
  flatten := by simp
  nonempty := by simpa using hne
  full := by simp
  last := by simpa using hle

/-- A full slice in front of the slices of a rest. -/
theorem Slices.cons {tmp : List T} (hpos : 0 < size) (hlength : tmp.length = size) (h : Slices rest size slices) :
    Slices (tmp ++ rest) size (tmp :: slices) where
  flatten := by rw [List.flatten_cons, h.flatten]
  nonempty := by
    refine List.forall_mem_cons.mpr ⟨?_, h.nonempty⟩
    exact List.length_pos_iff.mp (by omega)
  full := by
    cases slices with
    | nil => simp
    | cons first slices =>
      rw [List.dropLast_cons_cons]
      exact List.forall_mem_cons.mpr ⟨hlength, h.full⟩
  last := by
    cases slices with
    | nil => simpa using hlength.le
    | cons first slices =>
      rw [List.getLast?_cons_cons]
      exact h.last

/-! ## What the loops do -/

/-- The elements read are those between the two positions. -/
theorem pushFrom_eq (src : List T) (pos i : ℕ) (tmp : List T) (count : ℕ) (h : pos + i + count ≤ src.length) :
    pushFrom src pos i tmp count = .ok (tmp ++ (src.drop (pos + i)).take count) := by
  induction count generalizing i tmp with
  | zero => simp [pushFrom]
  | succ count ih =>
    have hlt : pos + i < src.length := by omega
    rw [pushFrom, List.getElem?_eq_getElem hlt, List.drop_eq_getElem_cons hlt, List.take_succ_cons]
    simp only
    rw [ih (i + 1) _ (by omega), ← Nat.add_assoc, List.append_assoc, List.singleton_append]

/-- **What the loop does.** It appends the slices of what is left, with at most a round for each element left. -/
theorem sliceFrom_eq (hpos : 0 < size) (left pos : ℕ) (hleft : pos + left = src.length) :
    ∃ slices, Slices (src.drop pos) size slices ∧
      ∀ rounds > left, ∀ dst, sliceFrom src size rounds left pos dst = .ok (dst ++ slices) := by
  induction left using Nat.strongRecOn generalizing pos with
  | ind left ih =>
    have hrest : (src.drop pos).length = left := by
      rw [List.length_drop]
      omega
    by_cases hmore : left > size
    · obtain ⟨slices, hslices, hrun⟩ := ih (left - size) (by omega) (pos + size) (by omega)
      have hread := pushFrom_eq src pos 0 [] size (by omega)
      have htake : ((src.drop pos).take size).length = size := List.length_take_of_le (by omega)
      refine ⟨(src.drop pos).take size :: slices, ?_, ?_⟩
      · rw [← List.drop_drop] at hslices
        have hcons := hslices.cons hpos htake
        rwa [List.take_append_drop] at hcons
      · rintro (_ | rounds) hrounds dst
        · omega
        · rw [sliceFrom, if_pos hmore, hread]
          have hnext := hrun rounds (by omega) (dst ++ [(src.drop pos).take size])
          rw [List.append_assoc, List.singleton_append] at hnext
          exact hnext
    · by_cases hsome : left > 0
      · have hread := pushFrom_eq src pos 0 [] left (by omega)
        rw [Nat.add_zero, List.take_of_length_le hrest.le] at hread
        refine ⟨[src.drop pos], Slices.single (List.length_pos_iff.mp (by omega)) (by omega), ?_⟩
        rintro (_ | rounds) hrounds dst
        · omega
        · rw [sliceFrom, if_neg hmore, if_pos hsome, hread]
          rfl
      · refine ⟨[], ?_, ?_⟩
        · rw [List.length_eq_zero_iff.mp (show (src.drop pos).length = 0 by omega)]
          exact Slices.nil size
        · rintro (_ | rounds) hrounds dst
          · omega
          · rw [sliceFrom, if_neg hmore, if_neg hsome, List.append_nil]
            rfl

/-- With size 0 the loop never ends when something is left. -/
theorem sliceFrom_zero (src : List T) {left : ℕ} (hleft : 0 < left) (rounds pos : ℕ) (dst : List (List T)) :
    sliceFrom src 0 rounds left pos dst = .error .rounds := by
  induction rounds generalizing pos dst with
  | zero => rfl
  | succ rounds ih =>
    rw [sliceFrom, if_pos hleft]
    exact ih pos (dst ++ [[]])

/-- Nothing but the empty vector is cut into slices of size 0. -/
theorem Sliced.eq_nil_of_zero (h : Sliced src 0) : src = [] := by
  obtain ⟨slices, _, enough, hrun⟩ := h
  by_contra hne
  have hend := hrun enough le_rfl []
  rw [slice, sliceFrom_zero src (List.length_pos_iff.mpr hne)] at hend
  cases hend

/-- **When a vector is sliced.** `Slice` does what it is for exactly with a size that is not 0, or with nothing to
slice. -/
theorem sliced_iff (src : List T) (size : ℕ) : Sliced src size ↔ 0 < size ∨ src = [] := by
  constructor
  · intro h
    rcases Nat.eq_zero_or_pos size with rfl | hpos
    · exact .inr h.eq_nil_of_zero
    · exact .inl hpos
  · rintro (hpos | rfl)
    · obtain ⟨slices, hslices, hrun⟩ := sliceFrom_eq hpos src.length 0 (Nat.zero_add src.length)
      rw [List.drop_zero] at hslices
      exact ⟨slices, hslices, src.length + 1, hrun⟩
    · refine ⟨[], Slices.nil size, 1, ?_⟩
      rintro (_ | rounds) hrounds dst
      · omega
      · rw [List.append_nil]
        rfl

/-- One element is never cut into slices of size 0. -/
theorem not_sliced_zero : ¬Sliced ['a'] 0 := fun h => List.cons_ne_nil 'a' [] h.eq_nil_of_zero

end Bobliew.Slice
