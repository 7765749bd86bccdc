import Bobliew.Lib.WeakOrder
import Mathlib.Algebra.Order.Group.Int
import Mathlib.Algebra.Order.Ring.Int
import Mathlib.Order.RelClasses

/-!
# Binary search

`BinarySearch` looks for a value between two positions of a sorted array, both included, so that the last one becomes
-1 when the value is less than all elements. All elements in front of the two are less than the value and all
behind them are greater, and in the end nothing is left between them.
-/

namespace Bobliew.BinarySearch

open WeakOrder

variable {T : Type}

/-- Why there is no result: the loop has not ended within its rounds, an `int` does not hold a number, or an element
outside the array was read. -/
inductive Fault where
  | rounds
  | overflow
  | outOfRange
  deriving DecidableEq, Repr

/-- An `int` with the value of an expression. -/
def int (value : ℤ) : Except Fault ℤ := if -2 ^ 31 ≤ value ∧ value < 2 ^ 31 then .ok value else .error .overflow

/-- `arr[m]`. -/
def elementAt (arr : List T) (m : ℤ) : Except Fault T :=
  if 0 ≤ m then
    match arr[m.toNat]? with
    | some t => .ok t
    | none => .error .outOfRange
  else .error .outOfRange

/-- The loop of `BinarySearch` with the positions `begin` and `end`, and the result behind it. -/
def searchBetween (lt : T → T → Prop) [DecidableRel lt] (arr : List T) (v : T) :
    ℕ → ℤ → ℤ → Except Fault ℤ
  | 0, _, _ => .error .rounds
  | rounds + 1, begin, last =>
    if begin ≤ last then do
      let m := (← int (begin + last)).tdiv 2
      let element ← elementAt arr m
      if lt v element then
        searchBetween lt arr v rounds begin (← int (m - 1))
      else if lt element v then
        searchBetween lt arr v rounds (← int (m + 1)) last
      else return m
    else do
      let negated ← int (-begin)
      int (negated - 1)

/-- `BinarySearch`, within a number of rounds. -/
def binarySearch (rounds : ℕ) (lt : T → T → Prop) [DecidableRel lt] (arr : List T) (length : ℤ) (v : T) :
    Except Fault ℤ := do
  let last ← int (length - 1)
  searchBetween lt arr v rounds 0 last

/-- What the result says: where an element equivalent to the value is, or how many are less than it. -/
structure Answers (lt : T → T → Prop) [DecidableRel lt] (arr : List T) (v : T) (result : ℤ) : Prop where
  hit : (∃ t ∈ arr, Equivalent lt t v) → ∃ i : ℕ, ∃ hi : i < arr.length, result = i ∧ Equivalent lt arr[i] v
  miss : (¬∃ t ∈ arr, Equivalent lt t v) → result = -(arr.countP (fun t => decide (lt t v)) + 1)

/-- What the loop keeps: the elements in front of the two positions are less than the value, and those behind them
are greater. -/
structure Window (lt : T → T → Prop) (arr : List T) (v : T) (begin last : ℤ) : Prop where
  begin_nonneg : 0 ≤ begin
  begin_le : begin ≤ last + 1
  last_lt : last < arr.length
  below : ∀ i (hi : i < arr.length), i < begin → lt arr[i] v
  above : ∀ i (hi : i < arr.length), last < i → lt v arr[i]

variable {lt : T → T → Prop} {arr : List T} {v : T} {begin last : ℤ} {m : ℕ}

/-! ## What a round keeps -/

/-- In the beginning all elements are between the two positions. -/
theorem Window.whole : Window lt arr v 0 (arr.length - 1) where
  begin_nonneg := Int.le_refl 0
  begin_le := by omega
  last_lt := by omega
  below := by omega
  above := by omega

section

variable [IsStrictWeakOrder T lt] (hsorted : Sorted lt arr)
include hsorted

/-- The value is in front of an element it is less than. -/
theorem Window.left (h : Window lt arr v begin last) (hm : m < arr.length) (hbegin : begin ≤ m)
    (hlt : lt v arr[m]) : Window lt arr v begin (m - 1) where
  begin_nonneg := h.begin_nonneg
  begin_le := by omega
  last_lt := by omega
  below := h.below
  above i hi hlast := hsorted.gt_of_le (show m ≤ i by omega) hi hlt

/-- The value is behind an element less than it. -/
theorem Window.right (h : Window lt arr v begin last) (hm : m < arr.length) (hlast : m ≤ last)
    (hlt : lt arr[m] v) : Window lt arr v (m + 1) last where
  begin_nonneg := by omega
  begin_le := by omega
  last_lt := h.last_lt
  below i hi hbegin := hsorted.lt_of_le (show i ≤ m by omega) hm hlt
  above := h.above

end

variable [DecidableRel lt]

/-- An equivalent element is an answer. -/
theorem answers_hit (hm : m < arr.length) (heq : Equivalent lt arr[m] v) : Answers lt arr v m where
  hit _ := ⟨m, hm, rfl, heq⟩
  miss hnone := (hnone ⟨arr[m], List.getElem_mem hm, heq⟩).elim

/-- With nothing left between the two positions, the first one is the number of elements less than the value. -/
theorem Window.answers_miss [IsStrictWeakOrder T lt] (h : Window lt arr v begin last) (hempty : last < begin) :
    Answers lt arr v (-begin - 1) where
  hit := by
    rintro ⟨t, ht, hbelow, habove⟩
    obtain ⟨i, hi, rfl⟩ := List.mem_iff_getElem.mp ht
    rcases lt_or_ge (i : ℤ) begin with hlt | hge
    · exact (hbelow (h.below i hi hlt)).elim
    · exact (habove (h.above i hi (by omega))).elim
  miss _ := by
    have hnonneg := h.begin_nonneg
    have hbegin := h.begin_le
    have hlast := h.last_lt
    have hcount : arr.countP (fun t => decide (lt t v)) = begin.toNat := by
      refine countP_eq_of_boundary (by omega) ?_ ?_
      · intro i hi hlt
        exact decide_eq_true (h.below i hi (by omega))
      · intro i hi hle
        exact decide_eq_false (asymm_of lt (h.above i hi (by omega)))
    rw [hcount]
    omega

/-! ## The rounds -/

/-- An expression that an `int` holds. -/
theorem int_eq {value : ℤ} (h : -2 ^ 31 ≤ value ∧ value < 2 ^ 31) : int value = .ok value := if_pos h

/-- A round looks at the element in the middle, and leaves at most half of the elements. -/
theorem searchBetween_round (h : Window lt arr v begin last) (hlength : arr.length ≤ 2 ^ 30) (hle : begin ≤ last) :
    ∃ m : ℕ, ∃ hm : m < arr.length, 2 * (m - begin) ≤ last - begin ∧ 2 * (last - m) ≤ last + 1 - begin ∧
      ∀ rounds, searchBetween lt arr v (rounds + 1) begin last =
        if lt v arr[m] then searchBetween lt arr v rounds begin (m - 1)
        else if lt arr[m] v then searchBetween lt arr v rounds (m + 1) last
        else .ok m := by
  have hnonneg := h.begin_nonneg
  have hlast := h.last_lt
  have hdiv : (begin + last).tdiv 2 = (begin + last) / 2 := Int.tdiv_eq_ediv_of_nonneg (by omega)
  obtain ⟨m, hm⟩ := Int.eq_ofNat_of_zero_le (show 0 ≤ (begin + last) / 2 by omega)
  have hin : m < arr.length := by omega
  have hread : elementAt arr (m : ℤ) = .ok arr[m] := by
    rw [elementAt, if_pos (Int.natCast_nonneg m), Int.toNat_natCast, List.getElem?_eq_getElem hin]
  have hsum : int (begin + last) = .ok (begin + last) := int_eq (by omega)
  have hpred : int ((m : ℤ) - 1) = .ok (m - 1) := int_eq (by omega)
  have hsucc : int ((m : ℤ) + 1) = .ok (m + 1) := int_eq (by omega)
  refine ⟨m, hin, by omega, by omega, fun rounds => ?_⟩
  rw [searchBetween, if_pos hle, hsum]
  simp only [bind, Except.bind, hdiv, hm, hread, hpred, hsucc]
  rfl

/-- **What the loop finds**, in a number of rounds that is logarithmic in what is between the two positions. -/
theorem searchBetween_answers [IsStrictWeakOrder T lt] (hsorted : Sorted lt arr) (hlength : arr.length ≤ 2 ^ 30)
    (width : ℕ) (begin last : ℤ) (hwidth : last + 1 - begin = width) (h : Window lt arr v begin last) :
    ∃ result, Answers lt arr v result ∧
      ∀ rounds, width < 2 ^ rounds → searchBetween lt arr v (rounds + 1) begin last = .ok result := by
  induction width using Nat.strongRecOn generalizing begin last with
  | ind width ih =>
    have hnonneg := h.begin_nonneg
    have hlast := h.last_lt
    by_cases hle : begin ≤ last
    · obtain ⟨m, hm, hleft, hright, hround⟩ := searchBetween_round h hlength hle
      by_cases hless : lt v arr[m]
      · obtain ⟨result, hanswers, hrun⟩ :=
          ih (m - begin).toNat (by omega) begin (m - 1) (by omega) (h.left hsorted hm (by omega) hless)
        refine ⟨result, hanswers, ?_⟩
        rintro (_ | rounds) hrounds
        · omega
        · rw [hround, if_pos hless]
          exact hrun rounds (by omega)
      · by_cases hgreater : lt arr[m] v
        · obtain ⟨result, hanswers, hrun⟩ :=
            ih (last - m).toNat (by omega) (m + 1) last (by omega) (h.right hsorted hm (by omega) hgreater)
          refine ⟨result, hanswers, ?_⟩
          rintro (_ | rounds) hrounds
          · omega
          · rw [hround, if_neg hless, if_pos hgreater]
            exact hrun rounds (by omega)
        · refine ⟨m, answers_hit hm ⟨hgreater, hless⟩, fun rounds _ => ?_⟩
          rw [hround, if_neg hless, if_neg hgreater]
    · refine ⟨-begin - 1, h.answers_miss (by omega), fun rounds _ => ?_⟩
      rw [searchBetween, if_neg hle, int_eq (by omega)]
      exact int_eq (by omega)

/-- **What `BinarySearch` finds.** -/
theorem binarySearch_answers (lt : T → T → Prop) [DecidableRel lt] [IsStrictWeakOrder T lt] (arr : List T)
    (hsorted : Sorted lt arr) (hlength : arr.length ≤ 2 ^ 30) (v : T) :
    ∃ result, Answers lt arr v result ∧
      ∀ rounds, arr.length < 2 ^ rounds → binarySearch (rounds + 1) lt arr arr.length v = .ok result := by
  obtain ⟨result, hanswers, hrun⟩ :=
    searchBetween_answers hsorted hlength arr.length 0 (arr.length - 1) (by omega) Window.whole
  refine ⟨result, hanswers, fun rounds hrounds => ?_⟩
  rw [binarySearch, int_eq (by omega)]
  exact hrun rounds hrounds

/-- A search for one of two equivalent pairs. -/
theorem binarySearch_pairs :
    ∃ result, Answers (fun a b : ℕ × ℕ => a.1 < b.1) [(1, 0), (2, 0), (2, 1)] (2, 5) result ∧
      ∀ rounds, 3 < 2 ^ rounds →
        binarySearch (rounds + 1) (fun a b : ℕ × ℕ => a.1 < b.1) [(1, 0), (2, 0), (2, 1)] 3 (2, 5) = .ok result := by
  have hfirst : IsStrictWeakOrder ℕ (· < ·) := isStrictWeakOrder_of_isOrderConnected
  have hweak : IsStrictWeakOrder (ℕ × ℕ) fun a b => a.1 < b.1 :=
    inferInstanceAs (IsStrictWeakOrder (ℕ × ℕ) (Order.Preimage Prod.fst (· < ·)))
  exact binarySearch_answers _ _ (by simp [Sorted]) (by decide) _

/-- Between the second and the third element. -/
example : binarySearch 3 (fun a b : ℕ => a < b) [1, 3, 5] 3 4 = .ok (-3) := by decide

end Bobliew.BinarySearch
