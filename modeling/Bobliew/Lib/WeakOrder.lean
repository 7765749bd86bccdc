import Mathlib.Data.List.Pairwise
import Mathlib.Order.Defs.Unbundled

/-!
# Lists sorted by a strict weak order

Elements that are not less than each other are equivalent under a strict weak order, without being equal. In a
sorted list the elements less than a value come first, and those greater than it last.
-/

namespace WeakOrder

variable {A : Type*}

/-- Neither element is less than the other one. -/
def Equivalent (lt : A → A → Prop) (a b : A) : Prop := ¬lt a b ∧ ¬lt b a

/-- No element is less than one in front of it. -/
def Sorted (lt : A → A → Prop) (l : List A) : Prop := l.Pairwise fun a b => ¬lt b a

section

variable {lt : A → A → Prop} [IsStrictWeakOrder A lt] {a b c : A} {l : List A}

/-- What is less than an element is less than those that are not less than it. -/
theorem lt_of_lt_of_not_lt (h : lt a b) (hbc : ¬lt c b) : lt a c := by
  by_contra hac
  by_cases hca : lt c a
  · exact hbc (trans_of lt hca h)
  · by_cases hlt : lt b c
    · exact hac (trans_of lt h hlt)
    · exact (IsStrictWeakOrder.incomp_trans a c b ⟨hac, hca⟩ ⟨hbc, hlt⟩).1 h

/-- What is not less than an element is not less than those less than it. -/
theorem lt_of_not_lt_of_lt (hab : ¬lt b a) (h : lt b c) : lt a c := by
  by_contra hac
  by_cases hca : lt c a
  · exact hab (trans_of lt h hca)
  · by_cases hlt : lt a b
    · exact hac (trans_of lt hlt h)
    · exact (IsStrictWeakOrder.incomp_trans b a c ⟨hab, hlt⟩ ⟨hac, hca⟩).1 h

/-- Elements in front of one less than a value are less than it. -/
theorem Sorted.lt_of_le (h : Sorted lt l) {i j : ℕ} (hij : i ≤ j) (hj : j < l.length) (hlt : lt l[j] a) :
    lt l[i] a := by
  rcases Nat.eq_or_lt_of_le hij with rfl | hij
  · exact hlt
  · exact lt_of_not_lt_of_lt (List.pairwise_iff_getElem.mp h i j (by omega) hj hij) hlt

/-- Elements behind one greater than a value are greater than it. -/
theorem Sorted.gt_of_le (h : Sorted lt l) {i j : ℕ} (hij : i ≤ j) (hj : j < l.length) (hlt : lt a l[i]) :
    lt a l[j] := by
  rcases Nat.eq_or_lt_of_le hij with rfl | hij
  · exact hlt
  · exact lt_of_lt_of_not_lt hlt (List.pairwise_iff_getElem.mp h i j (by omega) hj hij)

end

/-- The elements of a kind are counted by the position up to which all are of the kind and from which on none is. -/
theorem countP_eq_of_boundary {p : A → Bool} {l : List A} {k : ℕ} (hk : k ≤ l.length)
    (hbelow : ∀ i (hi : i < l.length), i < k → p l[i] = true)
    (habove : ∀ i (hi : i < l.length), k ≤ i → p l[i] = false) : l.countP p = k := by
  have htake : (l.take k).countP p = (l.take k).length := by
    rw [List.countP_eq_length]
    intro x hx
    obtain ⟨i, hi, rfl⟩ := List.mem_iff_getElem.mp hx
    rw [List.length_take] at hi
    rw [List.getElem_take]
    exact hbelow i (by omega) (by omega)
  have hdrop : (l.drop k).countP p = 0 := by
    rw [List.countP_eq_zero]
    intro x hx
    obtain ⟨i, hi, rfl⟩ := List.mem_iff_getElem.mp hx
    rw [List.length_drop] at hi
    rw [List.getElem_drop, habove (k + i) (by omega) (by omega)]
    exact Bool.false_ne_true
  rw [← List.take_append_drop k l, List.countP_append, htake, hdrop, List.length_take_of_le hk, Nat.add_zero]

end WeakOrder
