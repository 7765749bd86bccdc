import Mathlib.Data.List.DropRight

/-!
# The longest part of a list that does not end badly

Dropping the elements of a kind at one end of a list leaves its longest prefix that does not end in the kind, or its
longest suffix that does not begin with it. There is only one such part.
-/

namespace Trimmed

variable {A : Type*} {p : A → Bool} {P : List A → Prop} {l t u : List A}

/-- A list whose last element is not of the kind. -/
def NotEnding (p : A → Bool) (t : List A) : Prop := ∀ x ∈ t.getLast?, p x = false

/-- A list whose first element is not of the kind. -/
def NotBeginning (p : A → Bool) (t : List A) : Prop := ∀ x ∈ t.head?, p x = false

/-- The longest prefix with a property. -/
structure LongestPrefix (P : List A → Prop) (l t : List A) : Prop where
  isPrefix : t <+: l
  holds : P t
  longest : ∀ u, u <+: l → P u → u.length ≤ t.length

/-- The longest suffix with a property. -/
structure LongestSuffix (P : List A → Prop) (l t : List A) : Prop where
  isSuffix : t <:+ l
  holds : P t
  longest : ∀ u, u <:+ l → P u → u.length ≤ t.length

/-- There is one longest prefix. -/
theorem LongestPrefix.unique (h : LongestPrefix P l t) (h' : LongestPrefix P l u) : t = u := by
  have hlength : t.length = u.length :=
    Nat.le_antisymm (h'.longest t h.isPrefix h.holds) (h.longest u h'.isPrefix h'.holds)
  exact (List.prefix_of_prefix_length_le h.isPrefix h'.isPrefix hlength.le).eq_of_length hlength

/-- Dropping at the end leaves the longest prefix that does not end in the kind. -/
theorem longestPrefix_rdropWhile (p : A → Bool) (l : List A) : LongestPrefix (NotEnding p) l (l.rdropWhile p) where
  isPrefix := List.rdropWhile_prefix p l
  holds := by
    intro x hx
    obtain ⟨hne, rfl⟩ := List.mem_getLast?_eq_getLast hx
    simpa using List.rdropWhile_last_not p l hne
  longest := by
    induction l using List.reverseRecOn with
    | nil =>
      intro u hu _
      simp [List.prefix_nil.mp hu]
    | append_singleton l x ih =>
      intro u hu hlast
      by_cases hx : p x = true
      · rw [List.rdropWhile_concat_pos p l x hx]
        rcases List.prefix_concat_iff.mp hu with rfl | hu
        · have hfalse := hlast x (by simp)
          rw [hx] at hfalse
          cases hfalse
        · exact ih u hu hlast
      · rw [List.rdropWhile_concat_neg p l x hx]
        exact hu.length_le

/-- Dropping at the end does not go beyond a part that is not dropped altogether. -/
theorem rdropWhile_append (h : u.rdropWhile p ≠ []) (l : List A) : (l ++ u).rdropWhile p = l ++ u.rdropWhile p := by
  have hne : (u.reverse.dropWhile p).isEmpty = false := by
    rw [List.isEmpty_eq_false_iff]
    exact fun hnil => h (by rw [List.rdropWhile, hnil, List.reverse_nil])
  rw [List.rdropWhile, List.reverse_append, List.dropWhile_append, hne, List.rdropWhile]
  simp

/-- It does not matter at which end the elements are dropped first. -/
theorem dropWhile_rdropWhile (p : A → Bool) (l : List A) :
    (l.rdropWhile p).dropWhile p = (l.dropWhile p).rdropWhile p := by
  induction l with
  | nil => rfl
  | cons x l ih =>
    by_cases hnil : l.rdropWhile p = []
    · -- Only the first element can be kept.
      have hall := List.rdropWhile_eq_nil_iff.mp hnil
      have hdrop : l.dropWhile p = [] := List.dropWhile_eq_nil_iff.mpr hall
      by_cases hx : p x = true
      · have hcons : (x :: l).rdropWhile p = [] := by
          rw [List.rdropWhile_eq_nil_iff]
          exact List.forall_mem_cons.mpr ⟨hx, hall⟩
        rw [hcons, List.dropWhile_cons_of_pos hx, hdrop]
        rfl
      · rw [List.dropWhile_cons_of_neg hx]
        refine List.dropWhile_eq_self_iff.mpr fun hpos hfirst => hx ?_
        have hpart := List.rdropWhile_prefix p (x :: l)
        rw [hpart.getElem hpos] at hfirst
        exact hfirst
    · have hcons : (x :: l).rdropWhile p = x :: l.rdropWhile p := rdropWhile_append hnil [x]
      rw [hcons]
      by_cases hx : p x = true
      · rw [List.dropWhile_cons_of_pos hx, List.dropWhile_cons_of_pos hx, ih]
      · rw [List.dropWhile_cons_of_neg hx, List.dropWhile_cons_of_neg hx, hcons]

/-- Dropping at the beginning leaves the longest suffix that does not begin with the kind. -/
theorem longestSuffix_dropWhile (p : A → Bool) (l : List A) : LongestSuffix (NotBeginning p) l (l.dropWhile p) where
  isSuffix := List.dropWhile_suffix p
  holds := by
    intro x hx
    have hhead := List.head?_dropWhile_not p l
    rw [Option.mem_def.mp hx] at hhead
    simpa using hhead
  longest := by
    induction l with
    | nil =>
      intro u hu _
      simp [List.suffix_nil.mp hu]
    | cons x l ih =>
      intro u hu hfirst
      by_cases hx : p x = true
      · rw [List.dropWhile_cons_of_pos hx]
        rcases List.suffix_cons_iff.mp hu with rfl | hu
        · have hfalse := hfirst x rfl
          rw [hx] at hfalse
          cases hfalse
        · exact ih u hu hfirst
      · rw [List.dropWhile_cons_of_neg hx]
        exact hu.length_le

end Trimmed
