import Mathlib

/-!
# Lists between separators

Pieces joined by a separator, the pieces of a list between the occurrences of a separator, and the cut of a
list at the first occurrence of a value.
-/

namespace List

variable {A : Type*} {sep xs ys : List A} {pieces more : List (List A)} {a c : A}

/-! ## Joined pieces -/

/-- A value of joined pieces is one of a piece or of the separator. -/
theorem mem_of_mem_intercalate (h : c ∈ sep.intercalate pieces) : c ∈ sep ∨ ∃ x ∈ pieces, c ∈ x := by
  induction pieces with
  | nil => cases h
  | cons x pieces ih =>
    cases pieces with
    | nil =>
      rw [intercalate_singleton] at h
      exact .inr ⟨x, mem_cons_self, h⟩
    | cons y pieces =>
      rw [intercalate_cons_cons, append_assoc, mem_append, mem_append] at h
      rcases h with h | h | h
      · exact .inr ⟨x, mem_cons_self, h⟩
      · exact .inl h
      · exact (ih h).imp_right fun ⟨z, hz, hc⟩ => ⟨z, mem_cons_of_mem _ hz, hc⟩

/-- The values of the pieces are values of the joined pieces. -/
theorem mem_intercalate_of_mem (hxs : xs ∈ pieces) (hc : c ∈ xs) : c ∈ sep.intercalate pieces := by
  induction pieces with
  | nil => cases hxs
  | cons y pieces ih =>
    cases pieces with
    | nil =>
      obtain rfl := mem_singleton.mp hxs
      rwa [intercalate_singleton]
    | cons z pieces =>
      rw [intercalate_cons_cons]
      rcases mem_cons.mp hxs with rfl | hxs
      · exact mem_append_left _ (mem_append_left _ hc)
      · exact mem_append_right _ (ih hxs)

/-- Two lists of pieces. -/
theorem intercalate_append (hpieces : pieces ≠ []) (hmore : more ≠ []) :
    sep.intercalate (pieces ++ more) = sep.intercalate pieces ++ (sep ++ sep.intercalate more) := by
  induction pieces with
  | nil => exact absurd rfl hpieces
  | cons x pieces ih =>
    cases pieces with
    | nil => rw [singleton_append, intercalate_cons_of_ne_nil hmore, intercalate_singleton, append_assoc]
    | cons y pieces =>
      rw [cons_append, intercalate_cons_of_ne_nil (by simp), ih (cons_ne_nil _ _),
        intercalate_cons_of_ne_nil (cons_ne_nil _ _)]
      simp only [append_assoc]

/-! ## Cuts at a value -/

section Cuts

variable [DecidableEq A]

/-- A list is cut at the first occurrence of a value. -/
theorem cut_first (h : c ∉ xs) : ((xs ++ c :: ys).takeWhile fun d => !decide (d = c)) = xs ∧
    ((xs ++ c :: ys).dropWhile fun d => !decide (d = c)) = c :: ys := by
  have hall : ∀ d ∈ xs, (!decide (d = c)) = true := by
    intro d hd
    simpa using fun heq : d = c => h (heq ▸ hd)
  constructor
  · rw [takeWhile_append_of_pos hall, takeWhile_cons_of_neg (by simp), append_nil]
  · rw [dropWhile_append_of_pos hall, dropWhile_cons_of_neg (by simp)]

/-- A list is cut at the first occurrence of a value in one way. -/
theorem cut_unique {xs' ys' : List A} (h : c ∉ xs) (h' : c ∉ xs') (heq : xs ++ c :: ys = xs' ++ c :: ys') :
    xs = xs' ∧ ys = ys' := by
  have hcut : ((xs ++ c :: ys).takeWhile fun d => !decide (d = c)) = xs := (cut_first h).1
  have hfront : xs = xs' := by rw [← hcut, heq, (cut_first h').1]
  subst hfront
  exact ⟨rfl, (cons_eq_cons.mp (append_cancel_left heq)).2⟩

/-- A list without the value is not cut. -/
theorem cut_none (h : c ∉ xs) : (xs.takeWhile fun d => !decide (d = c)) = xs ∧
    (xs.dropWhile fun d => !decide (d = c)) = [] := by
  have hall : ∀ d ∈ xs, (!decide (d = c)) = true := by
    intro d hd
    simpa using fun heq : d = c => h (heq ▸ hd)
  exact ⟨takeWhile_eq_self_iff.mpr hall, dropWhile_eq_nil_iff.mpr hall⟩

/-- A piece between separators does not contain the separator. -/
theorem not_mem_of_mem_splitOn (h : ys ∈ xs.splitOn a) : a ∉ ys := by
  induction xs generalizing ys with
  | nil =>
    rw [splitOn_nil, mem_singleton] at h
    rw [h]
    exact not_mem_nil
  | cons x xs ih =>
    rw [splitOn_cons_eq_if_modifyHead] at h
    split at h
    · rcases mem_cons.mp h with rfl | h
      · exact not_mem_nil
      · exact ih h
    · rename_i hx
      cases hsplit : xs.splitOn a with
      | nil => exact absurd hsplit (splitOn_ne_nil _ _)
      | cons t ts =>
        rw [hsplit] at h ih
        rcases mem_cons.mp h with rfl | h
        · rw [mem_cons, not_or]
          exact ⟨fun heq => hx (by simp [heq]), ih mem_cons_self⟩
        · exact ih (mem_cons_of_mem t h)

end Cuts

end List
