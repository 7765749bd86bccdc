import Mathlib

/-!
# Ordered sets as strictly increasing lists

A balanced-tree set is observed through its iteration order. Here that order is a list, and
insertion, lookup and range ends walk it with the caller's strict order, as the tree does
with its comparator: an element is skipped while it is smaller, and an equivalent element
already present makes insertion do nothing.

The order is a Boolean function on the elements. Only transitivity and irreflexivity are
ever assumed of it, so elements whose keys compare equal are still allowed.
-/

namespace OrderedList

variable {α : Type*} (lt : α → α → Bool)

/-- Insert `x` before the first element that is not smaller, unless that element is equivalent. -/
def insert (x : α) : List α → List α
  | [] => [x]
  | y :: rest =>
    if lt y x then y :: insert x rest else if lt x y then x :: y :: rest else y :: rest

/-- Whether the position returned by inserting `x` is the first one. -/
def landsFirst (x : α) : List α → Bool
  | [] => true
  | y :: _ => !lt y x

/-- The elements from the first one that is not smaller than `x`. -/
def lowerBound (x : α) (l : List α) : List α := l.dropWhile (lt · x)

/-- The element equivalent to `x`, when there is one. -/
def find (x : α) (l : List α) : Option α :=
  match lowerBound lt x l with
  | [] => none
  | y :: _ => if lt x y then none else some y

/-- The list increases strictly. -/
def Sorted (l : List α) : Prop := l.Pairwise fun a b => lt a b = true

variable {lt}

/-- Insertion keeps every old element. -/
theorem mem_insert_of_mem {x y : α} {l : List α} (h : y ∈ l) : y ∈ insert lt x l := by
  induction l with
  | nil => simp at h
  | cons z rest ih =>
    simp only [insert]
    split
    · rcases List.mem_cons.mp h with rfl | hrest
      · exact List.mem_cons_self
      · exact List.mem_cons_of_mem _ (ih hrest)
    · split
      · exact List.mem_cons_of_mem _ h
      · exact h

/-- Insertion adds nothing but the inserted element. -/
theorem eq_or_mem_of_mem_insert {x y : α} {l : List α} (h : y ∈ insert lt x l) :
    y = x ∨ y ∈ l := by
  induction l with
  | nil => exact Or.inl (by simpa [insert] using h)
  | cons z rest ih =>
    simp only [insert] at h
    split at h
    · rcases List.mem_cons.mp h with rfl | hrest
      · exact Or.inr List.mem_cons_self
      · exact (ih hrest).imp_right (List.mem_cons_of_mem z)
    · split at h
      · exact List.mem_cons.mp h
      · exact Or.inr h

/-- An element comparable with every member is really inserted. -/
theorem mem_insert_self {x : α} {l : List α} (h : ∀ y ∈ l, lt y x = true ∨ lt x y = true) :
    x ∈ insert lt x l := by
  induction l with
  | nil => simp [insert]
  | cons z rest ih =>
    simp only [insert]
    split
    · exact List.mem_cons_of_mem _ (ih fun y hy => h y (List.mem_cons_of_mem z hy))
    · rename_i hz
      rcases h z List.mem_cons_self with hlt | hgt
      · exact absurd hlt hz
      · simp [hgt]

/-- Insertion keeps the list strictly increasing. -/
theorem Sorted.insert (htrans : ∀ a b c, lt a b = true → lt b c = true → lt a c = true)
    (x : α) {l : List α} (h : Sorted lt l) : Sorted lt (insert lt x l) := by
  induction l with
  | nil => exact List.pairwise_singleton _ _
  | cons z rest ih =>
    obtain ⟨hz, hrest⟩ := List.pairwise_cons.mp h
    simp only [OrderedList.insert]
    split
    · rename_i hzx
      refine List.pairwise_cons.mpr ⟨fun y hy => ?_, ih hrest⟩
      rcases eq_or_mem_of_mem_insert hy with rfl | hmem
      · exact hzx
      · exact hz y hmem
    · split
      · rename_i hxz
        refine List.pairwise_cons.mpr ⟨fun y hy => ?_, h⟩
        rcases List.mem_cons.mp hy with rfl | hmem
        · exact hxz
        · exact htrans x z y hxz (hz y hmem)
      · exact h

/-- A strictly increasing list has no repeated element. -/
theorem Sorted.nodup (hirrefl : ∀ a, lt a a = false) {l : List α} (h : Sorted lt l) : l.Nodup :=
  List.Pairwise.imp (fun {a b} hab heq => by simp [heq, hirrefl] at hab) h

/-- Only comparisons between members matter. -/
theorem Sorted.congr {lt' : α → α → Bool} {l : List α} (h : Sorted lt l)
    (heq : ∀ a ∈ l, ∀ b ∈ l, lt a b = true → lt' a b = true) : Sorted lt' l :=
  List.Pairwise.imp_of_mem (fun ha hb hab => heq _ ha _ hb hab) h

/-- What holds of the first element and carries over to larger ones holds of all elements. -/
theorem Sorted.forall_of_head? {P : α → Prop} {l : List α} (h : Sorted lt l)
    (hmono : ∀ a b, lt a b = true → P a → P b) (hhead : ∀ a, l.head? = some a → P a) : ∀ a ∈ l, P a := by
  cases l with
  | nil => exact fun a ha => absurd ha List.not_mem_nil
  | cons a rest =>
    have hfirst : P a := hhead a rfl
    intro b hb
    rcases List.mem_cons.mp hb with rfl | hrest
    · exact hfirst
    · exact hmono a b (List.rel_of_pairwise_cons h hrest) hfirst

/-- The first element after those that satisfy a test fails it. -/
theorem eq_false_of_head?_dropWhile {f : α → Bool} {l : List α} {a : α}
    (h : (l.dropWhile f).head? = some a) : f a = false := by
  have hhead := List.head?_dropWhile_not f l
  rw [h] at hhead
  simpa using hhead

/-- Dropping an element keeps the order. -/
theorem Sorted.erase [DecidableEq α] (x : α) {l : List α} (h : Sorted lt l) :
    Sorted lt (l.erase x) := h.sublist List.erase_sublist

/-- Whatever lookup returns is a member equivalent to the argument. -/
theorem find_spec {x y : α} {l : List α} (h : find lt x l = some y) :
    y ∈ l ∧ lt y x = false ∧ lt x y = false := by
  unfold find at h
  split at h
  · cases h
  · rename_i z rest hdrop
    split at h
    · cases h
    · rename_i hxz
      cases h
      have hmem : y ∈ lowerBound lt x l := hdrop ▸ List.mem_cons_self
      refine ⟨(List.dropWhile_sublist _).mem hmem, ?_, by simpa using hxz⟩
      have hhead := List.head?_dropWhile_not (lt · x) l
      rw [show l.dropWhile (lt · x) = y :: rest from hdrop] at hhead
      simpa using hhead

/-- A member of a strictly increasing list is found, and it is the member itself. -/
theorem Sorted.find_mem (hirrefl : ∀ a, lt a a = false) {x : α} {l : List α}
    (h : Sorted lt l) (hx : x ∈ l) : find lt x l = some x := by
  induction l with
  | nil => simp at hx
  | cons z rest ih =>
    obtain ⟨hz, hrest⟩ := List.pairwise_cons.mp h
    rcases List.mem_cons.mp hx with rfl | hmem
    · simp [find, lowerBound, List.dropWhile, hirrefl]
    · have hzx : lt z x = true := hz x hmem
      simpa [find, lowerBound, List.dropWhile, hzx] using ih hrest hmem

end OrderedList
