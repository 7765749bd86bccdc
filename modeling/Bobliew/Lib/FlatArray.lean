import Mathlib

/-!
# A flat array with a cursor

The abstract counterpart of a segmented buffer: one list of values and a cursor inside it. Writing
overwrites from the cursor on and extends the array when it reaches past the end; reading takes
values from the cursor on and fails without effect when there are too few.

Overwriting is described by the value at every index, which is how it is compared with an overwriting
carried out block by block.
-/

variable {A : Type*}

/-- Replace the values from `pos` on by `data`, extending the list when `data` reaches past its end. -/
def List.overwrite (l : List A) (pos : ℕ) (data : List A) : List A :=
  l.take pos ++ data ++ l.drop (pos + data.length)

namespace List

variable {l r data : List A} {pos : ℕ}

/-- The values of an overwritten list. -/
theorem getElem?_overwrite (hpos : pos ≤ l.length) (i : ℕ) :
    (l.overwrite pos data)[i]? =
      if pos ≤ i ∧ i < pos + data.length then data[i - pos]? else l[i]? := by
  unfold overwrite
  rw [append_assoc, getElem?_append]
  split
  · rename_i hi
    rw [length_take, Nat.min_eq_left hpos] at hi
    rw [getElem?_take_of_lt hi, if_neg (by omega)]
  · rename_i hi
    rw [length_take, Nat.min_eq_left hpos] at hi ⊢
    rw [getElem?_append]
    split
    · rename_i hdata
      rw [if_pos (by omega)]
    · rename_i hdata
      rw [if_neg (by omega), getElem?_drop]
      congr 1
      omega

/-- Overwriting inside a list keeps its length, and otherwise extends it to the end of the data. -/
theorem length_overwrite (hpos : pos ≤ l.length) :
    (l.overwrite pos data).length = max l.length (pos + data.length) := by
  simp only [overwrite, length_append, length_take, length_drop, Nat.min_eq_left hpos]
  omega

/-- Overwriting nothing. -/
@[simp] theorem overwrite_nil (hpos : pos ≤ l.length) : l.overwrite pos [] = l := by
  refine ext_getElem? fun i => ?_
  rw [getElem?_overwrite hpos, if_neg (by simp)]

/-- Overwriting behind a first part. -/
theorem overwrite_append_right : (l ++ r).overwrite (l.length + pos) data = l ++ r.overwrite pos data := by
  unfold overwrite
  rw [take_append, drop_append, take_of_length_le (by omega : l.length ≤ l.length + pos),
    drop_of_length_le (by omega : l.length ≤ l.length + pos + data.length)]
  simp [Nat.add_assoc, append_assoc]

/-- Overwriting that fits into a first part. -/
theorem overwrite_append_left (hfit : pos + data.length ≤ l.length) :
    (l ++ r).overwrite pos data = l.overwrite pos data ++ r := by
  simp [overwrite, take_append_of_le_length (by omega : pos ≤ l.length),
    drop_append_of_le_length hfit, append_assoc]

/-- Overwriting that reaches from a first part into a second. -/
theorem overwrite_append_split (hpos : pos ≤ l.length) (hreach : l.length - pos ≤ data.length) :
    (l ++ r).overwrite pos data =
      l.overwrite pos (data.take (l.length - pos)) ++ r.overwrite 0 (data.drop (l.length - pos)) := by
  unfold overwrite
  rw [take_append_of_le_length hpos, drop_append, length_take, Nat.min_eq_left hreach, length_drop,
    drop_of_length_le (by omega : l.length ≤ pos + data.length),
    drop_of_length_le (by omega : l.length ≤ pos + (l.length - pos))]
  simp only [append_nil, nil_append, take_zero, Nat.zero_add, append_assoc]
  rw [← append_assoc (data.take _), take_append_drop]
  congr 3
  omega

/-- Overwriting on from where the data ends. -/
theorem overwrite_overwrite (hpos : pos ≤ l.length) {more : List A} :
    (l.overwrite pos data).overwrite (pos + data.length) more = l.overwrite pos (data ++ more) := by
  have hlength := (length_overwrite hpos : (l.overwrite pos data).length = _)
  refine ext_getElem? fun i => ?_
  rw [getElem?_overwrite (by omega), getElem?_overwrite hpos, getElem?_overwrite hpos, length_append]
  by_cases hmore : pos + data.length ≤ i ∧ i < pos + data.length + more.length
  · rw [if_pos hmore, if_pos (by omega), getElem?_append_right (by omega)]
    congr 1
    omega
  · rw [if_neg hmore]
    by_cases hdata : pos ≤ i ∧ i < pos + data.length
    · rw [if_pos hdata, if_pos (by omega), getElem?_append_left (by omega)]
    · rw [if_neg hdata, if_neg (by omega)]

/-- Overwriting the visible part of a larger list. -/
theorem take_overwrite {n : ℕ} (hpos : pos ≤ n) (hn : n ≤ l.length) :
    (l.overwrite pos data).take (max n (pos + data.length)) = (l.take n).overwrite pos data := by
  refine ext_getElem? fun i => ?_
  rw [getElem?_take, getElem?_overwrite (Nat.le_trans hpos hn),
    getElem?_overwrite (by rw [length_take]; omega), getElem?_take]
  by_cases hdata : pos ≤ i ∧ i < pos + data.length
  · rw [if_pos hdata, if_pos (by omega), if_pos hdata]
  · rw [if_neg hdata, if_neg hdata]
    by_cases hvisible : i < n
    · rw [if_pos (by omega), if_pos hvisible]
    · rw [if_neg (by omega), if_neg hvisible]

end List

/-- A list of values with a cursor that does not point past its end. -/
structure FlatArray (A : Type*) where
  values : List A
  position : ℕ
  position_le : position ≤ values.length

namespace FlatArray

/-- Overwrite from the cursor on and move the cursor behind the data. -/
def write (a : FlatArray A) (data : List A) : FlatArray A where
  values := a.values.overwrite a.position data
  position := a.position + data.length
  position_le := by
    rw [List.length_overwrite a.position_le]
    omega

/-- Take values from the cursor on, or nothing when there are too few. -/
def read (a : FlatArray A) (n : ℕ) : Option (List A × FlatArray A) :=
  if h : n ≤ a.values.length - a.position then
    some ((a.values.drop a.position).take n,
      ⟨a.values, a.position + n, by have := a.position_le; omega⟩)
  else none

end FlatArray
