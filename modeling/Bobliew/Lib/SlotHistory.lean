import Mathlib

/-!
# The history of a slot that is filled and emptied

A slot holds at most one registration. Its history records each registration, and each time the
slot is emptied, either dropping the registration or handing it on. A history is well formed when
only an empty slot is filled and only the present registration is handed on.

In a well-formed history every registration is consumed at most once: the entries handed on form
a subsequence of the entries registered.
-/

namespace SlotHistory

variable {R : Type*}

/-- What can happen to a slot. -/
inductive Entry (R : Type*) where
  | added (r : R)
  | dropped
  | fired (r : R)

/-- The registration an entry makes. -/
def Entry.added? : Entry R → Option R
  | .added r => some r
  | .dropped => none
  | .fired _ => none

/-- The registration an entry hands on. -/
def Entry.fired? : Entry R → Option R
  | .added _ => none
  | .dropped => none
  | .fired r => some r

/-- Whether an entry empties the slot. -/
def Entry.consumes : Entry R → Bool
  | .added _ => false
  | .dropped => true
  | .fired _ => true

/-- Histories of one slot, oldest entry first, with the registration it holds now. -/
inductive History : List (Entry R) → Option R → Prop
  | nil : History [] none
  | add {l : List (Entry R)} (r : R) : History l none → History (l ++ [.added r]) (some r)
  | drop {l : List (Entry R)} {r : R} : History l (some r) → History (l ++ [.dropped]) none
  | fire {l : List (Entry R)} {r : R} : History l (some r) → History (l ++ [.fired r]) none

/-- Every registration but the present one has been consumed exactly once. -/
theorem History.consumed_length {l : List (Entry R)} {cur : Option R} (h : History l cur) :
    (l.filter Entry.consumes).length + (if cur.isSome then 1 else 0) =
      (l.filterMap Entry.added?).length := by
  induction h with
  | nil => rfl
  | add r _ ih => simpa [List.filter_cons, List.filterMap_cons, Entry.consumes, Entry.added?] using ih
  | drop _ ih => simpa [List.filter_cons, List.filterMap_cons, Entry.consumes, Entry.added?] using ih
  | fire _ ih => simpa [List.filter_cons, List.filterMap_cons, Entry.consumes, Entry.added?] using ih

/-- The registrations handed on, with the present one, are a subsequence of those made. -/
theorem History.fired_sublist_present {l : List (Entry R)} {cur : Option R} (h : History l cur) :
    (l.filterMap Entry.fired? ++ cur.toList).Sublist (l.filterMap Entry.added?) := by
  induction h with
  | nil => exact List.Sublist.refl _
  | add r _ ih =>
    have happend := ih.append (List.Sublist.refl [r])
    simpa [List.filterMap_cons, Entry.fired?, Entry.added?] using happend
  | drop _ ih =>
    have hleft := (List.sublist_append_left _ _).trans ih
    simpa [List.filterMap_cons, Entry.fired?, Entry.added?] using hleft
  | fire _ ih => simpa [List.filterMap_cons, Entry.fired?, Entry.added?] using ih

/-- The registrations handed on are a subsequence of those made. -/
theorem History.fired_sublist {l : List (Entry R)} {cur : Option R} (h : History l cur) :
    (l.filterMap Entry.fired?).Sublist (l.filterMap Entry.added?) :=
  (List.sublist_append_left _ _).trans h.fired_sublist_present

end SlotHistory
