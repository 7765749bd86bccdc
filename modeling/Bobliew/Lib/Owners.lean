import Mathlib.Data.Set.Insert
import Mathlib.Logic.Function.Basic

/-!
# Resources and their owners

Resources are handed out by an environment that only gives away what nobody has, and are given back by whoever
holds them. Each owner holds one resource at a time. Some resources were taken before anybody looked, and stay so.

Ownership is kept by the three things an owner can do: take a resource, give it back, and neither. From it follows
that two owners never hold the same resource, that none is lost, and that what was taken before is not touched.
-/

variable {O R : Type*}

/-- Every resource that is taken was taken before or has exactly one owner. -/
structure Owning (before : Set R) (held : O → Option R) (taken : Set R) : Prop where
  single : ∀ i j r, held i = some r → held j = some r → i = j
  apart : ∀ i r, held i = some r → r ∉ before
  covered : ∀ r, r ∈ taken ↔ r ∈ before ∨ ∃ i, held i = some r

namespace Owning

variable {before taken : Set R} {held : O → Option R} {i : O} {r : R}

/-- When nobody holds anything, only what was taken before is taken. -/
theorem init (before : Set R) : Owning before (fun _ : O => none) before where
  single _ _ _ h := by cases h
  apart _ _ h := by cases h
  covered r := by simp

/-- What is held is taken. -/
theorem mem_taken (h : Owning before held taken) (hi : held i = some r) : r ∈ taken :=
  (h.covered r).mpr (Or.inr ⟨i, hi⟩)

/-- When nobody holds anything any more, what is taken is what was taken before. -/
theorem taken_eq (h : Owning before held taken) (hnone : ∀ i, held i = none) : taken = before := by
  ext q
  rw [h.covered q]
  constructor
  · intro hq
    rcases hq with hbefore | ⟨i, hi⟩
    · exact hbefore
    · rw [hnone i] at hi
      cases hi
  · exact Or.inl

variable [DecidableEq O]

/-- What is held when one owner's holding has changed. -/
theorem update_eq_some_iff {v : Option R} {j : O} {q : R} :
    Function.update held i v j = some q ↔ j = i ∧ v = some q ∨ j ≠ i ∧ held j = some q := by
  by_cases hji : j = i
  · subst hji
    simp
  · simp [hji]

/-- An owner that holds nothing takes what nobody has. -/
theorem take (h : Owning before held taken) (hi : held i = none) (hr : r ∉ taken) :
    Owning before (Function.update held i (some r)) (insert r taken) where
  single j k q hj hk := by
    rcases update_eq_some_iff.mp hj with ⟨hji, hrj⟩ | ⟨-, hj'⟩
    · rcases update_eq_some_iff.mp hk with ⟨hki, -⟩ | ⟨-, hk'⟩
      · exact hji.trans hki.symm
      · exact absurd (h.mem_taken (hk'.trans hrj.symm)) hr
    · rcases update_eq_some_iff.mp hk with ⟨-, hrk⟩ | ⟨-, hk'⟩
      · exact absurd (h.mem_taken (hj'.trans hrk.symm)) hr
      · exact h.single j k q hj' hk'
  apart j q hj := by
    rcases update_eq_some_iff.mp hj with ⟨-, hrj⟩ | ⟨-, hj⟩
    · obtain rfl := Option.some.inj hrj
      exact fun hbefore => hr ((h.covered r).mpr (Or.inl hbefore))
    · exact h.apart j q hj
  covered q := by
    have hheld : (∃ j, Function.update held i (some r) j = some q) ↔ q = r ∨ ∃ j, held j = some q := by
      constructor
      · intro hq
        obtain ⟨j, hj⟩ := hq
        rcases update_eq_some_iff.mp hj with ⟨-, hrj⟩ | ⟨-, hj⟩
        · exact Or.inl (Option.some.inj hrj).symm
        · exact Or.inr ⟨j, hj⟩
      · intro hq
        rcases hq with rfl | ⟨j, hj⟩
        · exact ⟨i, update_eq_some_iff.mpr (Or.inl ⟨rfl, rfl⟩)⟩
        · refine ⟨j, update_eq_some_iff.mpr (Or.inr ⟨fun heq => ?_, hj⟩)⟩
          rw [heq, hi] at hj
          cases hj
    rw [Set.mem_insert_iff, h.covered q, hheld]
    exact or_left_comm

/-- An owner gives back what it holds. -/
theorem giveBack (h : Owning before held taken) (hi : held i = some r) :
    Owning before (Function.update held i none) (taken \ {r}) where
  single j k q hj hk := by
    rcases update_eq_some_iff.mp hj with ⟨-, hnone⟩ | ⟨-, hj⟩
    · cases hnone
    · rcases update_eq_some_iff.mp hk with ⟨-, hnone⟩ | ⟨-, hk⟩
      · cases hnone
      · exact h.single j k q hj hk
  apart j q hj := by
    rcases update_eq_some_iff.mp hj with ⟨-, hnone⟩ | ⟨-, hj⟩
    · cases hnone
    · exact h.apart j q hj
  covered q := by
    have hheld : (∃ j, Function.update held i none j = some q) ↔ (∃ j, held j = some q) ∧ q ≠ r := by
      constructor
      · intro hq
        obtain ⟨j, hj⟩ := hq
        rcases update_eq_some_iff.mp hj with ⟨-, hnone⟩ | ⟨hji, hj⟩
        · cases hnone
        · exact ⟨⟨j, hj⟩, fun heq => hji (h.single j i r (heq ▸ hj) hi)⟩
      · intro hq
        obtain ⟨⟨j, hj⟩, hqr⟩ := hq
        refine ⟨j, update_eq_some_iff.mpr (Or.inr ⟨fun heq => ?_, hj⟩)⟩
        rw [heq, hi] at hj
        exact hqr (Option.some.inj hj).symm
    rw [Set.mem_sdiff, Set.mem_singleton_iff, h.covered q, hheld]
    constructor
    · intro hq
      rcases hq with ⟨hbefore | hj, hqr⟩
      · exact Or.inl hbefore
      · exact Or.inr ⟨hj, hqr⟩
    · intro hq
      rcases hq with hbefore | ⟨hj, hqr⟩
      · exact ⟨Or.inl hbefore, fun heq => h.apart i r hi (heq ▸ hbefore)⟩
      · exact ⟨Or.inr hj, hqr⟩

end Owning
