import Bobliew.Timer.Manager

/-!
# The order of the timer set under mutation

Deadlines are the sort keys of objects that are already in the set, so the set stays sorted
only because an object leaves it before its deadline changes. `Shape m S` is the state between
those moments: the set increases strictly, its members exist, and the timers `S` that an
operation has taken out for the moment are not in it.

Every operation is a composition of three moves: take a timer out, overwrite an object that is
outside, and insert it again.
-/

namespace Bobliew.TimerManager

variable {W C : Type*} {m : TimerManager W C} {S : List ℕ} {p q : ℕ} {t : Timer W C}

/-- The comparator is transitive. -/
theorem less_trans (m : TimerManager W C) (a b c : ℕ) (hab : m.less a b = true)
    (hbc : m.less b c = true) : m.less a c = true := by
  simp only [less, timerComparator_iff] at *
  omega

/-- No timer precedes itself. -/
theorem less_irrefl (m : TimerManager W C) (a : ℕ) : m.less a a = false := by
  simp only [less, Bool.eq_false_iff, ne_eq, timerComparator_iff]
  omega

/-- Distinct timers are ordered as soon as one of them has a deadline other than zero. -/
theorem less_or_less (hpq : q ≠ p) (hp : m.nextOf p ≠ 0) : m.less q p = true ∨ m.less p q = true := by
  simp only [less, timerComparator_iff, key]
  omega

/-- A timer that precedes another one is not due later. -/
theorem nextOf_le_of_less (h : m.less p q = true) : m.nextOf p ≤ m.nextOf q := by
  have hkey := (timerComparator_iff _ _).mp h
  simp only [key] at hkey
  omega

/-- Reading the object just stored. -/
theorem heap_store_self : (m.store p t).heap p = some t := Function.update_self _ _ _

/-- Storing an object leaves the others as they were. -/
theorem heap_store_ne (h : q ≠ p) : (m.store p t).heap q = m.heap q := Function.update_of_ne h _ _

/-- Reading the deadline of the object just stored. -/
@[simp] theorem nextOf_store_self : (m.store p t).nextOf p = t.next := by
  simp [nextOf, store]

/-- Storing an object leaves every other deadline as it was. -/
@[simp] theorem nextOf_store_ne (h : q ≠ p) : (m.store p t).nextOf q = m.nextOf q := by
  simp [nextOf, store, Function.update_of_ne h]

/-- Storing an object with the same deadline changes no comparison. -/
theorem less_store_of_next_eq (h : t.next = m.nextOf p) : (m.store p t).less = m.less := by
  have hnext : (m.store p t).nextOf = m.nextOf := by
    funext q
    by_cases hq : q = p
    · rw [hq, nextOf_store_self, h]
    · exact nextOf_store_ne hq
  funext a b
  simp only [less, key, hnext]

/-- The set is strictly increasing, and the timers `S` are outside it. -/
structure Shape (m : TimerManager W C) (S : List ℕ) : Prop where
  sorted : OrderedList.Sorted m.less m.timers
  allocated : ∀ q ∈ m.timers, (m.heap q).isSome = true
  nodup : S.Nodup
  absent : ∀ q ∈ S, q ∉ m.timers

/-- A new manager has an empty set. -/
theorem Shape.empty : Shape (TimerManager.empty : TimerManager W C) [] :=
  ⟨List.Pairwise.nil, by simp [TimerManager.empty], List.nodup_nil, by simp⟩

/-- Each timer occurs at most once. -/
theorem Shape.timers_nodup (h : Shape m S) : m.timers.Nodup :=
  OrderedList.Sorted.nodup m.less_irrefl h.sorted

/-- Overwriting an object outside the set disturbs nothing. -/
theorem Shape.store (h : Shape m S) (hp : p ∉ m.timers) : Shape (m.store p t) S where
  sorted := by
    refine OrderedList.Sorted.congr h.sorted fun a ha b hb hab => ?_
    have hap : a ≠ p := fun heq => hp (heq ▸ ha)
    have hbp : b ≠ p := fun heq => hp (heq ▸ hb)
    simpa only [less, key, nextOf_store_ne hap, nextOf_store_ne hbp] using hab
  allocated := by
    intro q hq
    have hqp : q ≠ p := fun heq => hp (heq ▸ hq)
    simpa only [TimerManager.store, Function.update_of_ne hqp] using h.allocated q hq
  nodup := h.nodup
  absent := h.absent

/-- A timer taken out may be forgotten. -/
theorem Shape.forget (h : Shape m (p :: S)) : Shape m S :=
  ⟨h.sorted, h.allocated, h.nodup.of_cons, fun q hq => h.absent q (List.mem_cons_of_mem p hq)⟩

/-- Inserting a timer that is not among those taken out. -/
theorem Shape.insertTimer (h : Shape m S) (hp : (m.heap p).isSome = true) (hS : p ∉ S) :
    Shape (m.insertTimer p) S where
  sorted := OrderedList.Sorted.insert m.less_trans p h.sorted
  allocated := by
    intro q hq
    rcases OrderedList.eq_or_mem_of_mem_insert hq with rfl | hmem
    · exact hp
    · exact h.allocated q hmem
  nodup := h.nodup
  absent := by
    intro q hq hmem
    rcases OrderedList.eq_or_mem_of_mem_insert hmem with rfl | hold
    · exact hS hq
    · exact h.absent q hq hold

/-- A timer outside the set is really inserted unless another one has the deadline zero as well. -/
theorem mem_insertTimer_self (hp : p ∉ m.timers) (hzero : ∀ y ∈ m.timers, m.nextOf p ≠ 0 ∨ m.nextOf y ≠ 0) :
    p ∈ (m.insertTimer p).timers := by
  refine OrderedList.mem_insert_self fun y hy => ?_
  have hne : y ≠ p := fun heq => hp (heq ▸ hy)
  rcases hzero y hy with hpos | hpos
  · exact less_or_less hne hpos
  · exact (less_or_less hne.symm hpos).symm

/-- Erasing any pointer keeps the shape. -/
theorem Shape.eraseTimer (h : Shape m S) (p : ℕ) : Shape (m.eraseTimer p) S where
  sorted := OrderedList.Sorted.erase p h.sorted
  allocated := fun q hq => h.allocated q (List.mem_of_mem_erase hq)
  nodup := h.nodup
  absent := fun q hq hmem => h.absent q hq (List.mem_of_mem_erase hmem)

/-- Storing an outside timer and inserting it. -/
theorem Shape.arm (h : Shape m S) (hp : p ∉ m.timers) (hS : p ∉ S) :
    Shape ((m.store p t).insertTimer p) S :=
  (h.store hp).insertTimer (by simp [TimerManager.store]) hS

/-- `m_tickled` plays no part in the order. -/
theorem Shape.of_eq {m' : TimerManager W C} (h : Shape m S) (hheap : m'.heap = m.heap)
    (htimers : m'.timers = m.timers) : Shape m' S := by
  have hless : m'.less = m.less := by
    funext a b
    simp only [less, key, nextOf, hheap]
  exact ⟨by rw [htimers, hless]; exact h.sorted, by rw [htimers, hheap]; exact h.allocated,
    h.nodup, by rw [htimers]; exact h.absent⟩

/-- Lookup returns a member with the deadline asked for; the timer itself is then outside the rest. -/
theorem Shape.findTimer_spec (h : Shape m S) {it : ℕ} (hfind : m.findTimer p = some it) :
    it ∈ m.timers ∧ m.nextOf it = m.nextOf p ∧ p ∉ (m.eraseTimer it).timers := by
  obtain ⟨hmem, hlt, hgt⟩ := OrderedList.find_spec hfind
  refine ⟨hmem, timerComparator_equiv hlt hgt, fun hp => ?_⟩
  by_cases heq : p = it
  · subst heq
    exact (h.timers_nodup.not_mem_erase) hp
  · have hself := OrderedList.Sorted.find_mem m.less_irrefl h.sorted (List.mem_of_mem_erase hp)
    rw [findTimer, hself] at hfind
    exact heq (Option.some.inj hfind)

/-- A member of the set is found as itself. -/
theorem Shape.findTimer_mem (h : Shape m S) (hp : p ∈ m.timers) : m.findTimer p = some p :=
  OrderedList.Sorted.find_mem m.less_irrefl h.sorted hp

/-- The set splits at the iterator `it` into the expired and the unexpired range. -/
theorem expired_append_unexpired (m : TimerManager W C) (now nowPtr : ℕ) (rollover : Bool) :
    m.expired now nowPtr rollover ++ m.unexpired now nowPtr rollover = m.timers := by
  have hsuffix : m.unexpired now nowPtr rollover <:+ m.timers := by
    unfold unexpired
    split
    · exact List.nil_suffix
    · exact (List.dropWhile_suffix _).trans (List.dropWhile_suffix _)
  obtain ⟨front, hfront⟩ := hsuffix
  have hlength := congrArg List.length hfront
  rw [List.length_append] at hlength
  have htake : m.timers.length - (m.unexpired now nowPtr rollover).length = front.length := by omega
  rw [expired, htake]
  conv_lhs => rw [← hfront, List.take_left]
  exact hfront

/-- Taking the expired range out leaves its timers outside. -/
theorem Shape.takeExpired (h : Shape m []) (now nowPtr : ℕ) (rollover : Bool) :
    Shape { m with timers := m.unexpired now nowPtr rollover } (m.expired now nowPtr rollover) := by
  have hsplit := m.expired_append_unexpired now nowPtr rollover
  have hnodup := h.timers_nodup
  rw [← hsplit, List.nodup_append] at hnodup
  refine ⟨?_, fun q hq => h.allocated q ?_, hnodup.1, fun q hq hmem => hnodup.2.2 q hq q hmem rfl⟩
  · exact h.sorted.sublist (hsplit ▸ List.sublist_append_right _ _)
  · rw [← hsplit]
    exact List.mem_append_right _ hq

/-! ## The operations on one timer -/

/-- `cancel` does nothing, or it takes out a timer that has a callback and drops the callback. -/
theorem cancel_cases {r : TimerManager W C × Bool} (hr : m.cancel p = .ok r) :
    (r = (m, false) ∧ ∀ t, m.heap p = some t → t.cb = none) ∨
      ∃ t it, m.heap p = some t ∧ t.cb.isSome = true ∧ m.findTimer p = some it ∧
        r = ((m.store p { t with cb := none }).eraseTimer it, true) := by
  unfold TimerManager.cancel at hr
  cases ht : m.heap p with
  | none =>
    rw [ht] at hr
    cases hr
    exact .inl ⟨rfl, fun t hnone => by cases hnone⟩
  | some t =>
    rw [ht] at hr
    dsimp only at hr
    split at hr
    · rename_i hcb
      have hless : (m.store p { t with cb := none }).less = m.less :=
        less_store_of_next_eq (by simp [nextOf, ht])
      split at hr
      · cases hr
      · rename_i it hfind
        cases hr
        rw [findTimer, hless] at hfind
        exact .inr ⟨t, it, rfl, hcb, hfind, rfl⟩
    · rename_i hcb
      cases hr
      refine .inl ⟨rfl, ?_⟩
      rintro _ ⟨⟩
      exact Option.not_isSome_iff_eq_none.mp hcb

/-- `refresh` does nothing, or it takes out a timer that has a callback, moves its deadline and inserts it again. -/
theorem refresh_cases (m : TimerManager W C) (p now : ℕ) :
    m.refresh p now = (m, false) ∨
      ∃ t it, m.heap p = some t ∧ t.cb.isSome = true ∧ m.findTimer p = some it ∧ m.refresh p now =
        (((m.eraseTimer it).store p { t with next := addU64 now t.ms }).insertTimer p, true) := by
  unfold TimerManager.refresh
  cases ht : m.heap p with
  | none => exact .inl rfl
  | some t =>
    dsimp only
    split
    · rename_i hcb
      cases hfind : m.findTimer p with
      | none => exact .inl rfl
      | some it => exact .inr ⟨t, it, rfl, hcb, rfl, rfl⟩
    · exact .inl rfl

/-- `reset` leaves the manager as it is, or it takes out a timer that has a callback, sets its interval and its
deadline, and inserts it again. -/
theorem reset_cases (m : TimerManager W C) (p now ms : ℕ) (fromNow : Bool) :
    (∃ result, m.reset p now ms fromNow = (m, result, false)) ∨
      ∃ t it, m.heap p = some t ∧ t.cb.isSome = true ∧ m.findTimer p = some it ∧
        m.reset p now ms fromNow =
          let start := if fromNow then now else subU64 t.next t.ms
          let r := ((m.eraseTimer it).store p { t with ms := ms, next := addU64 start ms }).addTimerLocked p
          (r.1, true, r.2) := by
  unfold TimerManager.reset
  cases ht : m.heap p with
  | none => exact .inl ⟨false, rfl⟩
  | some t =>
    dsimp only
    split
    · exact .inl ⟨true, rfl⟩
    · split
      · rename_i hcb
        cases hfind : m.findTimer p with
        | none => exact .inl ⟨false, rfl⟩
        | some it => exact .inr ⟨t, it, rfl, hcb, rfl, rfl⟩
      · exact .inl ⟨false, rfl⟩

end Bobliew.TimerManager
