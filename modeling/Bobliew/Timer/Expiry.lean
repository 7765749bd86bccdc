import Bobliew.Timer.Membership

/-!
# What an expiry hands out

As long as the clock does not go back, `listExpireCb` hands out callbacks of timers whose deadline has
passed, and of no others. A timer that keeps its callback is unchanged, unless it is recurring and has
been armed again.
-/

namespace Bobliew

namespace TimerManager

variable {W C : Type*} {m : TimerManager W C} {now nowPtr p : ℕ}

/-- Without a rollover the expired range is the one before the deadline `now` followed by the one at it. -/
theorem expired_eq (m : TimerManager W C) (now nowPtr : ℕ) :
    m.expired now nowPtr false =
      (m.timers.takeWhile fun p => timerComparator (m.key p) (now, nowPtr)) ++
        (m.timers.dropWhile fun p => timerComparator (m.key p) (now, nowPtr)).takeWhile
          fun p => decide (m.nextOf p = now) := by
  refine (List.append_left_inj (m.unexpired now nowPtr false)).mp ?_
  rw [expired_append_unexpired, unexpired, if_neg Bool.false_ne_true, List.append_assoc,
    List.takeWhile_append_dropWhile, List.takeWhile_append_dropWhile]

/-- Without a rollover the expired timers have reached their deadline. -/
theorem nextOf_le_of_mem_expired (h : p ∈ m.expired now nowPtr false) : m.nextOf p ≤ now := by
  rw [expired_eq, List.mem_append] at h
  rcases h with hbefore | hat
  · have hless := List.mem_takeWhile_imp (p := fun q => timerComparator (m.key q) (now, nowPtr)) hbefore
    rw [timerComparator_iff] at hless
    simp only [key] at hless
    omega
  · have heq := List.mem_takeWhile_imp (p := fun q => decide (m.nextOf q = now)) hat
    exact Nat.le_of_eq (of_decide_eq_true heq)

/-- The loop over the expired timers, compared with the manager before it: an object that has a callback
had it before, and is the same unless it is recurring, and the callbacks handed out are those of timers
whose deadline has passed. -/
structure Handed (m : TimerManager W C) (now : ℕ)
    (acc : TimerManager W C × List (Option (TimerCallback W C))) : Prop where
  heap : ∀ p t cb, acc.1.heap p = some t → t.cb = some cb →
    ∃ t₀, m.heap p = some t₀ ∧ t₀.cb = some cb ∧ t₀.recurring = t.recurring ∧
      (t.recurring = false → t = t₀)
  out : ∀ cb, some cb ∈ acc.2 → ∃ p t, m.heap p = some t ∧ t.cb = some cb ∧ t.next ≤ now

/-- One turn of the loop, on a timer whose deadline has passed. -/
theorem Handed.fire {acc : TimerManager W C × List (Option (TimerCallback W C))} (h : Handed m now acc)
    (hp : m.nextOf p ≤ now) : Handed m now (fire now acc p) := by
  unfold TimerManager.fire
  cases hheap : acc.1.heap p with
  | none => exact h
  | some t =>
    have hout : ∀ cb, some cb ∈ acc.2 ++ [t.cb] → ∃ p t, m.heap p = some t ∧ t.cb = some cb ∧ t.next ≤ now := by
      intro cb hcb
      rcases List.mem_append.mp hcb with hold | hnew
      · exact h.out cb hold
      · obtain ⟨t₀, ht₀, hcb₀, _⟩ := h.heap p t cb hheap (List.mem_singleton.mp hnew).symm
        refine ⟨p, t₀, ht₀, hcb₀, ?_⟩
        simpa [nextOf, ht₀] using hp
    dsimp only
    split
    · rename_i hrecurring
      refine ⟨fun q u cb hu hcb => ?_, hout⟩
      rcases heap_store_cases hu with ⟨rfl, rfl⟩ | ⟨_, hold⟩
      · obtain ⟨t₀, ht₀, hcb₀, hsame, _⟩ := h.heap q t cb hheap hcb
        exact ⟨t₀, ht₀, hcb₀, hsame, fun hfalse => absurd (hrecurring.symm.trans hfalse) (by decide)⟩
      · exact h.heap q u cb hold hcb
    · refine ⟨fun q u cb hu hcb => ?_, hout⟩
      rcases heap_store_cases hu with ⟨rfl, rfl⟩ | ⟨_, hold⟩
      · cases hcb
      · exact h.heap q u cb hold hcb

/-- The whole loop over timers whose deadline has passed. -/
theorem Handed.foldFire (S : List ℕ) (hS : ∀ p ∈ S, m.nextOf p ≤ now)
    {acc : TimerManager W C × List (Option (TimerCallback W C))} (h : Handed m now acc) :
    Handed m now (S.foldl (TimerManager.fire now) acc) := by
  induction S generalizing acc with
  | nil => exact h
  | cons p S ih =>
    rw [List.foldl_cons]
    exact ih (fun q hq => hS q (List.mem_cons_of_mem p hq)) (h.fire (hS p List.mem_cons_self))

/-- `listExpireCb` with a clock that has not gone back. -/
theorem handed_listExpireCb (nowPtr : ℕ) (hclock : m.previousTime ≤ now) :
    Handed m now (m.listExpireCb now nowPtr) := by
  have hstart : ∀ m' : TimerManager W C, m'.heap = m.heap → Handed m now (m', []) := by
    intro m' hheap
    refine ⟨fun p t cb ht hcb => ?_, fun cb hcb => absurd hcb List.not_mem_nil⟩
    rw [hheap] at ht
    exact ⟨t, ht, hcb, rfl, fun _ => rfl⟩
  have hrollover : (m.detectClockRollover now).2 = false := by
    simp only [detectClockRollover, Bool.and_eq_false_iff, decide_eq_false_iff_not]
    exact Or.inl (by omega)
  unfold TimerManager.listExpireCb
  split
  · exact hstart m rfl
  · dsimp only
    split
    · exact hstart _ rfl
    · rw [hrollover]
      refine Handed.foldFire _ (fun p hp => ?_) (hstart _ rfl)
      exact nextOf_le_of_mem_expired (m := (m.detectClockRollover now).1) hp

/-- The clock reading an expiry leaves behind. -/
theorem previousTime_listExpireCb (nowPtr : ℕ) (hclock : m.previousTime ≤ now) :
    (m.listExpireCb now nowPtr).1.previousTime ≤ now := by
  have hfire : ∀ (S : List ℕ) (acc : TimerManager W C × List (Option (TimerCallback W C))),
      (S.foldl (TimerManager.fire now) acc).1.previousTime = acc.1.previousTime := by
    intro S
    induction S with
    | nil => exact fun _ => rfl
    | cons p S ih =>
      intro acc
      rw [List.foldl_cons, ih]
      unfold TimerManager.fire
      split
      · rfl
      · dsimp only
        split <;> rfl
  unfold TimerManager.listExpireCb
  split
  · exact hclock
  · dsimp only
    split
    · exact Nat.le_refl now
    · rw [hfire]
      exact Nat.le_refl now

/-- The timer an operation acts on. -/
def Op.timer : Op W C → Option ℕ
  | .addTimer p _ _ _ _ => some p
  | .addConditionTimer p _ _ _ _ _ => some p
  | .cancel p => some p
  | .refresh p _ => some p
  | .reset p _ _ _ => some p
  | .listExpireCb _ _ => none
  | .getNextTimer _ => none

/-- The callback an operation brings in. -/
def Op.callback : Op W C → Option (TimerCallback W C)
  | .addTimer _ _ _ cb _ => some (.plain cb)
  | .addConditionTimer _ _ _ cb weakCond _ => some (.onTimer weakCond cb)
  | _ => none

/-- An operation other than an expiry, compared with the manager before it: the clock reading is the
same, and an object that has a callback got it from the operation or had it before, and is the same unless
the operation acts on it. -/
structure Framed (m : TimerManager W C) (op : Op W C) (m' : TimerManager W C) : Prop where
  clock : m'.previousTime = m.previousTime
  heap : ∀ q t cb, m'.heap q = some t → t.cb = some cb → op.callback = some cb ∨
    ∃ t₀, m.heap q = some t₀ ∧ t₀.cb = some cb ∧ (op.timer ≠ some q → t = t₀)

/-- An operation that leaves the objects as they are. -/
theorem Framed.of_heap_eq {op : Op W C} {m' : TimerManager W C} (hheap : m'.heap = m.heap)
    (hclock : m'.previousTime = m.previousTime) : Framed m op m' where
  clock := hclock
  heap q t cb ht hcb := by
    rw [hheap] at ht
    exact Or.inr ⟨t, ht, hcb, fun _ => rfl⟩

/-- An operation that overwrites the object it acts on. -/
theorem Framed.of_heap_store {op : Op W C} {m' : TimerManager W C} {t : Timer W C} (hp : op.timer = some p)
    (hheap : m'.heap = (m.store p t).heap) (hclock : m'.previousTime = m.previousTime)
    (hcb : ∀ cb, t.cb = some cb → op.callback = some cb ∨ ∃ t₀, m.heap p = some t₀ ∧ t₀.cb = some cb) :
    Framed m op m' where
  clock := hclock
  heap q u cb hu hucb := by
    rw [hheap] at hu
    rcases heap_store_cases hu with ⟨rfl, rfl⟩ | ⟨_, hold⟩
    · rcases hcb cb hucb with hnew | ⟨t₀, ht₀, hcb₀⟩
      · exact Or.inl hnew
      · exact Or.inr ⟨t₀, ht₀, hcb₀, fun hne => absurd hp hne⟩
    · exact Or.inr ⟨u, hold, hucb, fun _ => rfl⟩

/-- `Timer::cancel` on the object level: the callback is gone and nothing else has changed. -/
theorem heap_cancel {r : TimerManager W C × Bool} (h : m.cancel p = .ok r) :
    r.1.previousTime = m.previousTime ∧
      ∀ q t cb, r.1.heap q = some t → t.cb = some cb → q ≠ p ∧ m.heap q = some t := by
  rcases cancel_cases h with ⟨rfl, hnone⟩ | ⟨u, it, hu, _, _, rfl⟩
  · refine ⟨rfl, fun q t cb ht hcb => ⟨?_, ht⟩⟩
    rintro rfl
    cases (hnone t ht).symm.trans hcb
  · refine ⟨rfl, fun q t cb ht hcb => ?_⟩
    rcases heap_store_cases (m := m) ht with ⟨rfl, rfl⟩ | hold
    · cases hcb
    · exact hold

/-- Every operation but an expiry leaves the other timers alone. -/
theorem framed_apply {op : Op W C} {r : TimerManager W C × Bool} (h : m.apply op = .ok r)
    (hop : ∀ now nowPtr, op ≠ .listExpireCb now nowPtr) : Framed m op r.1 := by
  cases op with
  | addTimer p now ms cb recurring =>
    cases h
    exact Framed.of_heap_store rfl rfl rfl fun _ hcb => Or.inl hcb
  | addConditionTimer p now ms cb weakCond recurring =>
    cases h
    exact Framed.of_heap_store rfl rfl rfl fun _ hcb => Or.inl hcb
  | cancel p =>
    obtain ⟨canceled, hcancel, rfl⟩ := Except.exists_of_map_eq_ok h
    obtain ⟨hclock, hheap⟩ := heap_cancel hcancel
    exact ⟨hclock, fun q t cb ht hcb => Or.inr ⟨t, (hheap q t cb ht hcb).2, hcb, fun _ => rfl⟩⟩
  | refresh p now =>
    cases h
    rcases m.refresh_cases p now with hsame | ⟨t, it, ht, _, _, hmoved⟩
    · rw [hsame]
      exact Framed.of_heap_eq rfl rfl
    · rw [hmoved]
      exact Framed.of_heap_store rfl rfl rfl fun _ hcb => Or.inr ⟨t, ht, hcb⟩
  | reset p now ms fromNow =>
    cases h
    rcases m.reset_cases p now ms fromNow with ⟨result, hsame⟩ | ⟨t, it, ht, _, _, hmoved⟩
    · rw [hsame]
      exact Framed.of_heap_eq rfl rfl
    · rw [hmoved]
      exact Framed.of_heap_store rfl rfl rfl fun _ hcb => Or.inr ⟨t, ht, hcb⟩
  | listExpireCb now nowPtr => exact absurd rfl (hop now nowPtr)
  | getNextTimer now =>
    cases h
    exact Framed.of_heap_eq rfl rfl

end TimerManager

end Bobliew
