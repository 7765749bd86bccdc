import Bobliew.Lib.Runs
import Bobliew.Timer.Order

/-!
# A timer is in the set exactly while it has a callback

The invariant of the timer manager over every sequence of operations. `Live m S` says that,
apart from the timers `S` an operation is holding, a timer is a member exactly when its
callback is present, and that every deadline lies strictly after the interval it was computed
from. The latter keeps deadlines away from zero, where the comparator identifies all timers.

The clock may jump in either direction. It is only assumed to be positive and not to overflow
when an interval is added to it.
-/

namespace Bobliew.TimerManager

variable {W C : Type*} {m : TimerManager W C} {S : List ℕ} {p : ℕ} {t : Timer W C}

/-- New objects get unused addresses, and operations act on existing timers. -/
def Addressed (m : TimerManager W C) : Op W C → Prop
  | .addTimer p _ _ _ _ => m.heap p = none
  | .addConditionTimer p _ _ _ _ _ => m.heap p = none
  | .cancel p => (m.heap p).isSome = true
  | .refresh p _ => (m.heap p).isSome = true
  | .reset p _ _ _ => (m.heap p).isSome = true
  | .listExpireCb _ nowPtr => m.heap nowPtr = none
  | .getNextTimer _ => True

/-- No deadline computed by the operation exceeds 64 bits. -/
def NoOverflow (m : TimerManager W C) : Op W C → Prop
  | .addTimer _ now ms _ _ => now + ms < u64
  | .addConditionTimer _ now ms _ _ _ => now + ms < u64
  | .cancel _ => True
  | .refresh p now => ∀ t, m.heap p = some t → now + t.ms < u64
  | .reset p now ms fromNow =>
    ∀ t, m.heap p = some t → (if fromNow then now else subU64 t.next t.ms) + ms < u64
  | .listExpireCb now _ =>
    ∀ p ∈ m.timers, ∀ t, m.heap p = some t → t.recurring = true → now + t.ms < u64
  | .getNextTimer _ => True

/-- The clock reading an operation makes. -/
def Op.clock : Op W C → Option ℕ
  | .addTimer _ now _ _ _ => some now
  | .addConditionTimer _ now _ _ _ _ => some now
  | .cancel _ => none
  | .refresh _ now => some now
  | .reset _ now _ _ => some now
  | .listExpireCb now _ => some now
  | .getNextTimer now => some now

/-- Operations with a positive clock and no overflow, in any order. -/
def Permitted (m : TimerManager W C) (op : Op W C) : Prop :=
  Addressed m op ∧ NoOverflow m op ∧ ∀ now, op.clock = some now → 0 < now

/-- The state after an operation, forgetting the pending notification. -/
def step (m : TimerManager W C) (op : Op W C) : Except Fault (TimerManager W C) :=
  (m.apply op).map Prod.fst

/-- Every timer outside `S` is a member exactly when it has a callback. -/
structure Live (m : TimerManager W C) (S : List ℕ) : Prop where
  shape : Shape m S
  member : ∀ p t, m.heap p = some t → p ∉ S → (p ∈ m.timers ↔ t.cb.isSome = true)
  held : ∀ p ∈ S, ∀ t, m.heap p = some t → t.cb.isSome = true
  started : ∀ p t, m.heap p = some t → t.ms < t.next ∧ t.next < u64

/-- Storing an object in a heap is read back at its own address only. -/
theorem heap_store_cases {q : ℕ} {u : Timer W C} (h : (m.store p t).heap q = some u) :
    q = p ∧ u = t ∨ q ≠ p ∧ m.heap q = some u := by
  by_cases hq : q = p
  · subst hq
    exact Or.inl ⟨rfl, by simpa [store] using h.symm⟩
  · exact Or.inr ⟨hq, by simpa [store, Function.update_of_ne hq] using h⟩

/-- The sum of a reading and an interval, when it fits. -/
theorem addU64_of_lt {a b : ℕ} (h : a + b < u64) : addU64 a b = a + b := Nat.mod_eq_of_lt h

/-- The difference of a deadline and its interval, when the deadline is larger. -/
theorem subU64_of_le {a b : ℕ} (hab : b ≤ a) (ha : a < u64) : subU64 a b = a - b := by
  have hb : b % u64 = b := Nat.mod_eq_of_lt (by omega)
  rw [subU64, hb, show a + (u64 - b) = (a - b) + u64 by omega, Nat.add_mod_right]
  exact Nat.mod_eq_of_lt (by omega)

/-- The start of a running interval, read back from its deadline. -/
theorem Live.start_pos (h : Live m S) (ht : m.heap p = some t) : 0 < subU64 t.next t.ms := by
  obtain ⟨hms, hnext⟩ := h.started p t ht
  rw [subU64_of_le (Nat.le_of_lt hms) hnext]
  omega

/-- A new manager holds nothing. -/
theorem Live.empty : Live (TimerManager.empty : TimerManager W C) [] :=
  ⟨Shape.empty, by simp [TimerManager.empty], by simp, by simp [TimerManager.empty]⟩

/-- An unused address can be reserved for the object being created. -/
theorem Live.holdFresh (h : Live m []) (hp : m.heap p = none) : Live m [p] where
  shape := by
    refine ⟨h.shape.sorted, h.shape.allocated, List.nodup_singleton p, fun q hq hmem => ?_⟩
    have halloc := h.shape.allocated q hmem
    rw [List.mem_singleton.mp hq, hp] at halloc
    cases halloc
  member := fun q u hu _ => h.member q u hu (by simp)
  held := by
    intro q hq u hu
    rw [List.mem_singleton.mp hq, hp] at hu
    cases hu
  started := h.started

/-- Taking a member out of the set. -/
theorem Live.holdMember (h : Live m []) (hp : p ∈ m.timers) : Live (m.eraseTimer p) [p] where
  shape := by
    have hshape := h.shape.eraseTimer p
    refine ⟨hshape.sorted, hshape.allocated, List.nodup_singleton p, fun q hq hmem => ?_⟩
    rw [List.mem_singleton.mp hq] at hmem
    exact h.shape.timers_nodup.not_mem_erase hmem
  member := by
    intro q u hu hq
    have hqp : q ≠ p := by simpa using hq
    rw [← h.member q u hu (by simp)]
    exact List.mem_erase_of_ne hqp
  held := by
    intro q hq u hu
    rw [List.mem_singleton.mp hq] at hu
    exact (h.member p u hu (by simp)).mp hp
  started := h.started

/-- Arming a held timer releases it. -/
theorem Live.arm (h : Live m (p :: S)) (hcb : t.cb.isSome = true) (hms : t.ms < t.next)
    (hnext : t.next < u64) : Live ((m.store p t).insertTimer p) S := by
  have hp : p ∉ m.timers := h.shape.absent p List.mem_cons_self
  have hS : p ∉ S := (List.nodup_cons.mp h.shape.nodup).1
  refine ⟨h.shape.forget.arm hp hS, fun q u hu hqS => ?_, fun q hq u hu => ?_, fun q u hu => ?_⟩
  · rcases heap_store_cases hu with ⟨rfl, rfl⟩ | ⟨hqp, hq⟩
    · refine iff_of_true (mem_insertTimer_self hp fun y _ => Or.inl ?_) hcb
      rw [nextOf_store_self]
      omega
    · rw [← h.member q u hq (by simp [hqp, hqS])]
      constructor
      · intro hmem
        exact (OrderedList.eq_or_mem_of_mem_insert hmem).resolve_left hqp
      · exact OrderedList.mem_insert_of_mem
  · rcases heap_store_cases hu with ⟨rfl, _⟩ | ⟨_, hheap⟩
    · exact absurd hq hS
    · exact h.held q (List.mem_cons_of_mem p hq) u hheap
  · rcases heap_store_cases hu with ⟨_, rfl⟩ | ⟨_, hheap⟩
    · exact ⟨hms, hnext⟩
    · exact h.started q u hheap

/-- Clearing the callback of a held timer releases it. -/
theorem Live.clear (h : Live m (p :: S)) (ht : m.heap p = some t) :
    Live (m.store p { t with cb := none }) S := by
  have hp : p ∉ m.timers := h.shape.absent p List.mem_cons_self
  have hS : p ∉ S := (List.nodup_cons.mp h.shape.nodup).1
  refine ⟨h.shape.forget.store hp, fun q u hu hqS => ?_, fun q hq u hu => ?_, fun q u hu => ?_⟩
  · rcases heap_store_cases hu with ⟨rfl, rfl⟩ | ⟨hqp, hq⟩
    · exact iff_of_false hp (by simp)
    · exact h.member q u hq (by simp [hqp, hqS])
  · rcases heap_store_cases hu with ⟨rfl, _⟩ | ⟨_, hheap⟩
    · exact absurd hq hS
    · exact h.held q (List.mem_cons_of_mem p hq) u hheap
  · rcases heap_store_cases hu with ⟨_, rfl⟩ | ⟨_, hheap⟩
    · exact h.started p t ht
    · exact h.started q u hheap

/-- Changing only `m_tickled` or `m_previousTime` keeps the invariant. -/
theorem Live.of_eq {m' : TimerManager W C} (h : Live m S) (hheap : m'.heap = m.heap)
    (htimers : m'.timers = m.timers) : Live m' S :=
  ⟨h.shape.of_eq hheap htimers, by rw [hheap, htimers]; exact h.member,
    by rw [hheap]; exact h.held, by rw [hheap]; exact h.started⟩

/-- Creating a timer keeps the invariant. -/
theorem Live.addTimer (h : Live m []) {now ms : ℕ} {cb : TimerCallback W C} {recurring : Bool}
    (hp : m.heap p = none) (hnow : 0 < now) (hsum : now + ms < u64) :
    Live (m.addTimer p now ms cb recurring).1 [] := by
  have hnext : addU64 now ms = now + ms := addU64_of_lt hsum
  refine Live.of_eq ((h.holdFresh hp).arm (t := ⟨recurring, ms, addU64 now ms, some cb⟩) rfl ?_ ?_) rfl rfl
  · show ms < addU64 now ms
    omega
  · show addU64 now ms < u64
    omega

/-- A timer with a callback is found as itself. -/
theorem Live.findTimer_self (h : Live m []) (ht : m.heap p = some t) (hcb : t.cb.isSome = true) :
    m.findTimer p = some p :=
  h.shape.findTimer_mem ((h.member p t ht (by simp)).mpr hcb)

/-- `cancel` never erases the end iterator and keeps the invariant. -/
theorem Live.cancel (h : Live m []) (p : ℕ) :
    ∃ r, m.cancel p = .ok r ∧ Live r.1 [] := by
  cases ht : m.heap p with
  | none => exact ⟨(m, false), by simp [TimerManager.cancel, ht], h⟩
  | some t =>
    by_cases hcb : t.cb.isSome = true
    · have hmem : p ∈ m.timers := (h.member p t ht (by simp)).mpr hcb
      have hless : (m.store p { t with cb := none }).less = m.less :=
        less_store_of_next_eq (by simp [nextOf, ht])
      have hfind : (m.store p { t with cb := none }).findTimer p = some p := by
        rw [findTimer, hless]
        exact h.findTimer_self ht hcb
      refine ⟨((m.store p { t with cb := none }).eraseTimer p, true), ?_, ?_⟩
      · simp [TimerManager.cancel, ht, hcb, hfind]
      · exact Live.of_eq ((h.holdMember hmem).clear ht) rfl rfl
    · exact ⟨(m, false), by simp [TimerManager.cancel, ht, hcb], h⟩

/-- Moving a member to a new deadline: `refresh` and `reset` after their checks. -/
theorem Live.rearm (h : Live m []) (ht : m.heap p = some t) (hcb : t.cb.isSome = true)
    {start ms : ℕ} (hstart : 0 < start) (hsum : start + ms < u64) :
    Live (((m.eraseTimer p).store p { t with ms := ms, next := addU64 start ms }).insertTimer p) [] := by
  have hmem : p ∈ m.timers := (h.member p t ht (by simp)).mpr hcb
  have hnext : addU64 start ms = start + ms := addU64_of_lt hsum
  refine (h.holdMember hmem).arm hcb ?_ ?_
  · show ms < addU64 start ms
    omega
  · show addU64 start ms < u64
    omega

/-- `refresh` keeps the invariant. -/
theorem Live.refresh (h : Live m []) {now : ℕ} (hnow : 0 < now)
    (hsum : ∀ t, m.heap p = some t → now + t.ms < u64) : Live (m.refresh p now).1 [] := by
  rcases m.refresh_cases p now with hsame | ⟨t, it, ht, hcb, hfind, hmoved⟩
  · rw [hsame]
    exact h
  · obtain rfl : p = it := Option.some.inj ((h.findTimer_self ht hcb).symm.trans hfind)
    rw [hmoved]
    exact h.rearm ht hcb hnow (hsum t ht)

/-- `reset` keeps the invariant. -/
theorem Live.reset (h : Live m []) {now ms : ℕ} {fromNow : Bool} (hnow : 0 < now)
    (hsum : ∀ t, m.heap p = some t → (if fromNow then now else subU64 t.next t.ms) + ms < u64) :
    Live (m.reset p now ms fromNow).1 [] := by
  rcases m.reset_cases p now ms fromNow with ⟨result, hsame⟩ | ⟨t, it, ht, hcb, hfind, hmoved⟩
  · rw [hsame]
    exact h
  · obtain rfl : p = it := Option.some.inj ((h.findTimer_self ht hcb).symm.trans hfind)
    have hstart : 0 < (if fromNow then now else subU64 t.next t.ms) := by
      split
      · exact hnow
      · exact h.start_pos ht
    rw [hmoved]
    exact Live.of_eq (h.rearm ht hcb hstart (hsum t ht)) rfl rfl

/-- One turn of the expiry loop releases the timer it handles. -/
theorem Live.fire {cbs : List (Option (TimerCallback W C))} (h : Live m (p :: S)) {now : ℕ}
    (hnow : 0 < now) (hsum : ∀ t, m.heap p = some t → t.recurring = true → now + t.ms < u64) :
    Live (fire now (m, cbs) p).1 S := by
  unfold TimerManager.fire
  dsimp only
  cases ht : m.heap p with
  | none =>
    refine ⟨h.shape.forget, fun q u hu hqS => ?_, fun q hq => h.held q (by simp [hq]), h.started⟩
    have hqp : q ≠ p := by
      rintro rfl
      rw [ht] at hu
      cases hu
    exact h.member q u hu (by simp [hqp, hqS])
  | some t =>
    dsimp only
    split
    · rename_i hrec
      have hnext : addU64 now t.ms = now + t.ms := addU64_of_lt (hsum t ht hrec)
      have hbound := hsum t ht hrec
      refine h.arm (h.held p List.mem_cons_self t ht) ?_ ?_
      · show t.ms < addU64 now t.ms
        omega
      · show addU64 now t.ms < u64
        omega
    · exact h.clear ht

/-- Firing one timer leaves the objects of the others untouched. -/
theorem heap_fire_ne (now : ℕ) (acc : TimerManager W C × List (Option (TimerCallback W C)))
    {q : ℕ} (hq : q ≠ p) : (fire now acc p).1.heap q = acc.1.heap q := by
  unfold fire
  split
  · rfl
  · dsimp only
    split <;> simp [store, insertTimer, Function.update_of_ne hq]

/-- The whole expiry loop releases every timer taken out. -/
theorem Live.foldFire {now : ℕ} (hnow : 0 < now) :
    ∀ (S : List ℕ) (acc : TimerManager W C × List (Option (TimerCallback W C))), Live acc.1 S →
      (∀ p ∈ S, ∀ t, acc.1.heap p = some t → t.recurring = true → now + t.ms < u64) →
      Live (S.foldl (TimerManager.fire now) acc).1 []
  | [], _, h, _ => h
  | p :: S, acc, h, hsum => by
    rw [List.foldl_cons]
    refine Live.foldFire hnow S _ (h.fire hnow (hsum p List.mem_cons_self)) fun q hq u hu => ?_
    have hqp : q ≠ p := fun heq => (List.nodup_cons.mp h.shape.nodup).1 (heq ▸ hq)
    rw [heap_fire_ne now acc hqp] at hu
    exact hsum q (List.mem_cons_of_mem p hq) u hu

/-- Taking the expired range out holds exactly its timers. -/
theorem Live.takeExpired (h : Live m []) (now nowPtr : ℕ) (rollover : Bool) :
    Live { m with timers := m.unexpired now nowPtr rollover } (m.expired now nowPtr rollover) := by
  have hsplit := m.expired_append_unexpired now nowPtr rollover
  refine ⟨h.shape.takeExpired now nowPtr rollover, fun q u hu hq => ?_, fun q hq u hu => ?_, h.started⟩
  · rw [← h.member q u hu (by simp), ← hsplit, List.mem_append]
    exact (or_iff_right hq).symm
  · refine (h.member q u hu (by simp)).mp ?_
    rw [← hsplit]
    exact List.mem_append_left _ hq

/-- `listExpireCb` keeps the invariant, rollover or not. -/
theorem Live.listExpireCb (h : Live m []) {now nowPtr : ℕ} (hnow : 0 < now)
    (hsum : ∀ p ∈ m.timers, ∀ t, m.heap p = some t → t.recurring = true → now + t.ms < u64) :
    Live (m.listExpireCb now nowPtr).1 [] := by
  unfold TimerManager.listExpireCb
  split
  · exact h
  · dsimp only
    have hm' : Live (m.detectClockRollover now).1 [] := h.of_eq rfl rfl
    split
    · exact hm'
    · refine Live.foldFire hnow _ _ (hm'.takeExpired now nowPtr _) fun p hp t ht hrec => ?_
      refine hsum p ?_ t ht hrec
      have hsplit := (m.detectClockRollover now).1.expired_append_unexpired now nowPtr
        (m.detectClockRollover now).2
      exact (show (m.detectClockRollover now).1.timers = m.timers from rfl) ▸ hsplit ▸
        List.mem_append_left _ hp

/-- Every permitted operation succeeds and keeps the invariant. -/
theorem Live.step (h : Live m []) (op : Op W C) (hop : Permitted m op) :
    ∃ m', m.step op = .ok m' ∧ Live m' [] := by
  obtain ⟨haddr, hover, hclock⟩ := hop
  cases op with
  | addTimer p now ms cb recurring =>
    exact ⟨_, rfl, h.addTimer haddr (hclock now rfl) hover⟩
  | addConditionTimer p now ms cb weakCond recurring =>
    exact ⟨_, rfl, h.addTimer haddr (hclock now rfl) hover⟩
  | cancel p =>
    obtain ⟨r, hr, hlive⟩ := h.cancel p
    exact ⟨r.1, by simp [TimerManager.step, apply, hr, Except.map], hlive⟩
  | refresh p now => exact ⟨_, rfl, h.refresh (hclock now rfl) hover⟩
  | reset p now ms fromNow => exact ⟨_, rfl, h.reset (hclock now rfl) hover⟩
  | listExpireCb now nowPtr => exact ⟨_, rfl, h.listExpireCb (hclock now rfl) hover⟩
  | getNextTimer now => exact ⟨_, rfl, h.of_eq rfl rfl⟩

/-- The invariant holds after every sequence of permitted operations. -/
theorem Live.reached (h : Runs.Reaches TimerManager.step Permitted TimerManager.empty m) :
    Live m [] := by
  refine h.invariant (fun m => Live m []) Live.empty fun s op s' hs hop hok => ?_
  obtain ⟨s'', hok', hlive⟩ := hs.step op hop
  rw [hok] at hok'
  cases hok'
  exact hlive

/-- In every reached state the set is strictly sorted and free of repetitions, a created timer is
in it exactly when its callback is present, lookup of such a timer succeeds with the timer itself,
and no permitted operation, `cancel` in particular, erases the end iterator. -/
theorem timers_consistent (h : Runs.Reaches step Permitted empty m) :
    OrderedList.Sorted m.less m.timers ∧ m.timers.Nodup ∧
      (∀ p t, m.heap p = some t → (p ∈ m.timers ↔ t.cb.isSome = true)) ∧
      (∀ p t, m.heap p = some t → t.cb.isSome = true → m.findTimer p = some p) ∧
      (∀ p, m.cancel p ≠ .error .eraseEnd) ∧
      ∀ op, Permitted m op → ∃ m', m.step op = .ok m' := by
  have hlive := Live.reached h
  refine ⟨hlive.shape.sorted, hlive.shape.timers_nodup, fun p t ht => hlive.member p t ht (by simp),
    fun p t ht hcb => hlive.findTimer_self ht hcb, fun p herr => ?_, fun op hop => ?_⟩
  · obtain ⟨r, hr, _⟩ := hlive.cancel p
    rw [hr] at herr
    cases herr
  · obtain ⟨m', hok, _⟩ := hlive.step op hop
    exact ⟨m', hok⟩

/-- The state after creating one recurring timer at clock 5 and letting it expire at clock 20. -/
theorem timers_consistent_oneTimer :
    Runs.Reaches step Permitted (empty : TimerManager Unit Unit)
        (((empty : TimerManager Unit Unit).addTimer 7 5 10 (.plain ()) true).1.listExpireCb 20 8).1 ∧
      (((empty : TimerManager Unit Unit).addTimer 7 5 10 (.plain ()) true).1.listExpireCb 20 8).1.timers.Nodup := by
  have hadd : Permitted (empty : TimerManager Unit Unit) (.addTimer 7 5 10 () true) := by
    refine ⟨rfl, ?_, ?_⟩
    · show 5 + 10 < u64
      decide
    · intro now hnow
      cases hnow
      decide
  have hexpire : Permitted ((empty : TimerManager Unit Unit).addTimer 7 5 10 (.plain ()) true).1
      (.listExpireCb 20 8) := by
    refine ⟨rfl, ?_, ?_⟩
    · intro p hp t ht _
      have hp7 : p = 7 := List.mem_singleton.mp hp
      subst hp7
      cases ht
      decide
    · intro now hnow
      cases hnow
      decide
  have hfirst : Runs.Reaches step Permitted (empty : TimerManager Unit Unit)
      ((empty : TimerManager Unit Unit).addTimer 7 5 10 (.plain ()) true).1 := .next .start _ hadd rfl
  have hreach := hfirst.next _ hexpire rfl
  exact ⟨hreach, (timers_consistent hreach).2.1⟩

end Bobliew.TimerManager
