import Bobliew.Timer.Membership

/-!
# A waiter is told about earlier deadlines

A thread that calls `getNextTimer` sleeps until the deadline that was first in the set, its
horizon. Timers inserted later may be due earlier. Only `addTimer` and `reset` notify, and only
when the timer lands first and no notification is outstanding, while `refresh` and the re-arming
of recurring timers insert silently.

The argument rests on intervals that have already begun: with a clock that does not go back, no
deadline exceeds the present reading plus its interval, so a silent insertion never moves a
deadline towards the present.
-/

namespace Bobliew.TimerManager

variable {W C : Type*} {m : TimerManager W C} {S : List ℕ} {p : ℕ} {t : Timer W C}
  {clock : ℕ} {horizon : WithTop ℕ}

/-- The manager seen by a waiter: the last clock reading, the horizon of its last `getNextTimer`,
and the calls of `onTimerInsertedAtFront`, counted by the number of `getNextTimer` calls before
the insertion that causes them. -/
structure Watch (W C : Type*) where
  manager : TimerManager W C
  clock : ℕ
  horizon : WithTop ℕ
  epoch : ℕ
  pending : List ℕ
  called : List ℕ

/-- Before any operation the waiter has no deadline to sleep until. -/
def Watch.start : Watch W C := ⟨empty, 0, ⊤, 0, [], []⟩

/-- Either an atomic operation or the notification that an earlier insertion still owes. -/
inductive WatchStep (W C : Type*) where
  | op (op : Op W C)
  | onTimerInsertedAtFront (epoch : ℕ)

/-- The deadline of the first timer, infinite for an empty set. -/
def frontDeadline (m : TimerManager W C) : WithTop ℕ :=
  match m.timers with
  | [] => ⊤
  | front :: _ => (m.nextOf front : ℕ)

/-- Perform one step, recording what the waiter can observe. -/
def Watch.step (w : Watch W C) : WatchStep W C → Except Fault (Watch W C)
  | .op (.getNextTimer now) =>
    .ok { w with
      manager := (w.manager.getNextTimer now).1
      clock := now
      horizon := w.manager.frontDeadline
      epoch := w.epoch + 1 }
  | .op op =>
    (w.manager.apply op).map fun r =>
      { w with
        manager := r.1
        clock := op.clock.getD w.clock
        pending := if r.2 then w.pending ++ [w.epoch] else w.pending }
  | .onTimerInsertedAtFront epoch =>
    .ok { w with pending := w.pending.erase epoch, called := w.called ++ [epoch] }

/-- The clock does not go back, sums fit, and only owed notifications are delivered. -/
def Watch.Permitted (w : Watch W C) : WatchStep W C → Prop
  | .op op => Addressed w.manager op ∧ NoOverflow w.manager op ∧
      ∀ now, op.clock = some now → w.clock ≤ now
  | .onTimerInsertedAtFront epoch => epoch ∈ w.pending

/-- `onTimerInsertedAtFront` was called, or is owed, for an insertion since the last `getNextTimer`. -/
def Watch.Notified (w : Watch W C) : Prop := w.epoch ∈ w.called ∨ w.epoch ∈ w.pending

/-- Intervals have begun, and unless tickled no timer, member or held, is before the horizon. -/
structure Begun (m : TimerManager W C) (S : List ℕ) (clock : ℕ) (horizon : WithTop ℕ) : Prop where
  shape : Shape m S
  begun : ∀ p t, m.heap p = some t → t.ms ≤ t.next ∧ t.next ≤ clock + t.ms ∧ t.next < u64
  early : m.tickled = true ∨ ∀ p, p ∈ m.timers ∨ p ∈ S → horizon ≤ (m.nextOf p : ℕ)

/-- A later clock reading only weakens the bound on deadlines. -/
theorem Begun.advance (h : Begun m S clock horizon) {now : ℕ} (hnow : clock ≤ now) :
    Begun m S now horizon := by
  refine ⟨h.shape, fun p t ht => ?_, h.early⟩
  obtain ⟨hms, hclock, hnext⟩ := h.begun p t ht
  exact ⟨hms, by omega, hnext⟩

/-- Overwriting an object keeps the interval facts when the new object satisfies them. -/
theorem Begun.begun_store (h : Begun m S clock horizon)
    (ht : t.ms ≤ t.next ∧ t.next ≤ clock + t.ms ∧ t.next < u64) {q : ℕ} {u : Timer W C}
    (hu : (m.store p t).heap q = some u) : u.ms ≤ u.next ∧ u.next ≤ clock + u.ms ∧ u.next < u64 := by
  rcases heap_store_cases hu with ⟨_, rfl⟩ | ⟨_, hq⟩
  · exact ht
  · exact h.begun q u hq

/-- Silent insertion of a held timer whose deadline does not decrease. -/
theorem Begun.arm (h : Begun m (p :: S) clock horizon)
    (ht : t.ms ≤ t.next ∧ t.next ≤ clock + t.ms ∧ t.next < u64) (hlater : m.nextOf p ≤ t.next) :
    Begun ((m.store p t).insertTimer p) S clock horizon := by
  have hp : p ∉ m.timers := h.shape.absent p List.mem_cons_self
  have hS : p ∉ S := (List.nodup_cons.mp h.shape.nodup).1
  refine ⟨h.shape.forget.arm hp hS, fun q u hu => h.begun_store ht hu, ?_⟩
  rcases h.early with htickled | hearly
  · exact Or.inl htickled
  · refine Or.inr fun q hq => ?_
    change horizon ≤ ((m.store p t).nextOf q : ℕ)
    by_cases hqp : q = p
    · rw [hqp, nextOf_store_self]
      exact (hearly p (Or.inr List.mem_cons_self)).trans (by exact_mod_cast hlater)
    · rw [nextOf_store_ne hqp]
      refine hearly q (hq.imp (fun hmem => ?_) (List.mem_cons_of_mem p))
      exact (OrderedList.eq_or_mem_of_mem_insert hmem).resolve_left hqp

/-- Clearing the callback of a held timer releases it. -/
theorem Begun.clear (h : Begun m (p :: S) clock horizon) (ht : m.heap p = some t) :
    Begun (m.store p { t with cb := none }) S clock horizon := by
  have hp : p ∉ m.timers := h.shape.absent p List.mem_cons_self
  refine ⟨h.shape.forget.store hp,
    fun q u hu => h.begun_store (t := { t with cb := none }) (h.begun p t ht) hu, ?_⟩
  refine h.early.imp_right fun hearly q hq => ?_
  have hnext : (m.store p { t with cb := none }).nextOf q = m.nextOf q := by
    by_cases hqp : q = p
    · rw [hqp, nextOf_store_self]
      simp [nextOf, ht]
    · exact nextOf_store_ne hqp
  rw [hnext]
  exact hearly q (hq.imp_right (List.mem_cons_of_mem p))

/-- Taking out what lookup returned holds the timer that was looked up. -/
theorem Begun.hold (h : Begun m [] clock horizon) {it : ℕ} (hfind : m.findTimer p = some it) :
    Begun (m.eraseTimer it) [p] clock horizon := by
  obtain ⟨hmem, hnext, hout⟩ := h.shape.findTimer_spec hfind
  have hshape := h.shape.eraseTimer it
  refine ⟨⟨hshape.sorted, hshape.allocated, List.nodup_singleton p, fun q hq => ?_⟩, h.begun, ?_⟩
  · rw [List.mem_singleton.mp hq]
    exact hout
  · refine h.early.imp_right fun hearly q hq => ?_
    change horizon ≤ (m.nextOf q : ℕ)
    rcases hq with hq | hq
    · exact hearly q (Or.inl (List.mem_of_mem_erase hq))
    · rw [List.mem_singleton.mp hq, ← hnext]
      exact hearly it (Or.inl hmem)

/-- The notifying insertion: it either sets `m_tickled` or lands behind an earlier timer. -/
theorem Begun.addTimerLocked (h : Begun m [] clock horizon) (hp : p ∉ m.timers)
    (ht : t.ms ≤ t.next ∧ t.next ≤ clock + t.ms ∧ t.next < u64) :
    Begun ((m.store p t).addTimerLocked p).1 [] clock horizon := by
  have hshape : Shape ((m.store p t).addTimerLocked p).1 [] :=
    (h.shape.arm (t := t) hp (by simp)).of_eq rfl rfl
  refine ⟨hshape, fun q u hu => h.begun_store ht hu, ?_⟩
  rcases h.early with htickled | hearly
  · exact Or.inl (by simp [TimerManager.addTimerLocked, insertTimer, store, htickled])
  · cases hfirst : OrderedList.landsFirst (m.store p t).less p m.timers with
    | true =>
      refine Or.inl ?_
      change (m.tickled || (OrderedList.landsFirst (m.store p t).less p m.timers && !m.tickled)) = true
      rw [hfirst]
      cases m.tickled <;> rfl
    | false =>
      refine Or.inr fun q hq => ?_
      change horizon ≤ ((m.store p t).nextOf q : ℕ)
      have hold (r : ℕ) (hr : r ∈ m.timers) : horizon ≤ ((m.store p t).nextOf r : ℕ) := by
        have hrp : r ≠ p := fun heq => hp (heq ▸ hr)
        rw [nextOf_store_ne hrp]
        exact hearly r (Or.inl hr)
      rcases OrderedList.eq_or_mem_of_mem_insert (hq.resolve_right (by simp)) with rfl | hmem
      · cases htimers : m.timers with
        | nil => simp [htimers, OrderedList.landsFirst] at hfirst
        | cons y rest =>
          have hless : (m.store q t).less y q = true := by
            simpa [htimers, OrderedList.landsFirst] using hfirst
          have hle : (m.store q t).nextOf y ≤ (m.store q t).nextOf q := nextOf_le_of_less hless
          exact (hold y (htimers ▸ List.mem_cons_self)).trans (by exact_mod_cast hle)
      · exact hold q hmem

/-- Adding an interval to the present reading gives a deadline that has begun. -/
theorem begun_now {now ms : ℕ} (hsum : now + ms < u64) :
    ms ≤ addU64 now ms ∧ addU64 now ms ≤ now + ms ∧ addU64 now ms < u64 := by
  rw [addU64_of_lt hsum]
  omega

/-- Creating a timer. -/
theorem Begun.addTimer (h : Begun m [] clock horizon) {now ms : ℕ} {cb : TimerCallback W C}
    {recurring : Bool} (hp : m.heap p = none) (hnow : clock ≤ now) (hsum : now + ms < u64) :
    Begun (m.addTimer p now ms cb recurring).1 [] now horizon := by
  refine (h.advance hnow).addTimerLocked (fun hmem => ?_) (begun_now hsum)
  have halloc := h.shape.allocated p hmem
  rw [hp] at halloc
  cases halloc

/-- Re-arming a timer at the present reading never brings its deadline forward. -/
theorem Begun.nextOf_le (h : Begun m S clock horizon) (ht : m.heap p = some t)
    (hsum : clock + t.ms < u64) : m.nextOf p ≤ addU64 clock t.ms := by
  obtain ⟨_, hclock, _⟩ := h.begun p t ht
  rw [addU64_of_lt hsum]
  simpa [nextOf, ht] using hclock

/-- `refresh` re-arms silently. -/
theorem Begun.refresh (h : Begun m [] clock horizon) {now : ℕ} (hnow : clock ≤ now)
    (hsum : ∀ t, m.heap p = some t → now + t.ms < u64) :
    Begun (m.refresh p now).1 [] now horizon := by
  have hadv := h.advance hnow
  rcases m.refresh_cases p now with hsame | ⟨t, it, ht, _, hfind, hmoved⟩
  · rw [hsame]
    exact hadv
  · rw [hmoved]
    exact (hadv.hold hfind).arm (begun_now (hsum t ht)) (hadv.nextOf_le ht (hsum t ht))

/-- `reset` goes through the notifying insertion. -/
theorem Begun.reset (h : Begun m [] clock horizon) {now ms : ℕ} {fromNow : Bool} (hnow : clock ≤ now)
    (hsum : ∀ t, m.heap p = some t → (if fromNow then now else subU64 t.next t.ms) + ms < u64) :
    Begun (m.reset p now ms fromNow).1 [] now horizon := by
  have hadv := h.advance hnow
  rcases m.reset_cases p now ms fromNow with ⟨result, hsame⟩ | ⟨t, it, ht, _, hfind, hmoved⟩
  · rw [hsame]
    exact hadv
  · have hout := (h.shape.findTimer_spec hfind).2.2
    have herased : Begun (m.eraseTimer it) [] now horizon :=
      ⟨h.shape.eraseTimer it, hadv.begun, hadv.early.imp_right fun hearly q hq =>
        hearly q (hq.imp_left List.mem_of_mem_erase)⟩
    have hstart : (if fromNow then now else subU64 t.next t.ms) ≤ now := by
      obtain ⟨hms, hclock, hnext⟩ := h.begun p t ht
      split
      · exact le_rfl
      · rw [subU64_of_le hms hnext]
        omega
    obtain ⟨hlow, hhigh, hfit⟩ := begun_now (hsum t ht)
    rw [hmoved]
    exact herased.addTimerLocked hout ⟨hlow, hhigh.trans (Nat.add_le_add_right hstart ms), hfit⟩

/-- `cancel` only removes a timer. -/
theorem Begun.cancel (h : Begun m [] clock horizon) {r : TimerManager W C × Bool}
    (hr : m.cancel p = .ok r) : Begun r.1 [] clock horizon := by
  rcases cancel_cases hr with ⟨rfl, _⟩ | ⟨t, it, ht, _, hfind, rfl⟩
  · exact h
  · have hhold := h.hold hfind
    have hclear := hhold.clear (t := t) ht
    exact ⟨hclear.shape.of_eq rfl rfl, hclear.begun, hclear.early⟩

/-- One turn of the expiry loop. -/
theorem Begun.fire {cbs : List (Option (TimerCallback W C))} (h : Begun m (p :: S) clock horizon)
    (hsum : ∀ t, m.heap p = some t → t.recurring = true → clock + t.ms < u64) :
    Begun (fire clock (m, cbs) p).1 S clock horizon := by
  unfold TimerManager.fire
  dsimp only
  cases ht : m.heap p with
  | none =>
    exact ⟨h.shape.forget, h.begun, h.early.imp_right fun hearly q hq =>
      hearly q (hq.imp_right (List.mem_cons_of_mem p))⟩
  | some t =>
    dsimp only
    split
    · rename_i hrec
      exact h.arm (begun_now (hsum t ht hrec)) (h.nextOf_le ht (hsum t ht hrec))
    · exact h.clear ht

/-- The whole expiry loop. -/
theorem Begun.foldFire :
    ∀ (S : List ℕ) (acc : TimerManager W C × List (Option (TimerCallback W C))),
      Begun acc.1 S clock horizon →
      (∀ p ∈ S, ∀ t, acc.1.heap p = some t → t.recurring = true → clock + t.ms < u64) →
      Begun (S.foldl (TimerManager.fire clock) acc).1 [] clock horizon
  | [], _, h, _ => h
  | p :: S, acc, h, hsum => by
    rw [List.foldl_cons]
    refine Begun.foldFire S _ (h.fire (hsum p List.mem_cons_self)) fun q hq u hu => ?_
    have hqp : q ≠ p := fun heq => (List.nodup_cons.mp h.shape.nodup).1 (heq ▸ hq)
    rw [heap_fire_ne clock acc hqp] at hu
    exact hsum q (List.mem_cons_of_mem p hq) u hu

/-- `listExpireCb` re-arms recurring timers silently. -/
theorem Begun.listExpireCb (h : Begun m [] clock horizon) {now nowPtr : ℕ} (hnow : clock ≤ now)
    (hsum : ∀ p ∈ m.timers, ∀ t, m.heap p = some t → t.recurring = true → now + t.ms < u64) :
    Begun (m.listExpireCb now nowPtr).1 [] now horizon := by
  have hadv := h.advance hnow
  unfold TimerManager.listExpireCb
  split
  · exact hadv
  · dsimp only
    have hm' : Begun (m.detectClockRollover now).1 [] now horizon :=
      ⟨hadv.shape.of_eq rfl rfl, hadv.begun, hadv.early⟩
    split
    · exact hm'
    · have hsplit := (m.detectClockRollover now).1.expired_append_unexpired now nowPtr
        (m.detectClockRollover now).2
      have hmem (p : ℕ) (hp : p ∈ (m.detectClockRollover now).1.expired now nowPtr
          (m.detectClockRollover now).2) : p ∈ m.timers :=
        (show (m.detectClockRollover now).1.timers = m.timers from rfl) ▸ hsplit ▸
          List.mem_append_left _ hp
      refine Begun.foldFire _ _ ⟨hm'.shape.takeExpired now nowPtr _, hm'.begun, ?_⟩
        fun p hp t ht hrec => hsum p (hmem p hp) t ht hrec
      refine hm'.early.imp_right fun hearly q hq => hearly q (Or.inl ?_)
      rw [← hsplit]
      exact List.mem_append.mpr hq.symm

/-- The waiter's invariant: no early timer goes unnoticed, and `m_tickled` means a notification. -/
structure Watch.Alert (w : Watch W C) : Prop where
  begun : Begun w.manager [] w.clock w.horizon
  notified : w.manager.tickled = true → w.Notified

/-- The expiry loop leaves `m_tickled` alone. -/
theorem tickled_foldFire (now : ℕ) (S : List ℕ)
    (acc : TimerManager W C × List (Option (TimerCallback W C))) :
    (S.foldl (TimerManager.fire now) acc).1.tickled = acc.1.tickled := by
  induction S generalizing acc with
  | nil => rfl
  | cons q S ih =>
    rw [List.foldl_cons, ih]
    unfold fire
    split
    · rfl
    · dsimp only
      split <;> rfl

/-- `listExpireCb` leaves `m_tickled` alone. -/
theorem tickled_listExpireCb (now nowPtr : ℕ) :
    (m.listExpireCb now nowPtr).1.tickled = m.tickled := by
  unfold listExpireCb
  split
  · rfl
  · dsimp only
    split
    · rfl
    · rw [tickled_foldFire]
      rfl

/-- `refresh` leaves `m_tickled` alone. -/
theorem tickled_refresh (p now : ℕ) : (m.refresh p now).1.tickled = m.tickled := by
  rcases m.refresh_cases p now with hsame | ⟨t, it, _, _, _, hmoved⟩
  · rw [hsame]
  · rw [hmoved]
    rfl

/-- `cancel` leaves `m_tickled` alone. -/
theorem tickled_cancel {r : TimerManager W C × Bool} (hr : m.cancel p = .ok r) :
    r.1.tickled = m.tickled := by
  rcases cancel_cases hr with ⟨rfl, _⟩ | ⟨t, it, _, _, _, rfl⟩ <;> rfl

/-- The notifying insertion sets `m_tickled` only when it reports a notification. -/
theorem tickled_addTimerLocked (h : (m.addTimerLocked p).1.tickled = true) :
    m.tickled = true ∨ (m.addTimerLocked p).2 = true := by
  simpa [addTimerLocked] using h

/-- `reset` sets `m_tickled` only when it reports a notification. -/
theorem tickled_reset {now ms : ℕ} {fromNow : Bool} (h : (m.reset p now ms fromNow).1.tickled = true) :
    m.tickled = true ∨ (m.reset p now ms fromNow).2.2 = true := by
  rcases m.reset_cases p now ms fromNow with ⟨result, hsame⟩ | ⟨t, it, _, _, _, hmoved⟩
  · rw [hsame] at h
    exact Or.inl h
  · rw [hmoved] at h ⊢
    exact tickled_addTimerLocked h

/-- An operation sets `m_tickled` only together with a notification. -/
theorem tickled_apply {op : Op W C} {r : TimerManager W C × Bool} (hr : m.apply op = .ok r)
    (htickled : r.1.tickled = true) : m.tickled = true ∨ r.2 = true := by
  cases op with
  | addTimer p now ms cb recurring =>
    cases hr
    exact tickled_addTimerLocked htickled
  | addConditionTimer p now ms cb weakCond recurring =>
    cases hr
    exact tickled_addTimerLocked htickled
  | cancel p =>
    obtain ⟨canceled, hcancel, rfl⟩ := Except.exists_of_map_eq_ok hr
    exact Or.inl (tickled_cancel hcancel ▸ htickled)
  | refresh p now =>
    cases hr
    exact Or.inl (tickled_refresh (m := m) p now ▸ htickled)
  | reset p now ms fromNow =>
    cases hr
    exact tickled_reset htickled
  | listExpireCb now nowPtr =>
    cases hr
    exact Or.inl (tickled_listExpireCb (m := m) now nowPtr ▸ htickled)
  | getNextTimer now =>
    cases hr
    cases htickled

/-- Every operation but `getNextTimer` keeps the deadline facts for the waiter's horizon. -/
theorem Begun.apply (h : Begun m [] clock horizon) {op : Op W C} {r : TimerManager W C × Bool}
    (haddr : Addressed m op) (hover : NoOverflow m op)
    (hclock : ∀ now, op.clock = some now → clock ≤ now) (hr : m.apply op = .ok r)
    (hop : ∀ now, op ≠ .getNextTimer now) : Begun r.1 [] (op.clock.getD clock) horizon := by
  cases op with
  | addTimer p now ms cb recurring =>
    cases hr
    exact h.addTimer haddr (hclock now rfl) hover
  | addConditionTimer p now ms cb weakCond recurring =>
    cases hr
    exact h.addTimer haddr (hclock now rfl) hover
  | cancel p =>
    obtain ⟨canceled, hcancel, rfl⟩ := Except.exists_of_map_eq_ok hr
    exact h.cancel (r := canceled) hcancel
  | refresh p now =>
    cases hr
    exact h.refresh (hclock now rfl) hover
  | reset p now ms fromNow =>
    cases hr
    exact h.reset (hclock now rfl) hover
  | listExpireCb now nowPtr =>
    cases hr
    exact h.listExpireCb (hclock now rfl) hover
  | getNextTimer now => exact absurd rfl (hop now)

/-- The first timer of a sorted set has the least deadline. -/
theorem Shape.frontDeadline_le (h : Shape m S) {q : ℕ} (hq : q ∈ m.timers) :
    m.frontDeadline ≤ (m.nextOf q : ℕ) := by
  unfold frontDeadline
  cases htimers : m.timers with
  | nil => simp [htimers] at hq
  | cons front rest =>
    have hsorted := h.sorted
    rw [htimers] at hq hsorted
    have hle : m.nextOf front ≤ m.nextOf q := by
      rcases List.mem_cons.mp hq with rfl | hrest
      · exact le_rfl
      · exact nextOf_le_of_less (List.rel_of_pairwise_cons hsorted hrest)
    dsimp only
    exact_mod_cast hle

/-- `getNextTimer` moves the horizon to the first deadline, so nothing is before it. -/
theorem Begun.getNextTimer (h : Begun m [] clock horizon) {now : ℕ} (hnow : clock ≤ now) :
    Begun (m.getNextTimer now).1 [] now m.frontDeadline :=
  ⟨h.shape.of_eq rfl rfl, (h.advance hnow).begun,
    Or.inr fun _ hq => h.shape.frontDeadline_le (hq.resolve_right (by simp))⟩

/-- Every permitted step keeps the waiter's invariant. -/
theorem Watch.Alert.step {w w' : Watch W C} (h : w.Alert) {i : WatchStep W C} (hi : w.Permitted i)
    (hok : w.step i = .ok w') : w'.Alert := by
  cases i with
  | onTimerInsertedAtFront epoch =>
    cases hok
    refine ⟨h.begun, fun htickled => ?_⟩
    rcases h.notified htickled with hcalled | hpending
    · exact Or.inl (List.mem_append_left _ hcalled)
    · by_cases heq : w.epoch = epoch
      · exact Or.inl (List.mem_append_right _ (by simp [heq]))
      · exact Or.inr ((List.mem_erase_of_ne heq).mpr hpending)
  | op op =>
    obtain ⟨haddr, hover, hclock⟩ := hi
    by_cases hnext : ∃ now, op = .getNextTimer now
    · obtain ⟨now, rfl⟩ := hnext
      cases hok
      exact ⟨h.begun.getNextTimer (hclock now rfl), fun htickled => by cases htickled⟩
    · have hop : ∀ now, op ≠ .getNextTimer now := fun now heq => hnext ⟨now, heq⟩
      have hstep : w.step (.op op) = (w.manager.apply op).map fun r =>
          { w with manager := r.1, clock := op.clock.getD w.clock,
                   pending := if r.2 then w.pending ++ [w.epoch] else w.pending } := by
        cases op <;> first | rfl | exact absurd rfl (hop _)
      rw [hstep] at hok
      obtain ⟨r, happly, rfl⟩ := Except.exists_of_map_eq_ok hok
      refine ⟨h.begun.apply haddr hover hclock happly hop, fun htickled => ?_⟩
      rcases tickled_apply happly htickled with hold | hnew
      · refine (h.notified hold).imp_right fun hpending => ?_
        dsimp only
        split
        · exact List.mem_append_left _ hpending
        · exact hpending
      · exact Or.inr (by simp [hnew])

/-- In every reached state, a timer due before the waiter's horizon implies that `m_tickled` is set
and that `onTimerInsertedAtFront` has been called, or is about to be, since the waiter's
`getNextTimer`. -/
theorem early_timer_notified {w : Watch W C} (h : Runs.Reaches Watch.step Watch.Permitted Watch.start w)
    {p : ℕ} (hp : p ∈ w.manager.timers) (hearly : (w.manager.nextOf p : WithTop ℕ) < w.horizon) :
    w.manager.tickled = true ∧ w.Notified := by
  have halert : w.Alert := by
    refine h.invariant Watch.Alert ⟨⟨Shape.empty, ?_, ?_⟩, ?_⟩ fun s i s' hs hi hok => hs.step hi hok
    · intro p t ht
      cases ht
    · exact Or.inr fun q hq => by simp [Watch.start, TimerManager.empty] at hq
    · intro htickled
      cases htickled
  have htickled : w.manager.tickled = true := by
    refine halert.begun.early.resolve_right fun hall => ?_
    exact absurd hearly (not_lt.mpr (hall p (Or.inl hp)))
  exact ⟨htickled, halert.notified htickled⟩

/-- A waiter sleeps until 15 when a timer is added that is due at 10. -/
theorem early_timer_notified_earlier :
    ∃ w : Watch Unit Unit, Runs.Reaches Watch.step Watch.Permitted Watch.start w ∧
      w.horizon = (15 : ℕ) ∧ 8 ∈ w.manager.timers ∧ w.manager.nextOf 8 = 10 ∧
      w.manager.tickled = true ∧ w.Notified := by
  have hadd : Watch.Permitted (Watch.start : Watch Unit Unit) (.op (.addTimer 7 5 10 () false)) :=
    ⟨rfl, by simp [NoOverflow, u64], fun now _ => Nat.zero_le now⟩
  have hadded : Runs.Reaches Watch.step Watch.Permitted (Watch.start : Watch Unit Unit) _ := .next .start _ hadd rfl
  have hwaiting := hadded.next (.op (.getNextTimer 6)) ⟨trivial, trivial, fun now hnow => by cases hnow; decide⟩ rfl
  have hearlier := hwaiting.next (.op (.addTimer 8 7 3 () false))
    ⟨rfl, by simp [NoOverflow, u64], fun now hnow => by cases hnow; decide⟩ rfl
  have hmem : 8 ∈ [8, 7] := by decide
  exact ⟨_, hearlier, rfl, hmem, rfl, early_timer_notified (p := 8) hearlier hmem (by decide)⟩

end Bobliew.TimerManager
