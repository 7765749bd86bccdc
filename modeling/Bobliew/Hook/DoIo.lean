import Bobliew.Timer.Expiry

/-!
# Timeouts of a hooked I/O call

`do_io` behind its preamble, as a state machine that runs beside the timer manager and the run queue of
callbacks. A call that would block arms a condition timer, registers an event and yields. It goes on when
the event is triggered, by readiness or by the timer's callback through `cancelEvent`, cancels its timer
and looks at the `timer_info` it shares with every timer it has armed.

Between any two steps of the call time can pass, expired callbacks can move to the run queue, queued ones
can be executed in any order, and others can use the timer manager. Results of system calls are
parameters of the steps.
-/

namespace Bobliew.Hook

/-- The value of `EINTR`. -/
def eintr : ℕ := 4

/-- The value of `EAGAIN`. -/
def eagain : ℕ := 11

/-- The value of `ETIMEDOUT`. -/
def etimedout : ℕ := 110

/-- Whose object the weak pointer of a condition timer refers to: the `timer_info` of the call, or any
other condition. -/
inductive Owner where
  | call
  | other
  deriving DecidableEq

/-- The callback of the timers the call arms. -/
def ownCallback : TimerCallback Owner Unit := .onTimer .call ()

/-- A returned value, or `-1` with an `errno`. -/
inductive IoResult where
  | value (n : ℕ)
  | failed (errno : ℕ)
  deriving DecidableEq

/-- Where the call is: about to make the system call, between arming its timer and `addEvent`, yielded
with its event registered, triggered and about to cancel its timer, about to look at `cancelled`, or
returned. -/
inductive Phase where
  | calling
  | armed (timer : Option ℕ)
  | waiting (timer : Option ℕ)
  | woken (timer : Option ℕ)
  | checking
  | finished (result : IoResult)
  deriving DecidableEq

/-- The timer the call holds. -/
def Phase.timer : Phase → Option ℕ
  | .armed timer => timer
  | .waiting timer => timer
  | .woken timer => timer
  | _ => none

/-- The call has returned, so its `timer_info` is gone. -/
def Phase.isFinished : Phase → Bool
  | .finished _ => true
  | _ => false

/-- The call beside the timer manager, the clock and the run queue; `cancelled` is the field of its
`timer_info` and `began` the time its most recent wait began. -/
structure IoCall where
  now : ℕ
  tm : TimerManager Owner Unit
  queue : List (TimerCallback Owner Unit)
  phase : Phase
  cancelled : ℕ
  began : Option ℕ

/-- A step of the call or of what runs beside it. -/
inductive IoStep where
  | syscall (result : IoResult) (p : ℕ)
  | addEvent (errno : Option ℕ)
  | cancelTimer
  | check
  | ready
  | tick (ms : ℕ)
  | listExpireCb (nowPtr : ℕ)
  | execute (i : ℕ) (ctl : Bool)
  | others (op : TimerManager.Op Owner Unit)

namespace IoCall

/-- A call that has just created its `timer_info`. -/
def start (now : ℕ) : IoCall := ⟨now, TimerManager.empty, [], .calling, 0, none⟩

/-- Arm a timer at the address `p`, unless the timeout is the largest value. -/
def arm (timeout : ℕ) (s : IoCall) (p : ℕ) : IoCall :=
  if timeout = u64 - 1 then { s with phase := .armed none, began := some s.now }
  else
    { s with
      tm := (s.tm.addConditionTimer p s.now timeout () .call false).1
      phase := .armed (some p)
      began := some s.now }

/-- `if(timer) timer->cancel()`, and go on. -/
def dropTimer (s : IoCall) (timer : Option ℕ) (phase : Phase) : Except TimerManager.Fault IoCall :=
  match timer with
  | none => .ok { s with phase := phase }
  | some p => (s.tm.cancel p).map fun r => { s with tm := r.1, phase := phase }

/-- The event is triggered and the fiber scheduled. -/
def trigger (s : IoCall) : IoCall :=
  match s.phase with
  | .waiting timer => { s with phase := .woken timer }
  | _ => s

/-- What executing a callback does to the call: `OnTimer` finds its `timer_info` alive, the callback
finds it not cancelled, marks it and cancels the event; `ctl` is the success of `epoll_ctl`. -/
def fireCallback (s : IoCall) (cb : TimerCallback Owner Unit) (ctl : Bool) : IoCall :=
  match cb with
  | .onTimer .call _ =>
    if s.phase.isFinished then s
    else if s.cancelled ≠ 0 then s
    else if ctl then { s with cancelled := etimedout }.trigger
    else { s with cancelled := etimedout }
  | _ => s

/-- The steps. A step of the call that does not fit its phase changes nothing. -/
def step (timeout : ℕ) (s : IoCall) : IoStep → Except TimerManager.Fault IoCall
  | .syscall result p =>
    match s.phase, result with
    | .calling, .value n => .ok { s with phase := .finished (.value n) }
    | .calling, .failed errno =>
      if errno = eintr then .ok s
      else if errno = eagain then .ok (s.arm timeout p)
      else .ok { s with phase := .finished (.failed errno) }
    | _, _ => .ok s
  | .addEvent errno =>
    match s.phase, errno with
    | .armed timer, none => .ok { s with phase := .waiting timer }
    | .armed timer, some errno => s.dropTimer timer (.finished (.failed errno))
    | _, _ => .ok s
  | .cancelTimer =>
    match s.phase with
    | .woken timer => s.dropTimer timer .checking
    | _ => .ok s
  | .check =>
    match s.phase with
    | .checking =>
      if s.cancelled ≠ 0 then .ok { s with phase := .finished (.failed s.cancelled) }
      else .ok { s with phase := .calling }
    | _ => .ok s
  | .ready => .ok s.trigger
  | .tick ms => .ok { s with now := s.now + ms }
  | .listExpireCb nowPtr =>
    .ok { s with
      tm := (s.tm.listExpireCb s.now nowPtr).1
      queue := s.queue ++ (s.tm.listExpireCb s.now nowPtr).2.reduceOption }
  | .execute i ctl =>
    match s.queue[i]? with
    | none => .ok s
    | some cb => .ok ({ s with queue := s.queue.eraseIdx i }.fireCallback cb ctl)
  | .others op => (s.tm.apply op).map fun r => { s with tm := r.1 }

/-- A new timer gets an unused address, and others do not hold the call's timer or its callback. Their
expiries are the step `listExpireCb`. -/
def Permitted (s : IoCall) : IoStep → Prop
  | .syscall _ p => s.tm.heap p = none
  | .others op =>
    (∀ p, s.phase.timer = some p → op.timer ≠ some p) ∧ op.callback ≠ some ownCallback ∧
      ∀ now nowPtr, op ≠ .listExpireCb now nowPtr
  | _ => True

/-- The wait that began last has lasted for the timeout. -/
def Due (timeout : ℕ) (s : IoCall) : Prop := ∃ began, s.began = some began ∧ began + timeout ≤ s.now

/-- A call that has failed with `ETIMEDOUT` had waited for the timeout. -/
def TimeoutDue (timeout : ℕ) (s : IoCall) : Prop := s.phase = .finished (.failed etimedout) → s.Due timeout

/-- The steps that stay clear of the shared `timer_info`: the call does not go round to `retry` while a
callback of its timers is queued, deadlines fit in 64 bits, and no system call fails with `ETIMEDOUT` on
its own. -/
def Separate (timeout : ℕ) (s : IoCall) : IoStep → Prop
  | .syscall (.failed errno) _ =>
    errno ≠ etimedout ∧ (errno = eagain → timeout ≠ u64 - 1 → s.now + timeout < u64)
  | .addEvent (some errno) => errno ≠ etimedout
  | .check => s.phase = .checking → s.cancelled = 0 → ownCallback ∉ s.queue
  | _ => True

variable {timeout : ℕ} {s s' : IoCall} {i : IoStep}

/-- The invariant: a timer with the call's callback is the one the call holds, set for the end of the
most recent wait, and a queued callback or a mark is there only when that wait is over. -/
structure Timely (timeout : ℕ) (s : IoCall) : Prop where
  clock : s.tm.previousTime ≤ s.now
  armed : ∀ p t, s.tm.heap p = some t → t.cb = some ownCallback → t.recurring = false ∧
    s.phase.timer = some p ∧ ∃ began, s.began = some began ∧ t.next = began + timeout
  queued : ownCallback ∈ s.queue → s.phase.isFinished = false → s.Due timeout ∧ s.phase ≠ .calling
  marked : s.cancelled ≠ 0 → s.Due timeout ∧ s.phase ≠ .calling
  done : s.TimeoutDue timeout

/-- Nothing has happened yet. -/
theorem Timely.start (timeout now : ℕ) : Timely timeout (IoCall.start now) where
  clock := Nat.zero_le now
  armed _ _ ht := by cases ht
  queued hmem := by cases hmem
  marked hne := absurd rfl hne
  done hphase := by cases hphase

/-- While the system call is made no timer of the call is armed. -/
theorem Timely.unarmed (h : Timely timeout s) (hphase : s.phase.timer = none) {p : ℕ}
    {t : Timer Owner Unit} (ht : s.tm.heap p = some t) : t.cb ≠ some ownCallback := by
  intro hcb
  obtain ⟨_, htimer, _⟩ := h.armed p t ht hcb
  cases hphase.symm.trans htimer

/-- Going on to another phase with the timers, the queue and the mark as they are. -/
theorem Timely.setPhase (h : Timely timeout s) (phase : Phase) (htimer : phase.timer = s.phase.timer)
    (hfinished : phase.isFinished = false → s.phase.isFinished = false)
    (hcalling : phase = .calling → s.cancelled = 0 ∧ ownCallback ∉ s.queue)
    (hdone : phase = .finished (.failed etimedout) → s.Due timeout) :
    Timely timeout { s with phase := phase } where
  clock := h.clock
  armed p t ht hcb := by
    obtain ⟨hrecurring, hown, hnext⟩ := h.armed p t ht hcb
    exact ⟨hrecurring, htimer.trans hown, hnext⟩
  queued hmem hlive := by
    refine ⟨(h.queued hmem (hfinished hlive)).1, fun heq => ?_⟩
    exact (hcalling heq).2 hmem
  marked hne := by
    refine ⟨(h.marked hne).1, fun heq => ?_⟩
    exact hne (hcalling heq).1
  done := hdone

/-- Arming the timer of a new wait. -/
theorem Timely.arm (h : Timely timeout s) (hphase : s.phase = .calling) (p : ℕ)
    (hfits : timeout ≠ u64 - 1 → s.now + timeout < u64) : Timely timeout (s.arm timeout p) := by
  have hqueue : ownCallback ∉ s.queue := by
    intro hmem
    exact (h.queued hmem (by rw [hphase]; rfl)).2 hphase
  have hmark : s.cancelled = 0 := by
    by_contra hne
    exact (h.marked hne).2 hphase
  have hunarmed := fun {p t} => h.unarmed (p := p) (t := t) (by rw [hphase]; rfl)
  unfold IoCall.arm
  split
  · exact
      { clock := h.clock
        armed := fun p t ht hcb => absurd hcb (hunarmed ht)
        queued := fun hmem => absurd hmem hqueue
        marked := fun hne => absurd hmark hne
        done := fun heq => by cases heq }
  · rename_i hfinite
    refine
      { clock := h.clock
        armed := fun q t ht hcb => ?_
        queued := fun hmem => absurd hmem hqueue
        marked := fun hne => absurd hmark hne
        done := fun heq => by cases heq }
    rcases TimerManager.heap_store_cases ht with ⟨rfl, rfl⟩ | ⟨_, hold⟩
    · exact ⟨rfl, rfl, s.now, rfl, Nat.mod_eq_of_lt (hfits hfinite)⟩
    · exact absurd hcb (hunarmed hold)

/-- Cancelling the timer the call holds. -/
theorem Timely.dropTimer (h : Timely timeout s) {timer : Option ℕ} {phase : Phase}
    (htimer : s.phase.timer = timer) (hlive : s.phase.isFinished = false)
    (hcalling : phase ≠ .calling) (hdone : phase ≠ .finished (.failed etimedout))
    (hok : s.dropTimer timer phase = .ok s') : Timely timeout s' := by
  cases timer with
  | none =>
    cases hok
    refine
      { clock := h.clock
        armed := fun p t ht hcb => absurd hcb (h.unarmed htimer ht)
        queued := fun hmem _ => ⟨(h.queued hmem hlive).1, hcalling⟩
        marked := fun hne => ⟨(h.marked hne).1, hcalling⟩
        done := fun heq => absurd heq hdone }
  | some p =>
    obtain ⟨canceled, hcancel, rfl⟩ := Except.exists_of_map_eq_ok hok
    obtain ⟨hclock, hheap⟩ := TimerManager.heap_cancel hcancel
    refine
      { clock := Nat.le_trans (Nat.le_of_eq hclock) h.clock
        armed := fun q t ht hcb => ?_
        queued := fun hmem _ => ⟨(h.queued hmem hlive).1, hcalling⟩
        marked := fun hne => ⟨(h.marked hne).1, hcalling⟩
        done := fun heq => absurd heq hdone }
    obtain ⟨hne, hold⟩ := hheap q t ownCallback ht hcb
    obtain ⟨_, hown, _⟩ := h.armed q t hold hcb
    exact absurd (Option.some.inj (hown.symm.trans htimer)) hne

/-- Triggering the event. -/
theorem Timely.trigger (h : Timely timeout s) : Timely timeout s.trigger := by
  unfold IoCall.trigger
  split
  · rename_i timer hphase
    refine h.setPhase _ (by rw [hphase]; rfl) (fun _ => by rw [hphase]; rfl) (fun heq => ?_) fun heq => ?_
    · cases heq
    · cases heq
  · exact h

/-- Time passes. -/
theorem Timely.tick (h : Timely timeout s) (ms : ℕ) : Timely timeout { s with now := s.now + ms } := by
  have hdue : s.Due timeout → { s with now := s.now + ms }.Due timeout := by
    rintro ⟨began, hbegan, hle⟩
    exact ⟨began, hbegan, Nat.le_trans hle (Nat.le_add_right _ _)⟩
  exact
    { clock := Nat.le_trans h.clock (Nat.le_add_right _ _)
      armed := h.armed
      queued := fun hmem hlive => ⟨hdue (h.queued hmem hlive).1, (h.queued hmem hlive).2⟩
      marked := fun hne => ⟨hdue (h.marked hne).1, (h.marked hne).2⟩
      done := fun heq => hdue (h.done heq) }

/-- Expired callbacks move to the run queue. -/
theorem Timely.listExpireCb (h : Timely timeout s) (nowPtr : ℕ)
    (hok : s.step timeout (.listExpireCb nowPtr) = .ok s') : Timely timeout s' := by
  cases hok
  have hhanded := TimerManager.handed_listExpireCb nowPtr h.clock
  refine
    { clock := TimerManager.previousTime_listExpireCb nowPtr h.clock
      armed := fun p t ht hcb => ?_
      queued := fun hmem hlive => ?_
      marked := h.marked
      done := h.done }
  · obtain ⟨t₀, ht₀, hcb₀, hsame, heq⟩ := hhanded.heap p t ownCallback ht hcb
    obtain ⟨hrecurring, hrest⟩ := h.armed p t₀ ht₀ hcb₀
    rw [heq (hsame.symm.trans hrecurring)]
    exact ⟨hrecurring, hrest⟩
  · rcases List.mem_append.mp hmem with hold | hnew
    · exact h.queued hold hlive
    · obtain ⟨p, t, ht, hcb, hle⟩ := hhanded.out ownCallback (List.reduceOption_mem_iff.mp hnew)
      obtain ⟨_, hown, began, hbegan, hnext⟩ := h.armed p t ht hcb
      refine ⟨⟨began, hbegan, hnext ▸ hle⟩, fun heq => ?_⟩
      rw [heq] at hown
      cases hown

/-- A callback is executed that may be executed now. -/
theorem Timely.fireCallback (h : Timely timeout s) {cb : TimerCallback Owner Unit} (ctl : Bool)
    (hcb : cb = ownCallback → s.phase.isFinished = false → s.Due timeout ∧ s.phase ≠ .calling) :
    Timely timeout (s.fireCallback cb ctl) := by
  unfold IoCall.fireCallback
  split
  · split
    · exact h
    · rename_i hlive
      split
      · exact h
      · have hmarked : Timely timeout { s with cancelled := etimedout } :=
          { clock := h.clock
            armed := h.armed
            queued := h.queued
            marked := fun _ => hcb rfl (Bool.eq_false_of_not_eq_true hlive)
            done := h.done }
        split
        · exact hmarked.trigger
        · exact hmarked
  · exact h

/-- A queued callback is taken out and executed. -/
theorem Timely.execute (h : Timely timeout s) (j : ℕ) (ctl : Bool)
    (hok : s.step timeout (.execute j ctl) = .ok s') : Timely timeout s' := by
  simp only [IoCall.step] at hok
  split at hok
  · cases hok
    exact h
  · rename_i cb hcb
    cases hok
    have hmem : cb ∈ s.queue := List.mem_of_getElem? hcb
    have hrest : Timely timeout { s with queue := s.queue.eraseIdx j } :=
      { clock := h.clock
        armed := h.armed
        queued := fun hleft => h.queued (List.mem_of_mem_eraseIdx hleft)
        marked := h.marked
        done := h.done }
    exact hrest.fireCallback ctl fun heq => h.queued (heq ▸ hmem)

/-- Others use the timer manager. -/
theorem Timely.others (h : Timely timeout s) (op : TimerManager.Op Owner Unit)
    (hpermitted : s.Permitted (.others op)) (hok : s.step timeout (.others op) = .ok s') : Timely timeout s' := by
  obtain ⟨hforeign, hcallback, hop⟩ := hpermitted
  obtain ⟨r, happly, rfl⟩ := Except.exists_of_map_eq_ok hok
  have hframed := TimerManager.framed_apply happly hop
  refine
    { clock := Nat.le_trans (Nat.le_of_eq hframed.clock) h.clock
      armed := fun p t ht hcb => ?_
      queued := h.queued
      marked := h.marked
      done := h.done }
  rcases hframed.heap p t ownCallback ht hcb with hnew | ⟨t₀, ht₀, hcb₀, heq⟩
  · exact absurd hnew hcallback
  · have hown := h.armed p t₀ ht₀ hcb₀
    rw [heq (hforeign p hown.2.1)]
    exact hown

/-- The system call. -/
theorem Timely.syscall (h : Timely timeout s) {result : IoResult} {p : ℕ}
    (hseparate : s.Separate timeout (.syscall result p)) (hok : s.step timeout (.syscall result p) = .ok s') :
    Timely timeout s' := by
  simp only [IoCall.step] at hok
  split at hok
  · rename_i hphase
    cases hok
    refine h.setPhase _ (by rw [hphase]; rfl) (fun heq => ?_) (fun heq => ?_) fun heq => ?_
    · cases heq
    · cases heq
    · cases heq
  · rename_i errno hphase
    obtain ⟨hown, hfits⟩ := hseparate
    split at hok
    · cases hok
      exact h
    · split at hok
      · rename_i hagain
        cases hok
        exact h.arm hphase p (hfits hagain)
      · cases hok
        refine h.setPhase _ (by rw [hphase]; rfl) (fun heq => ?_) (fun heq => ?_) fun heq => ?_
        · cases heq
        · cases heq
        · cases heq
          exact absurd rfl hown
  · cases hok
    exact h

/-- The call looks at the mark of its timer. -/
theorem Timely.check (h : Timely timeout s) (hseparate : s.Separate timeout .check)
    (hok : s.step timeout .check = .ok s') : Timely timeout s' := by
  simp only [IoCall.step] at hok
  split at hok
  · rename_i hphase
    split at hok
    · rename_i hmark
      cases hok
      refine h.setPhase _ (by rw [hphase]; rfl) (fun heq => ?_) (fun heq => ?_) fun _ => ?_
      · cases heq
      · cases heq
      · exact (h.marked hmark).1
    · rename_i hmark
      cases hok
      have hzero : s.cancelled = 0 := not_not.mp hmark
      refine h.setPhase _ (by rw [hphase]; rfl) (fun _ => by rw [hphase]; rfl) (fun _ => ?_) fun heq => ?_
      · exact ⟨hzero, hseparate hphase hzero⟩
      · cases heq
  · cases hok
    exact h

/-- Every step that stays clear of the shared `timer_info` keeps the invariant. -/
theorem Timely.step (h : Timely timeout s) (hpermitted : s.Permitted i) (hseparate : s.Separate timeout i)
    (hok : s.step timeout i = .ok s') : Timely timeout s' := by
  cases i with
  | syscall result p => exact h.syscall hseparate hok
  | addEvent errno =>
    simp only [IoCall.step] at hok
    split at hok
    · rename_i timer hphase
      cases hok
      refine h.setPhase _ (by rw [hphase]; rfl) (fun _ => by rw [hphase]; rfl) (fun heq => ?_) fun heq => ?_
      · cases heq
      · cases heq
    · rename_i timer errno hphase
      refine h.dropTimer (by rw [hphase]; rfl) (by rw [hphase]; rfl) (fun heq => ?_) (fun heq => ?_) hok
      · cases heq
      · cases heq
        exact hseparate rfl
    · cases hok
      exact h
  | cancelTimer =>
    simp only [IoCall.step] at hok
    split at hok
    · rename_i timer hphase
      refine h.dropTimer (by rw [hphase]; rfl) (by rw [hphase]; rfl) (fun heq => ?_) (fun heq => ?_) hok
      · cases heq
      · cases heq
    · cases hok
      exact h
  | check => exact h.check hseparate hok
  | ready =>
    cases hok
    exact h.trigger
  | tick ms =>
    cases hok
    exact h.tick ms
  | listExpireCb nowPtr => exact h.listExpireCb nowPtr hok
  | execute j ctl => exact h.execute j ctl hok
  | others op => exact h.others op hpermitted hok

/-- In every run whose steps stay clear of the shared `timer_info`, a call that fails with `ETIMEDOUT`
has waited for its timeout since its most recent wait began. -/
theorem timeout_due (timeout now : ℕ)
    (h : Runs.Reaches (step timeout) (fun s i => s.Permitted i ∧ s.Separate timeout i) (start now) s) :
    s.TimeoutDue timeout := by
  have htimely : Timely timeout s := by
    refine h.invariant (Timely timeout) (Timely.start timeout now) fun s i s' hs hi hok => ?_
    exact hs.step hi.1 hi.2 hok
  exact htimely.done

/-- A call that is woken for nothing, waits again for a second, is marked by the callback of the second timer and
fails. -/
theorem timeout_due_secondWait :
    ∃ s, Runs.Reaches (step 1000) (fun s i => s.Permitted i ∧ s.Separate 1000 i) (start 5) s ∧
      s.phase = .finished (.failed etimedout) ∧ s.began = some 405 ∧ s.Due 1000 := by
  have harmed : Runs.Reaches (step 1000) (fun s i => s.Permitted i ∧ s.Separate 1000 i) (start 5) _ :=
    .next .start (.syscall (.failed eagain) 1) ⟨rfl, by decide, by decide⟩ rfl
  have hwaiting := harmed.next (.addEvent none) ⟨trivial, trivial⟩ rfl
  have hlater := hwaiting.next (.tick 400) ⟨trivial, trivial⟩ rfl
  have hwoken := hlater.next .ready ⟨trivial, trivial⟩ rfl
  have hcancelled := hwoken.next .cancelTimer ⟨trivial, trivial⟩ rfl
  have hagain := hcancelled.next .check ⟨trivial, fun _ _ => List.not_mem_nil⟩ rfl
  have hrearmed := hagain.next (.syscall (.failed eagain) 2) ⟨rfl, by decide, by decide⟩ rfl
  have hsecond := hrearmed.next (.addEvent none) ⟨trivial, trivial⟩ rfl
  have hover := hsecond.next (.tick 1000) ⟨trivial, trivial⟩ rfl
  have hexpired := hover.next (.listExpireCb 0) ⟨trivial, trivial⟩ rfl
  have hmarked := hexpired.next (.execute 0 true) ⟨trivial, trivial⟩ rfl
  have hchecking := hmarked.next .cancelTimer ⟨trivial, trivial⟩ rfl
  have hfailed := hchecking.next .check ⟨trivial, fun _ hzero => by cases hzero⟩ rfl
  exact ⟨_, hfailed, rfl, rfl, timeout_due 1000 5 hfailed rfl⟩

/-- The callback of the first wait is queued when data arrives, stays queued while the call tries again,
and marks the second wait, which fails when it has just begun. -/
theorem second_wait_fails_at_once :
    ∃ s, Runs.Reaches (step 1000) Permitted (start 5) s ∧
      s.phase = .finished (.failed etimedout) ∧ s.began = some 1006 ∧ s.now = 1006 ∧
      ¬ s.TimeoutDue 1000 := by
  have harmed : Runs.Reaches (step 1000) Permitted (start 5) _ :=
    .next .start (.syscall (.failed eagain) 1) rfl rfl
  have hwaiting := harmed.next (.addEvent none) trivial rfl
  have hlater := hwaiting.next (.tick 1000) trivial rfl
  have hexpired := hlater.next (.listExpireCb 0) trivial rfl
  have hwoken := hexpired.next .ready trivial rfl
  have hchecking := hwoken.next .cancelTimer trivial rfl
  have hretried := hchecking.next .check trivial rfl
  have hafter := hretried.next (.tick 1) trivial rfl
  have harmedAgain := hafter.next (.syscall (.failed eagain) 2) rfl rfl
  have hwaitingAgain := harmedAgain.next (.addEvent none) trivial rfl
  have hmarked := hwaitingAgain.next (.execute 0 true) trivial rfl
  have hcheckingAgain := hmarked.next .cancelTimer trivial rfl
  have hfailed := hcheckingAgain.next .check trivial rfl
  refine ⟨_, hfailed, rfl, rfl, rfl, fun hdue => ?_⟩
  obtain ⟨began, hbegan, hle⟩ := hdue rfl
  cases hbegan
  exact absurd hle (by decide)

end IoCall

end Bobliew.Hook
