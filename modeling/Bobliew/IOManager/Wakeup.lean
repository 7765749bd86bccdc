import Bobliew.Scheduler.Refinement
import Bobliew.Scheduler.Switch

/-!
# Waking the workers of an I/O manager

`Scheduler::schedule`, the run loop and `IOManager::idle` on any number of threads, at the grain at which
they can interleave: the locked part of `schedule` and its `tickle`, the scan of `m_fibers` and what
follows it, the count of idle threads, `epoll_wait` and the reading of the tickle pipe. The pipe is
registered edge-triggered, so its entry on the ready list is consumed by one `epoll_wait`.

Who calls `schedule` does not matter, and `epoll_wait` may return at any time because of another
descriptor or the timeout. Stopping is left out: every worker stays in its loop.
-/

namespace Bobliew

variable {W C : Type*}

/-- Where a worker is in `run` or, from `polling` on, in `idle`. A worker executes a task until it has
published the new state of its fiber. -/
inductive WorkerPhase (C : Type*) where
  | scanning
  | scanned (ft : Option (FiberAndThread C)) (tickleMe : Bool)
  | taken (ft : FiberAndThread C)
  | executing (f : ℕ) (callback : Bool)
  | leaving (f : ℕ) (callback : Bool)
  | requeued (needTickle : Bool)
  | idling
  | polling
  | blocked
  | woken (tickled : Bool)

namespace WorkerPhase

/-- What the worker contributes to `m_idleThreadCount`. -/
def idlers : WorkerPhase C → ℕ
  | .polling => 1
  | .blocked => 1
  | .woken _ => 1
  | _ => 0

/-- The worker has found no task and is not counted as idle yet. -/
def uncounted : WorkerPhase C → Bool
  | .scanned none _ => true
  | .idling => true
  | _ => false

/-- The worker has found no task and has not returned from `epoll_wait`. -/
def unaware : WorkerPhase C → Bool
  | .scanned none _ => true
  | .idling => true
  | .polling => true
  | .blocked => true
  | _ => false

/-- The worker will scan the queue without waiting, or tickle because its scan left something behind. -/
def attending : WorkerPhase C → Bool
  | .scanning => true
  | .scanned (some _) tickleMe => tickleMe
  | .leaving _ _ => true
  | .requeued _ => true
  | .woken _ => true
  | _ => false

/-- An unaware worker that is not counted is on its way to idle. -/
theorem uncounted_of_unaware {p : WorkerPhase C} (hunaware : p.unaware = true) (hidlers : p.idlers = 0) :
    p.uncounted = true := by
  cases p with
  | scanned ft need =>
    cases ft with
    | none => rfl
    | some ft => cases hunaware
  | idling => rfl
  | polling => cases hidlers
  | blocked => cases hidlers
  | _ => cases hunaware

end WorkerPhase

/-- The queue, the states of the fibers, the tickle pipe with its entry on the ready list, the calls of
`schedule` that have yet to tickle, and the phase of every worker. -/
structure Pool (W C : Type*) where
  states : ℕ → FiberState
  fibers : List (FiberAndThread C)
  idleThreadCount : ℕ
  pipe : ℕ
  edge : Bool
  notifying : ℕ
  phase : W → WorkerPhase C

/-- `tickle_me` after a scan: an item for another thread was passed over, or items follow the one taken. -/
def tickleMe (states : ℕ → FiberState) (tid : ℤ) : List (FiberAndThread C) → Bool
  | [] => false
  | ft :: rest =>
    if !ft.runsOn tid then true
    else if ft.executing states then tickleMe states tid rest
    else !rest.isEmpty

/-- `scheduleNoLock`: the queue after it, and `need_tickle`. -/
def scheduleNoLock (q : List (FiberAndThread C)) (fc : FiberOrCb C) (thread : ℤ) :
    List (FiberAndThread C) × Bool :=
  let ft := fc.item thread
  (if ft.fiber.isSome || ft.cb.isSome then q ++ [ft] else q, q.isEmpty)

/-- The locked part of `schedule` for a range of tasks; the single-task overload is a range of one. -/
def scheduleRange (q : List (FiberAndThread C)) (tasks : List (FiberOrCb C × ℤ)) :
    List (FiberAndThread C) × Bool :=
  tasks.foldl (fun acc task =>
    let r := scheduleNoLock acc.1 task.1 task.2
    (r.1, r.2 || acc.2)) (q, false)

/-- One atomic step. -/
inductive PoolStep (W C : Type*) where
  | schedule (tasks : List (FiberOrCb C × ℤ))
  | notify
  | scan (w : W)
  | tickleMe (w : W)
  | swapIn (w : W) (cbFiber : ℕ)
  | publish (w : W) (departure : Workers.Departure)
  | update (w : W)
  | requeueTickle (w : W)
  | enterIdle (w : W)
  | epollWait (w : W)
  | wake (w : W) (tickled : Bool)
  | drain (w : W)
  | leaveIdle (w : W)

namespace Pool

/-- Nothing is queued and every worker is about to scan. -/
def init : Pool W C := ⟨fun _ => .init, [], 0, 0, false, 0, fun _ => .scanning⟩

/-- `IOManager::tickle`. -/
def tickle (s : Pool W C) : Pool W C :=
  if s.idleThreadCount = 0 then s else { s with pipe := s.pipe + 1, edge := true }

/-- `if(need) tickle()`. -/
def tickleIf (s : Pool W C) (need : Bool) : Pool W C := if need then s.tickle else s

section Step

variable [DecidableEq W]

/-- Change the phase of a worker. -/
def move (s : Pool W C) (w : W) (phase : WorkerPhase C) : Pool W C :=
  { s with phase := Function.update s.phase w phase }

/-- Overwrite the state of a fiber. -/
def setState (s : Pool W C) (f : ℕ) (state : FiberState) : Pool W C :=
  { s with states := Function.update s.states f state }

/-- The scan in `run`. -/
def scan (tid : W → ℤ) (s : Pool W C) (w : W) : Except SchedulerFault (Pool W C) :=
  match pick s.states (tid w) s.fibers with
  | .error fault => .error fault
  | .ok none => .ok (s.move w (.scanned none (tickleMe s.states (tid w) s.fibers)))
  | .ok (some (ft, rest)) =>
    .ok ({ s with fibers := rest }.move w (.scanned (some ft) (tickleMe s.states (tid w) s.fibers)))

/-- `swapIn` of the fiber of a task, or of the fiber that runs a callback. -/
def enter (s : Pool W C) (w : W) (f : ℕ) (callback : Bool) : Except SchedulerFault (Pool W C) :=
  if s.states f = .exec then .error .swapInAssert
  else .ok ((s.setState f .exec).move w (.executing f callback))

/-- What `run` does with the item it has taken; `cbFiber` is the fiber that runs a callback. -/
def swapIn (s : Pool W C) (w : W) (ft : FiberAndThread C) (cbFiber : ℕ) :
    Except SchedulerFault (Pool W C) :=
  match ft.fiber with
  | some f =>
    if s.states f ≠ .term ∧ s.states f ≠ .except then s.enter w f false
    else if ft.cb.isSome then s.enter w cbFiber true
    else .ok (s.move w .scanning)
  | none => if ft.cb.isSome then s.enter w cbFiber true else .ok (s.move w .scanning)

/-- What `run` does after a fiber has switched back: a fiber that is ready is scheduled again, one that
ran a callback to its end is reset, and any other that has not ended is put on hold. -/
def update (s : Pool W C) (w : W) (f : ℕ) (callback : Bool) : Pool W C :=
  if s.states f = .ready then
    let r := scheduleNoLock s.fibers (.fiber (some f)) (-1)
    { s with fibers := r.1 }.move w (.requeued r.2)
  else if s.states f ≠ .term ∧ s.states f ≠ .except then (s.setState f .hold).move w .scanning
  else if callback then (s.setState f .init).move w .scanning
  else s.move w .scanning

/-- Perform one step. A step that does not fit the phase of its worker changes nothing. -/
def step (tid : W → ℤ) (s : Pool W C) : PoolStep W C → Except SchedulerFault (Pool W C)
  | .schedule tasks =>
    let r := scheduleRange s.fibers tasks
    .ok { s with fibers := r.1, notifying := s.notifying + if r.2 then 1 else 0 }
  | .notify => if s.notifying = 0 then .ok s else .ok { s with notifying := s.notifying - 1 }.tickle
  | .scan w =>
    match s.phase w with
    | .scanning => s.scan tid w
    | _ => .ok s
  | .tickleMe w =>
    match s.phase w with
    | .scanned (some ft) need => .ok ((s.tickleIf need).move w (.taken ft))
    | .scanned none need => .ok ((s.tickleIf need).move w .idling)
    | _ => .ok s
  | .swapIn w cbFiber =>
    match s.phase w with
    | .taken ft => s.swapIn w ft cbFiber
    | _ => .ok s
  | .publish w departure =>
    match s.phase w with
    | .executing f callback => .ok ((s.setState f departure.state).move w (.leaving f callback))
    | _ => .ok s
  | .update w =>
    match s.phase w with
    | .leaving f callback => .ok (s.update w f callback)
    | _ => .ok s
  | .requeueTickle w =>
    match s.phase w with
    | .requeued need => .ok ((s.tickleIf need).move w .scanning)
    | _ => .ok s
  | .enterIdle w =>
    match s.phase w with
    | .idling => .ok ({ s with idleThreadCount := s.idleThreadCount + 1 }.move w .polling)
    | _ => .ok s
  | .epollWait w =>
    match s.phase w with
    | .polling => .ok (s.move w .blocked)
    | _ => .ok s
  | .wake w tickled =>
    match s.phase w with
    | .blocked =>
      if !tickled then .ok (s.move w (.woken false))
      else if s.edge && decide (0 < s.pipe) then .ok ({ s with edge := false }.move w (.woken true))
      else .ok s
    | _ => .ok s
  | .drain w =>
    match s.phase w with
    | .woken true => .ok ({ s with pipe := 0 }.move w (.woken false))
    | _ => .ok s
  | .leaveIdle w =>
    match s.phase w with
    | .woken false => .ok ({ s with idleThreadCount := s.idleThreadCount - 1 }.move w .scanning)
    | _ => .ok s

end Step

/-- Every worker is blocked or executes a task, no `schedule` has yet to tickle, and the pipe is empty. -/
def Quiet (s : Pool W C) : Prop :=
  (∀ w, s.phase w = .blocked ∨ ∃ f callback, s.phase w = .executing f callback) ∧
    s.notifying = 0 ∧ s.pipe = 0

/-- When all is quiet, nothing is queued that a blocked worker is allowed to run. -/
def NoLostWakeup (tid : W → ℤ) (s : Pool W C) : Prop :=
  s.Quiet → ∀ w, s.phase w = .blocked → ∀ ft ∈ s.fibers,
    ¬ (ft.runsOn (tid w) = true ∧ ft.executing s.states = false)

/-- Someone has been notified, or will scan or tickle. -/
def Attended (s : Pool W C) : Prop :=
  0 < s.pipe ∨ 0 < s.notifying ∨ ∃ w, (s.phase w).attending = true

/-- The queue holds an item that the worker is allowed to run. -/
def HasWork (tid : W → ℤ) (s : Pool W C) (w : W) : Prop :=
  ∃ ft ∈ s.fibers, ft.runsOn (tid w) = true ∧ ft.executing s.states = false

/-- The worker need not care for the queue: somebody attends to it, or another worker has passed something over
and has yet to tickle. -/
def Noticed (s : Pool W C) (w : W) : Prop :=
  s.Attended ∨ ∃ u, u ≠ w ∧ s.phase u = .scanned none true

/-- The steps that lose no notification. A `schedule` that finds the queue filled does not tickle, and a tickle
that finds no idle thread counted is dropped: neither may leave work for a worker that is on its way to
`epoll_wait`, or in it, when nobody else has noticed. -/
def Heard [DecidableEq W] (tid : W → ℤ) (s : Pool W C) : PoolStep W C → Prop
  | .schedule tasks => s.fibers ≠ [] → ∀ v, (s.phase v).unaware = true →
      { s with fibers := (scheduleRange s.fibers tasks).1 }.HasWork tid v → s.Noticed v
  | .notify => s.notifying ≠ 0 → s.idleThreadCount = 0 → ∀ v, (s.phase v).uncounted = true →
      s.HasWork tid v → { s with notifying := s.notifying - 1 }.Noticed v
  | .tickleMe w => (∃ ft, s.phase w = .scanned ft true) → s.idleThreadCount = 0 →
      ∀ v, v ≠ w → (s.phase v).uncounted = true → s.HasWork tid v → (s.move w .idling).Noticed v
  | _ => True

/-- The scan that finds nothing passes over every item, and says so when one was for another thread. -/
theorem tickleMe_of_runsOn_eq_false {states : ℕ → FiberState} {tid : ℤ} {q : List (FiberAndThread C)}
    (hall : ∀ x ∈ q, x.Skipped states tid) {ft : FiberAndThread C} (hft : ft ∈ q)
    (hruns : ft.runsOn tid = false) : tickleMe states tid q = true := by
  induction q with
  | nil => cases hft
  | cons x rest ih =>
    unfold tickleMe
    split
    · rfl
    · rename_i hx
      have hskipped := hall x List.mem_cons_self
      have hexec : x.executing states = true := by
        rcases hskipped with hfalse | hexec
        · rw [hfalse] at hx
          exact absurd rfl hx
        · exact hexec
      rw [if_pos hexec]
      rcases List.mem_cons.mp hft with rfl | hrest
      · rw [hruns] at hx
        exact absurd rfl hx
      · exact ih (fun y hy => hall y (List.mem_cons_of_mem x hy)) hrest

/-- A scan that takes an item and leaves one that is not executing tickles. -/
theorem tickleMe_of_left {states : ℕ → FiberState} {tid : ℤ} {before after : List (FiberAndThread C)}
    {taken ft : FiberAndThread C} (hbefore : ∀ x ∈ before, x.Skipped states tid)
    (hruns : taken.runsOn tid = true) (hexec : taken.executing states = false)
    (hft : ft ∈ before ++ after) (hidle : ft.executing states = false) :
    tickleMe states tid (before ++ taken :: after) = true := by
  induction before with
  | nil =>
    have hafter : after ≠ [] := List.ne_nil_of_mem hft
    simpa [tickleMe, hruns, hexec] using hafter
  | cons x rest ih =>
    rw [List.cons_append, tickleMe]
    split
    · rfl
    · rename_i hx
      have hxexec : x.executing states = true := by
        rcases hbefore x List.mem_cons_self with hfalse | hxexec
        · rw [hfalse] at hx
          exact absurd rfl hx
        · exact hxexec
      rw [if_pos hxexec]
      rcases List.mem_cons.mp hft with rfl | hrest
      · rw [hidle] at hxexec
        cases hxexec
      · exact ih (fun y hy => hbefore y (List.mem_cons_of_mem x hy)) hrest

/-- `schedule` on an empty queue tickles if it was given a task. -/
theorem scheduleRange_nil {tasks : List (FiberOrCb C × ℤ)}
    (h : (scheduleRange [] tasks).2 = false) : (scheduleRange [] tasks).1 = [] := by
  have hkeep : ∀ (tasks : List (FiberOrCb C × ℤ)) (q : List (FiberAndThread C)),
      (tasks.foldl (fun acc task =>
        let r := scheduleNoLock acc.1 task.1 task.2
        (r.1, r.2 || acc.2)) (q, true)).2 = true := by
    intro tasks
    induction tasks with
    | nil => exact fun _ => rfl
    | cons task tasks ih =>
      intro q
      rw [List.foldl_cons]
      dsimp only
      rw [Bool.or_true]
      exact ih _
  cases tasks with
  | nil => rfl
  | cons task tasks =>
    have hneed : (scheduleRange [] (task :: tasks)).2 = true := by
      rw [scheduleRange, List.foldl_cons]
      exact hkeep tasks _
    rw [hneed] at h
    cases h

/-- Attention that is not taken away. -/
theorem Attended.mono {s s' : Pool W C} (h : s.Attended) (hpipe : s.pipe ≤ s'.pipe)
    (hnotifying : s.notifying ≤ s'.notifying)
    (hphase : ∀ u, (s.phase u).attending = true → (s'.phase u).attending = true) : s'.Attended := by
  rcases h with hbyte | hcall | ⟨u, hu⟩
  · exact Or.inl (Nat.lt_of_lt_of_le hbyte hpipe)
  · exact Or.inr (Or.inl (Nat.lt_of_lt_of_le hcall hnotifying))
  · exact Or.inr (Or.inr ⟨u, hphase u hu⟩)

/-- A worker in a phase that attends to the queue. -/
theorem attended_of_move [DecidableEq W] {s s' : Pool W C} {w : W} {p : WorkerPhase C}
    (hp : p.attending = true) (hphase : s'.phase = Function.update s.phase w p) : s'.Attended := by
  refine Or.inr (Or.inr ⟨w, ?_⟩)
  rw [hphase, Function.update_self]
  exact hp

/-- A tickle is heard, or nobody is counted as idle. -/
theorem tickle_cases (s : Pool W C) :
    s.idleThreadCount = 0 ∧ s.tickle = s ∨
      s.idleThreadCount ≠ 0 ∧ s.tickle = { s with pipe := s.pipe + 1, edge := true } := by
  unfold tickle
  by_cases hzero : s.idleThreadCount = 0
  · exact Or.inl ⟨hzero, if_pos hzero⟩
  · exact Or.inr ⟨hzero, if_neg hzero⟩

/-- A tickle changes neither the phases nor the idle count. -/
theorem tickleIf_rest (s : Pool W C) (need : Bool) :
    (s.tickleIf need).phase = s.phase ∧ (s.tickleIf need).idleThreadCount = s.idleThreadCount := by
  unfold tickleIf tickle
  split_ifs <;> exact ⟨rfl, rfl⟩

/-- What a step comes to: a step that does not fit the phase of its worker changes nothing, and any other does
one thing. -/
inductive StepsTo [DecidableEq W] (tid : W → ℤ) (s : Pool W C) : PoolStep W C → Pool W C → Prop
  | stay (i : PoolStep W C) : StepsTo tid s i s
  | schedule (tasks : List (FiberOrCb C × ℤ)) :
      StepsTo tid s (.schedule tasks)
        { s with
          fibers := (scheduleRange s.fibers tasks).1
          notifying := s.notifying + if (scheduleRange s.fibers tasks).2 then 1 else 0 }
  | notify (hcall : s.notifying ≠ 0) :
      StepsTo tid s .notify { s with notifying := s.notifying - 1 }.tickle
  | scan {w : W} {s' : Pool W C} (hphase : s.phase w = .scanning) (hok : s.scan tid w = .ok s') :
      StepsTo tid s (.scan w) s'
  | take {w : W} {ft : FiberAndThread C} {need : Bool} (hphase : s.phase w = .scanned (some ft) need) :
      StepsTo tid s (.tickleMe w) ((s.tickleIf need).move w (.taken ft))
  | giveUp {w : W} {need : Bool} (hphase : s.phase w = .scanned none need) :
      StepsTo tid s (.tickleMe w) ((s.tickleIf need).move w .idling)
  | swapIn {w : W} {ft : FiberAndThread C} {cbFiber : ℕ} {s' : Pool W C} (hphase : s.phase w = .taken ft)
      (hok : s.swapIn w ft cbFiber = .ok s') : StepsTo tid s (.swapIn w cbFiber) s'
  | publish {w : W} {f : ℕ} {callback : Bool} (departure : Workers.Departure)
      (hphase : s.phase w = .executing f callback) :
      StepsTo tid s (.publish w departure) ((s.setState f departure.state).move w (.leaving f callback))
  | update {w : W} {f : ℕ} {callback : Bool} (hphase : s.phase w = .leaving f callback) :
      StepsTo tid s (.update w) (s.update w f callback)
  | requeueTickle {w : W} {need : Bool} (hphase : s.phase w = .requeued need) :
      StepsTo tid s (.requeueTickle w) ((s.tickleIf need).move w .scanning)
  | enterIdle {w : W} (hphase : s.phase w = .idling) :
      StepsTo tid s (.enterIdle w) ({ s with idleThreadCount := s.idleThreadCount + 1 }.move w .polling)
  | epollWait {w : W} (hphase : s.phase w = .polling) : StepsTo tid s (.epollWait w) (s.move w .blocked)
  | wakeOther {w : W} (hphase : s.phase w = .blocked) :
      StepsTo tid s (.wake w false) (s.move w (.woken false))
  | wakeTickled {w : W} (hphase : s.phase w = .blocked) (hready : s.edge = true ∧ 0 < s.pipe) :
      StepsTo tid s (.wake w true) ({ s with edge := false }.move w (.woken true))
  | drain {w : W} (hphase : s.phase w = .woken true) :
      StepsTo tid s (.drain w) ({ s with pipe := 0 }.move w (.woken false))
  | leaveIdle {w : W} (hphase : s.phase w = .woken false) :
      StepsTo tid s (.leaveIdle w) ({ s with idleThreadCount := s.idleThreadCount - 1 }.move w .scanning)

/-- Every successful step is one of these. -/
theorem stepsTo_of_step [DecidableEq W] {tid : W → ℤ} {s s' : Pool W C} {i : PoolStep W C}
    (hok : s.step tid i = .ok s') : StepsTo tid s i s' := by
  cases i with
  | schedule tasks =>
    cases hok
    exact .schedule tasks
  | notify =>
    simp only [step] at hok
    split at hok
    · cases hok
      exact .stay _
    · rename_i hcall
      cases hok
      exact .notify hcall
  | scan w =>
    simp only [step] at hok
    split at hok
    · rename_i hphase
      exact .scan hphase hok
    · cases hok
      exact .stay _
  | tickleMe w =>
    simp only [step] at hok
    split at hok
    · rename_i hphase
      cases hok
      exact .take hphase
    · rename_i hphase
      cases hok
      exact .giveUp hphase
    · cases hok
      exact .stay _
  | swapIn w cbFiber =>
    simp only [step] at hok
    split at hok
    · rename_i hphase
      exact .swapIn hphase hok
    · cases hok
      exact .stay _
  | publish w departure =>
    simp only [step] at hok
    split at hok
    · rename_i hphase
      cases hok
      exact .publish departure hphase
    · cases hok
      exact .stay _
  | update w =>
    simp only [step] at hok
    split at hok
    · rename_i hphase
      cases hok
      exact .update hphase
    · cases hok
      exact .stay _
  | requeueTickle w =>
    simp only [step] at hok
    split at hok
    · rename_i hphase
      cases hok
      exact .requeueTickle hphase
    · cases hok
      exact .stay _
  | enterIdle w =>
    simp only [step] at hok
    split at hok
    · rename_i hphase
      cases hok
      exact .enterIdle hphase
    · cases hok
      exact .stay _
  | epollWait w =>
    simp only [step] at hok
    split at hok
    · rename_i hphase
      cases hok
      exact .epollWait hphase
    · cases hok
      exact .stay _
  | wake w tickled =>
    simp only [step] at hok
    split at hok
    · rename_i hphase
      cases tickled with
      | false =>
        cases hok
        exact .wakeOther hphase
      | true =>
        split at hok
        · rename_i hfalse
          cases hfalse
        · split at hok
          · rename_i hready
            cases hok
            exact .wakeTickled hphase (by simpa using hready)
          · cases hok
            exact .stay _
    · cases hok
      exact .stay _
  | drain w =>
    simp only [step] at hok
    split at hok
    · rename_i hphase
      cases hok
      exact .drain hphase
    · cases hok
      exact .stay _
  | leaveIdle w =>
    simp only [step] at hok
    split at hok
    · rename_i hphase
      cases hok
      exact .leaveIdle hphase
    · cases hok
      exact .stay _

section Invariant

variable [Fintype W] {tid : W → ℤ} {s s' : Pool W C} {w : W} {i : PoolStep W C}

/-- The invariant: the counter agrees with the phases, and an item that an unaware worker may run is
attended to, if only by another worker that passed it over and has yet to tickle. -/
structure Roused (tid : W → ℤ) (s : Pool W C) : Prop where
  counted : s.idleThreadCount = ∑ w, (s.phase w).idlers
  noticed : ∀ w ft, (s.phase w).unaware = true → ft ∈ s.fibers → ft.runsOn (tid w) = true →
    ft.executing s.states = false → s.Noticed w

/-- When no idle thread is counted, an unaware worker is one that is on its way to idle. -/
theorem Roused.uncounted_of_unaware (h : Roused tid s) (hzero : s.idleThreadCount = 0)
    (hunaware : (s.phase w).unaware = true) : (s.phase w).uncounted = true := by
  have hidlers : (s.phase w).idlers = 0 :=
    Finset.sum_eq_zero_iff.mp (h.counted.symm.trans hzero) w (Finset.mem_univ w)
  exact WorkerPhase.uncounted_of_unaware hunaware hidlers

/-- When somebody attends to the queue, only the count is left to check. -/
theorem Roused.of_attended (hcounted : s.idleThreadCount = ∑ w, (s.phase w).idlers) (h : s.Attended) :
    Roused tid s where
  counted := hcounted
  noticed _ _ _ _ _ _ := Or.inl h

/-- At the start nobody is idle. -/
theorem Roused.init (tid : W → ℤ) : Roused tid (Pool.init : Pool W C) where
  counted := (Finset.sum_eq_zero fun _ _ => rfl).symm
  noticed _ _ hunaware := by cases hunaware

/-- When all is quiet, nobody attends to the queue and nobody has a tickle to make. -/
theorem Roused.noLostWakeup (h : Roused tid s) : s.NoLostWakeup tid := by
  rintro ⟨hworkers, hcalls, hpipe⟩ w hblocked ft hft ⟨hruns, hidle⟩
  rcases h.noticed w ft (by rw [hblocked]; rfl) hft hruns hidle with hattended | ⟨u, _, hu⟩
  · rcases hattended with hbyte | hcall | ⟨u, hu⟩
    · exact absurd hpipe (Nat.ne_of_gt hbyte)
    · exact absurd hcalls (Nat.ne_of_gt hcall)
    · rcases hworkers u with hphase | ⟨f, callback, hphase⟩
      · rw [hphase] at hu
        cases hu
      · rw [hphase] at hu
        cases hu
  · rcases hworkers u with hphase | ⟨f, callback, hphase⟩
    · cases hphase.symm.trans hu
    · cases hphase.symm.trans hu

variable [DecidableEq W]

/-- The idle count follows a worker that changes its phase. -/
theorem Roused.counted_move (h : Roused tid s) {p : WorkerPhase C} {n : ℕ}
    (hn : n + (s.phase w).idlers = s.idleThreadCount + p.idlers) :
    n = ∑ u, (Function.update s.phase w p u).idlers := by
  have hupdate := Runs.sum_update s.phase WorkerPhase.idlers w p
  have hcounted := h.counted
  omega

/-- A worker that was not attending to the queue and has no tickle to make moves on. -/
theorem Roused.noticed_move (h : Roused tid s) {p : WorkerPhase C}
    (hphase : s'.phase = Function.update s.phase w p) (hfibers : s'.fibers = s.fibers)
    (hexec : ∀ ft : FiberAndThread C, ft.executing s'.states = false → ft.executing s.states = false)
    (hpipe : s.pipe ≤ s'.pipe) (hnotifying : s.notifying ≤ s'.notifying)
    (hold : (s.phase w).attending = false) (hskip : s.phase w ≠ .scanned none true)
    (hunaware : p.unaware = true → (s.phase w).unaware = true) (v : W) (ft : FiberAndThread C)
    (hv : (s'.phase v).unaware = true) (hft : ft ∈ s'.fibers) (hruns : ft.runsOn (tid v) = true)
    (hidle : ft.executing s'.states = false) : s'.Noticed v := by
  have hothers : ∀ u, u ≠ w → s'.phase u = s.phase u := by
    intro u hu
    rw [hphase, Function.update_of_ne hu]
  have hvold : (s.phase v).unaware = true := by
    by_cases hvw : v = w
    · subst hvw
      rw [hphase, Function.update_self] at hv
      exact hunaware hv
    · rw [hothers v hvw] at hv
      exact hv
  rcases h.noticed v ft hvold (hfibers ▸ hft) hruns (hexec ft hidle) with hattended | ⟨u, huv, hu⟩
  · left
    refine hattended.mono hpipe hnotifying fun u hu => ?_
    by_cases huw : u = w
    · subst huw
      rw [hold] at hu
      cases hu
    · rw [hothers u huw]
      exact hu
  · right
    refine ⟨u, huv, ?_⟩
    by_cases huw : u = w
    · subst huw
      exact absurd hu hskip
    · rw [hothers u huw]
      exact hu

/-- The locked part of `schedule`. -/
theorem Roused.schedule (h : Roused tid s) (tasks : List (FiberOrCb C × ℤ))
    (hheard : s.Heard tid (.schedule tasks)) (hok : s.step tid (.schedule tasks) = .ok s') :
    Roused tid s' := by
  cases hok
  cases hneed : (scheduleRange s.fibers tasks).2 with
  | true => exact .of_attended h.counted (Or.inr (Or.inl (Nat.succ_pos s.notifying)))
  | false =>
    by_cases hempty : s.fibers = []
    · refine ⟨h.counted, fun v ft _ hft => ?_⟩
      dsimp only at hft
      rw [hempty] at hneed hft
      rw [scheduleRange_nil hneed] at hft
      cases hft
    · refine ⟨h.counted, fun v ft hv hft hruns hidle => ?_⟩
      exact (hheard hempty v hv ⟨ft, hft, hruns, hidle⟩).imp_left
        fun hattended => hattended.mono (Nat.le_refl _) (Nat.le_refl _) fun _ hu => hu

/-- The tickle of a `schedule`. -/
theorem Roused.notify (h : Roused tid s)
    (hheard : s.Heard tid .notify) (hok : s.step tid .notify = .ok s') : Roused tid s' := by
  simp only [step] at hok
  split at hok
  · cases hok
    exact h
  · rename_i hcall
    cases hok
    rcases tickle_cases { s with notifying := s.notifying - 1 } with ⟨hzero, heq⟩ | ⟨_, heq⟩
    · rw [heq]
      refine ⟨h.counted, fun v ft hv hft hruns hidle => ?_⟩
      exact hheard hcall hzero v (h.uncounted_of_unaware hzero hv) ⟨ft, hft, hruns, hidle⟩
    · rw [heq]
      exact .of_attended h.counted (Or.inl (Nat.succ_pos s.pipe))

/-- The scan of a worker. -/
theorem Roused.scan (h : Roused tid s) (hphase : s.phase w = .scanning) (hok : s.scan tid w = .ok s') :
    Roused tid s' := by
  have hspec := pick_spec s.states (tid w) s.fibers
  unfold Pool.scan at hok
  split at hok
  · cases hok
  · rename_i hpick
    cases hok
    rw [hpick] at hspec
    refine ⟨h.counted_move (by rw [hphase]; rfl), fun v ft hv hft hruns hidle => ?_⟩
    by_cases hown : ft.runsOn (tid w) = true
    · rcases hspec ft hft with hfalse | hexec
      · rw [hown] at hfalse
        cases hfalse
      · exact absurd (hexec.symm.trans hidle) (by decide)
    · right
      have hforeign : ft.runsOn (tid w) = false := Bool.eq_false_of_not_eq_true hown
      refine ⟨w, ?_, ?_⟩
      · rintro rfl
        exact hown hruns
      · have hneed := tickleMe_of_runsOn_eq_false hspec hft hforeign
        simp only [move, Function.update_self, hneed]
  · rename_i taken rest hpick
    cases hok
    rw [hpick] at hspec
    obtain ⟨before, after, hq, rfl, hbefore, hown, hfree⟩ := hspec
    refine ⟨h.counted_move (by rw [hphase]; rfl), fun v ft hv hft hruns hidle => ?_⟩
    left
    refine attended_of_move (p := .scanned (some taken) (Bobliew.tickleMe s.states (tid w) s.fibers)) ?_ rfl
    rw [hq]
    exact tickleMe_of_left hbefore hown hfree hft hidle

omit [Fintype W] in
/-- A worker that neither attends to the queue nor has a tickle to make can be in another such phase. -/
theorem Noticed.move {v : W} {p q : WorkerPhase C} (h : (s.move w p).Noticed v) (hp : p.attending = false)
    (hskip : p ≠ .scanned none true) : (s.move w q).Noticed v := by
  have hne (u : W) (hu : (s.move w p).phase u ≠ p) : u ≠ w := by
    rintro rfl
    exact hu (Function.update_self _ _ _)
  have hsame (u : W) (hu : u ≠ w) : (s.move w q).phase u = (s.move w p).phase u := by
    simp only [Pool.move, Function.update_of_ne hu]
  rcases h with hattended | ⟨u, huv, hu⟩
  · refine Or.inl (hattended.mono (Nat.le_refl _) (Nat.le_refl _) fun u hu => ?_)
    rw [hsame u (hne u fun heq => ?_)]
    · exact hu
    · rw [heq, hp] at hu
      cases hu
  · exact Or.inr ⟨u, huv, (hsame u (hne u fun heq => hskip (heq.symm.trans hu))).trans hu⟩

/-- A tickle after a scan that finds nobody counted as idle. -/
theorem Roused.dropped (h : Roused tid s) {ft : Option (FiberAndThread C)} {p : WorkerPhase C}
    (hphase : s.phase w = .scanned ft true) (hzero : s.idleThreadCount = 0)
    (hothers : ∀ v, v ≠ w → (s.phase v).uncounted = true → s.HasWork tid v → (s.move w .idling).Noticed v)
    (hidlers : p.idlers = 0) (hunaware : p.unaware = true → ft = none) : Roused tid (s.move w p) := by
  refine ⟨h.counted_move (by rw [hphase, hidlers]; rfl), fun v item hv hitem hruns hidle => ?_⟩
  by_cases hvw : v = w
  · subst hvw
    simp only [move, Function.update_self] at hv
    cases hunaware hv
    have hsame (u : W) (hu : u ≠ v) : (s.move v p).phase u = s.phase u := Function.update_of_ne hu _ _
    rcases h.noticed v item (by rw [hphase]; rfl) hitem hruns hidle with hattended | ⟨u, hu, hskip⟩
    · refine Or.inl (hattended.mono (Nat.le_refl _) (Nat.le_refl _) fun u hu => ?_)
      have huv : u ≠ v := by
        rintro rfl
        rw [hphase] at hu
        cases hu
      rw [hsame u huv]
      exact hu
    · exact Or.inr ⟨u, hu, (hsame u hu).trans hskip⟩
  · simp only [move, Function.update_of_ne hvw] at hv
    exact (hothers v hvw (h.uncounted_of_unaware hzero hv) ⟨item, hitem, hruns, hidle⟩).move rfl
      fun heq => by cases heq

/-- What follows a scan: the tickle if there is one to make, and then the task or the way to idle. -/
theorem Roused.afterScan (h : Roused tid s) {ft : Option (FiberAndThread C)} {need : Bool}
    {p : WorkerPhase C} (hphase : s.phase w = .scanned ft need)
    (hheard : need = true → s.idleThreadCount = 0 →
      ∀ v, v ≠ w → (s.phase v).uncounted = true → s.HasWork tid v → (s.move w .idling).Noticed v)
    (hidlers : p.idlers = 0) (hunaware : p.unaware = true → ft = none) :
    Roused tid ((s.tickleIf need).move w p) := by
  cases need with
  | false =>
    refine ⟨h.counted_move (by rw [hphase, hidlers]; rfl), ?_⟩
    refine h.noticed_move rfl rfl (fun _ hidle => hidle) (Nat.le_refl _) (Nat.le_refl _) ?_ ?_ fun hp => ?_
    · rw [hphase]
      cases ft <;> rfl
    · rw [hphase]
      intro heq
      cases heq
    · rw [hphase, hunaware hp]
      rfl
  | true =>
    rw [tickleIf, if_pos rfl]
    rcases s.tickle_cases with ⟨hzero, heq⟩ | ⟨_, heq⟩
    · rw [heq]
      exact h.dropped hphase hzero (hheard rfl hzero) hidlers hunaware
    · rw [heq]
      exact .of_attended (h.counted_move (by rw [hphase, hidlers]; rfl)) (Or.inl (Nat.succ_pos s.pipe))

/-- A worker switches to the fiber of its task. -/
theorem Roused.enter (h : Roused tid s) {ft : FiberAndThread C} {f : ℕ} {callback : Bool}
    (hphase : s.phase w = .taken ft) (hok : s.enter w f callback = .ok s') : Roused tid s' := by
  unfold Pool.enter at hok
  split at hok
  · cases hok
  · cases hok
    refine ⟨h.counted_move (by rw [hphase]; rfl), ?_⟩
    refine h.noticed_move rfl rfl (fun item hidle => ?_) (Nat.le_refl _) (Nat.le_refl _) (by rw [hphase]; rfl)
      (fun heq => ?_) fun hp => ?_
    · revert hidle
      unfold FiberAndThread.executing
      cases item.fiber with
      | none => exact id
      | some g =>
        by_cases hg : g = f
        · subst hg
          simp [setState, move]
        · simp [setState, move, hg]
    · cases hphase.symm.trans heq
    · cases hp

/-- What `run` does with the item it has taken. -/
theorem Roused.swapIn (h : Roused tid s) {ft : FiberAndThread C} {cbFiber : ℕ}
    (hphase : s.phase w = .taken ft) (hok : s.swapIn w ft cbFiber = .ok s') : Roused tid s' := by
  have hback : Roused tid (s.move w .scanning) :=
    .of_attended (h.counted_move (by rw [hphase]; rfl)) (attended_of_move rfl rfl)
  unfold Pool.swapIn at hok
  split at hok
  · split at hok
    · exact h.enter hphase hok
    · split at hok
      · exact h.enter hphase hok
      · cases hok
        exact hback
  · split at hok
    · exact h.enter hphase hok
    · cases hok
      exact hback

/-- What `run` does after a fiber has switched back. -/
theorem Roused.update (h : Roused tid s) {f : ℕ} {callback : Bool} (hphase : s.phase w = .leaving f callback) :
    Roused tid (s.update w f callback) := by
  have hcounted : ∀ p : WorkerPhase C, p.idlers = 0 →
      s.idleThreadCount = ∑ u, (Function.update s.phase w p u).idlers :=
    fun p hp => h.counted_move (by rw [hphase, hp]; rfl)
  unfold Pool.update
  split
  · exact .of_attended (hcounted _ rfl) (attended_of_move rfl rfl)
  · split
    · exact .of_attended (hcounted .scanning rfl) (attended_of_move rfl rfl)
    · split
      · exact .of_attended (hcounted .scanning rfl) (attended_of_move rfl rfl)
      · exact .of_attended (hcounted .scanning rfl) (attended_of_move rfl rfl)

/-- Every step that loses no notification keeps the invariant. -/
theorem Roused.step (h : Roused tid s) (hheard : s.Heard tid i) (hok : s.step tid i = .ok s') :
    Roused tid s' := by
  cases stepsTo_of_step hok with
  | stay => exact h
  | schedule tasks => exact h.schedule tasks hheard hok
  | notify _ => exact h.notify hheard hok
  | scan hphase hscan => exact h.scan hphase hscan
  | @take w ft need hphase =>
    refine h.afterScan hphase (fun hneed => hheard ⟨some ft, by rw [hphase, hneed]⟩) rfl fun hp => ?_
    cases hp
  | giveUp hphase =>
    exact h.afterScan hphase (fun hneed => hheard ⟨none, by rw [hphase, hneed]⟩) rfl fun _ => rfl
  | swapIn hphase hswap => exact h.swapIn hphase hswap
  | publish departure hphase =>
    exact .of_attended (h.counted_move (by rw [hphase]; rfl)) (attended_of_move rfl rfl)
  | update hphase => exact h.update hphase
  | @requeueTickle w need hphase =>
    have hcounted := h.counted_move (p := .scanning) (n := s.idleThreadCount) (by rw [hphase]; rfl)
    obtain ⟨hphases, hcount⟩ := tickleIf_rest s need
    refine .of_attended ?_ (attended_of_move (s := s) rfl (by rw [move, hphases]))
    simpa only [move, hphases, hcount] using hcounted
  | enterIdle hphase =>
    refine ⟨h.counted_move (by rw [hphase]; rfl), ?_⟩
    refine h.noticed_move rfl rfl (fun _ hidle => hidle) (Nat.le_refl _) (Nat.le_refl _) (by rw [hphase]; rfl)
      (fun heq => ?_) fun _ => by rw [hphase]; rfl
    cases hphase.symm.trans heq
  | epollWait hphase =>
    refine ⟨h.counted_move (by rw [hphase]; rfl), ?_⟩
    refine h.noticed_move rfl rfl (fun _ hidle => hidle) (Nat.le_refl _) (Nat.le_refl _) (by rw [hphase]; rfl)
      (fun heq => ?_) fun _ => by rw [hphase]; rfl
    cases hphase.symm.trans heq
  | wakeOther hphase =>
    exact .of_attended (h.counted_move (by rw [hphase]; rfl)) (attended_of_move rfl rfl)
  | wakeTickled hphase _ =>
    exact .of_attended (h.counted_move (by rw [hphase]; rfl)) (attended_of_move rfl rfl)
  | drain hphase =>
    exact .of_attended (h.counted_move (by rw [hphase]; rfl)) (attended_of_move rfl rfl)
  | @leaveIdle w hphase =>
    have hpositive : 0 < s.idleThreadCount := by
      have hle := Finset.single_le_sum (f := fun u => (s.phase u).idlers) (fun _ _ => Nat.zero_le _)
        (Finset.mem_univ w)
      simp only [hphase, WorkerPhase.idlers] at hle
      rw [h.counted]
      exact hle
    refine .of_attended (h.counted_move ?_) (attended_of_move rfl rfl)
    rw [hphase]
    exact Nat.sub_add_cancel hpositive

/-- In every run that loses no notification no wake-up is lost. -/
theorem no_lost_wakeup (tid : W → ℤ) (h : Runs.Reaches (Pool.step tid) (Heard tid) (Pool.init : Pool W C) s) :
    s.NoLostWakeup tid := by
  have hroused : Roused tid s := by
    refine h.invariant (Roused tid) (Roused.init tid) fun s i s' hs hheard hok => ?_
    exact hs.step hheard hok
  exact hroused.noLostWakeup

end Invariant

/-- A worker goes idle and is woken for a callback, which schedules two more: neither needs a tickle to be heard.
The worker runs all three and goes idle again. -/
theorem no_lost_wakeup_oneTask :
    ∃ s : Pool Unit Unit, Runs.Reaches (step fun _ => 1) (Heard fun _ => 1) Pool.init s ∧ s.phase () = .blocked ∧
      s.NoLostWakeup fun _ => 1 := by
  have hscanned : Runs.Reaches (step fun _ => 1) (Heard fun _ => 1) (Pool.init : Pool Unit Unit) _ :=
    .next .start (.scan ()) trivial rfl
  have hidling := hscanned.next (.tickleMe ()) (fun h => by rcases h with ⟨ft, hft⟩; cases hft) rfl
  have hpolling := hidling.next (.enterIdle ()) trivial rfl
  have hblocked := hpolling.next (.epollWait ()) trivial rfl
  have hqueued := hblocked.next (.schedule [(.cb (some ()), -1)]) (fun h => absurd rfl h) rfl
  have htickled := hqueued.next .notify (fun _ h => by cases h) rfl
  have hwoken := htickled.next (.wake () true) trivial rfl
  have hdrained := hwoken.next (.drain ()) trivial rfl
  have hback := hdrained.next (.leaveIdle ()) trivial rfl
  have htaken := (hback.next (.scan ()) trivial rfl).next (.tickleMe ())
    (fun h => by rcases h with ⟨ft, hft⟩; cases hft) rfl
  have hexecuting := htaken.next (.swapIn () 0) trivial rfl
  -- The worker is not unaware while it executes the callback, so nothing is lost to it.
  have hsecond := hexecuting.next (.schedule [(.cb (some ()), -1)]) (fun h => absurd rfl h) rfl
  have hthird := hsecond.next (.schedule [(.cb (some ()), -1)]) (fun _ _ hv => by cases hv) rfl
  have hdropped := hthird.next .notify (fun _ _ _ hv => by cases hv) rfl
  have hdone := (hdropped.next (.publish () .finish) trivial rfl).next (.update ()) trivial rfl
  have htaken' := (hdone.next (.scan ()) trivial rfl).next (.tickleMe ()) (fun _ _ _ hv => absurd rfl hv) rfl
  have hdone' := ((htaken'.next (.swapIn () 0) trivial rfl).next (.publish () .finish) trivial rfl).next
    (.update ()) trivial rfl
  have hlast := (hdone'.next (.scan ()) trivial rfl).next (.tickleMe ())
    (fun h => by rcases h with ⟨ft, hft⟩; cases hft) rfl
  have hall := ((hlast.next (.swapIn () 0) trivial rfl).next (.publish () .finish) trivial rfl).next
    (.update ()) trivial rfl
  have hempty := (hall.next (.scan ()) trivial rfl).next (.tickleMe ())
    (fun h => by rcases h with ⟨ft, hft⟩; cases hft) rfl
  have hagain := (hempty.next (.enterIdle ()) trivial rfl).next (.epollWait ()) trivial rfl
  exact ⟨_, hagain, rfl, no_lost_wakeup _ hagain⟩

/-- A callback scheduled after a worker's scan and before it is counted as idle: nobody is tickled, the
worker blocks, and the callback it may run stays in the queue. -/
theorem callback_left_in_queue :
    ∃ s : Pool Unit Unit, Runs.Reaches (step fun _ => 1) (fun _ _ => True) Pool.init s ∧
      s.Quiet ∧ s.phase () = .blocked ∧ s.fibers = [⟨none, some (), -1⟩] ∧ ¬ s.NoLostWakeup fun _ => 1 := by
  have hscanned : Runs.Reaches (step fun _ => 1) (fun _ _ => True) (Pool.init : Pool Unit Unit) _ :=
    .next .start (.scan ()) trivial rfl
  have hidling := hscanned.next (.tickleMe ()) trivial rfl
  have hqueued := hidling.next (.schedule [(.cb (some ()), -1)]) trivial rfl
  have hdropped := hqueued.next .notify trivial rfl
  have hpolling := hdropped.next (.enterIdle ()) trivial rfl
  have hblocked := hpolling.next (.epollWait ()) trivial rfl
  refine ⟨_, hblocked, ⟨fun _ => Or.inl rfl, rfl, rfl⟩, rfl, rfl, fun hnone => ?_⟩
  exact hnone ⟨fun _ => Or.inl rfl, rfl, rfl⟩ () rfl _ List.mem_cons_self ⟨rfl, rfl⟩

end Pool

end Bobliew
