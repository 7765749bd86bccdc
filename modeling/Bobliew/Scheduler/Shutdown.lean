import Bobliew.Scheduler.Pinning

/-!
# Stopping the workers

The workers of `Wakeup` with what `Scheduler::stop` waits for: `m_autoStop`, `m_stopping`,
`m_activeThreadCount`, and whether the idle fiber of a worker has ended, after which the worker leaves
`run` at the first scan that finds nothing. `run` takes its unit off the active count before it schedules
a ready fiber again, so between the two the queue is empty and the count is zero although the fiber has
work left.

Whether timers or descriptors are pending is left open: `IOManager::stopping` may say no at any time, and
`Scheduler::stopping` never has a reason to. The root worker is the thread that calls `stop`: it enters
`run` from there, and only if the scheduler is not stopping yet. A second `start` is left out.
-/

namespace Bobliew

variable {W C : Type*}

/-- What a worker contributes to `m_activeThreadCount`. -/
def WorkerPhase.active (released : Bool) : WorkerPhase C → ℕ
  | .scanned (some _) _ => 1
  | .taken _ => 1
  | .executing _ _ => 1
  | .leaving _ _ => if released then 0 else 1
  | _ => 0

/-- A worker that is neither about to scan nor has a fiber running or just switched back. -/
def WorkerPhase.passes : WorkerPhase C → Bool
  | .scanning => false
  | .executing _ _ => false
  | .leaving _ _ => false
  | _ => true

/-- A worker has moved on from neither the top of the loop nor a fiber that has just switched back, with the
queue as it was. -/
structure Pool.Passed [DecidableEq W] (s s' : Pool W C) (w : W) (p : WorkerPhase C) : Prop where
  fibers : s'.fibers = s.fibers
  phase : s'.phase = Function.update s.phase w p
  exec : ∀ f, s'.states f = .exec → s.states f = .exec ∧ ∀ callback, s.phase w ≠ .executing f callback
  scanning : s.phase w ≠ .scanning
  leaving : ∀ f callback, s.phase w ≠ .leaving f callback
  active : p.active false = (s.phase w).active false
  uncounted : p.uncounted = true → (s.phase w).uncounted = true

/-- The workers, the members of the scheduler that `stopping` reads, and for every worker whether it has
entered `run`, has taken its unit off the count since its fiber switched back, has an idle fiber in state
`TERM`, and has returned. -/
structure StoppingPool (W C : Type*) where
  pool : Pool W C
  activeThreadCount : ℤ
  autoStop : Bool
  stopping : Bool
  entered : W → Bool
  released : W → Bool
  idleEnded : W → Bool
  returned : W → Bool

/-- One atomic step: of `start` and `stop`, of a worker, or of the pool as it was. -/
inductive StoppingStep (W C : Type*) where
  | start
  | requestStop
  | stop
  | enterRun (w : W) (nothingPending : Bool)
  | checkStopping (w : W) (nothingPending : Bool)
  | release (w : W)
  | scheduleFrom (w : W) (tasks : List (FiberOrCb C × ℤ))
  | pool (i : PoolStep W C)

namespace StoppingPool

/-- Constructed, and not started. -/
def init : StoppingPool W C :=
  ⟨.init, 0, false, true, fun _ => false, fun _ => false, fun _ => false, fun _ => false⟩

/-- `Scheduler::stopping`. -/
def isStopping (s : StoppingPool W C) : Bool :=
  s.autoStop && s.stopping && s.pool.fibers.isEmpty && s.activeThreadCount == 0

section Step

variable [DecidableEq W] [Fintype W]

/-- A step of the pool. A scan that takes an item counts the worker as active, an item with nothing to run
takes it off the count, a fiber that has switched back is dealt with once the worker is off the count, and a
worker without tasks returns if its idle fiber has ended. -/
def poolStep (tid : W → ℤ) (s : StoppingPool W C) : PoolStep W C → Except SchedulerFault (StoppingPool W C)
  | .scan w =>
    match s.pool.phase w with
    | .scanning =>
      if s.entered w && !s.returned w then
        (s.pool.scan tid w).map fun pool =>
          if (pool.phase w).held.isSome then { s with pool, activeThreadCount := s.activeThreadCount + 1 }
          else { s with pool }
      else .ok s
    | _ => .ok s
  | .swapIn w cbFiber =>
    match s.pool.phase w with
    | .taken ft =>
      (s.pool.swapIn w ft cbFiber).map fun pool =>
        match pool.phase w with
        | .scanning => { s with pool, activeThreadCount := s.activeThreadCount - 1 }
        | _ => { s with pool }
    | _ => .ok s
  | .update w =>
    match s.pool.phase w with
    | .leaving f callback =>
      if s.released w then
        .ok { s with
          pool := s.pool.update w f callback
          released := Function.update s.released w false }
      else .ok s
    | _ => .ok s
  | .enterIdle w =>
    match s.pool.phase w with
    | .idling =>
      if s.idleEnded w then .ok { s with returned := Function.update s.returned w true }
      else (s.pool.step tid (.enterIdle w)).map fun pool => { s with pool }
    | _ => .ok s
  | .epollWait _ => .ok s
  | i => (s.pool.step tid i).map fun pool => { s with pool }

/-- Perform one step. -/
def step (tid : W → ℤ) (root : Option W) (s : StoppingPool W C) :
    StoppingStep W C → Except SchedulerFault (StoppingPool W C)
  | .start => .ok { s with stopping := false }
  | .requestStop => .ok { s with autoStop := true }
  | .stop =>
    .ok { s with stopping := true, pool := { s.pool with notifying := s.pool.notifying + Fintype.card W } }
  | .enterRun w nothingPending =>
    if s.entered w || s.returned w then .ok s
    else if root = some w ∧ (nothingPending && s.isStopping) = true then
      .ok { s with returned := Function.update s.returned w true }
    else .ok { s with entered := Function.update s.entered w true }
  | .checkStopping w nothingPending =>
    match s.pool.phase w with
    | .polling =>
      if nothingPending && s.isStopping then
        .ok { s with idleEnded := Function.update s.idleEnded w true, pool := s.pool.move w (.woken false) }
      else .ok { s with pool := s.pool.move w .blocked }
    | _ => .ok s
  | .release w =>
    match s.pool.phase w with
    | .leaving _ _ =>
      if s.released w then .ok s
      else .ok { s with
        activeThreadCount := s.activeThreadCount - 1
        released := Function.update s.released w true }
    | _ => .ok s
  | .scheduleFrom _ tasks => (s.pool.step tid (.schedule tasks)).map fun pool => { s with pool }
  | .pool i => s.poolStep tid i

end Step

/-- Only tasks, and idle fibers that have not ended, call `schedule` once `stop` has been called; `stop` sets
`m_autoStop` before `m_stopping`, and enters the root worker after both. -/
def Permitted (root : Option W) (s : StoppingPool W C) : StoppingStep W C → Prop
  | .start => s.autoStop = false
  | .stop => s.autoStop = true
  | .enterRun w _ => root = some w → s.autoStop = true ∧ s.stopping = true
  | .scheduleFrom w _ => (∃ f callback, s.pool.phase w = .executing f callback) ∨
      (∃ tickled, s.pool.phase w = .woken tickled) ∧ s.idleEnded w = false
  | .pool (.schedule _) => s.autoStop = false
  | _ => True

/-- The worker will scan the queue again. -/
def Live (s : StoppingPool W C) (w : W) : Prop :=
  s.returned w = false ∧ (s.idleEnded w = true → (s.pool.phase w).uncounted = false)

/-- What a step comes to. The steps that the rest of the scheduler does not notice stay together. -/
inductive StepsTo [DecidableEq W] [Fintype W] (tid : W → ℤ) (root : Option W) (s : StoppingPool W C) :
    StoppingStep W C → StoppingPool W C → Prop
  | stay (i : StoppingStep W C) : StepsTo tid root s i s
  | start : StepsTo tid root s .start { s with stopping := false }
  | requestStop : StepsTo tid root s .requestStop { s with autoStop := true }
  | tickles {i : StoppingStep W C} {pool : Pool W C} (stopping : Bool) (hfibers : pool.fibers = s.pool.fibers)
      (hphase : pool.phase = s.pool.phase) (hstates : pool.states = s.pool.states) :
      StepsTo tid root s i { s with pool, stopping }
  | skipRun {w : W} {nothingPending : Bool} (hentered : s.entered w = false)
      (hstopping : s.isStopping = true) :
      StepsTo tid root s (.enterRun w nothingPending) { s with returned := Function.update s.returned w true }
  | enterRun {w : W} {nothingPending : Bool} (hreturned : s.returned w = false) :
      StepsTo tid root s (.enterRun w nothingPending) { s with entered := Function.update s.entered w true }
  | endIdle {w : W} {nothingPending : Bool} (hphase : s.pool.phase w = .polling)
      (hstopping : s.isStopping = true) :
      StepsTo tid root s (.checkStopping w nothingPending)
        { s with idleEnded := Function.update s.idleEnded w true, pool := s.pool.move w (.woken false) }
  | release {w : W} {f : ℕ} {callback : Bool} (hphase : s.pool.phase w = .leaving f callback)
      (hreleased : s.released w = false) :
      StepsTo tid root s (.release w)
        { s with
          activeThreadCount := s.activeThreadCount - 1
          released := Function.update s.released w true }
  | scheduleFrom (w : W) (tasks : List (FiberOrCb C × ℤ)) {pool : Pool W C}
      (hok : s.pool.step tid (.schedule tasks) = .ok pool) :
      StepsTo tid root s (.scheduleFrom w tasks) { s with pool }
  | schedule (tasks : List (FiberOrCb C × ℤ)) {pool : Pool W C}
      (hok : s.pool.step tid (.schedule tasks) = .ok pool) :
      StepsTo tid root s (.pool (.schedule tasks)) { s with pool }
  | scan {w : W} {pool : Pool W C} (hphase : s.pool.phase w = .scanning)
      (hrunning : s.entered w = true ∧ s.returned w = false) (hok : s.pool.scan tid w = .ok pool) :
      StepsTo tid root s (.pool (.scan w))
        { s with
          pool
          activeThreadCount := s.activeThreadCount + (pool.phase w).active false }
  | swapIn {w : W} {cbFiber : ℕ} {ft : FiberAndThread C} {pool : Pool W C}
      (hphase : s.pool.phase w = .taken ft) (hok : s.pool.swapIn w ft cbFiber = .ok pool) :
      StepsTo tid root s (.pool (.swapIn w cbFiber))
        { s with
          pool
          activeThreadCount := s.activeThreadCount - 1 + (pool.phase w).active false }
  | update {w : W} {f : ℕ} {callback : Bool} (hphase : s.pool.phase w = .leaving f callback)
      (hreleased : s.released w = true) :
      StepsTo tid root s (.pool (.update w))
        { s with
          pool := s.pool.update w f callback
          released := Function.update s.released w false }
  | returnFromRun {w : W} (hphase : s.pool.phase w = .idling) (hended : s.idleEnded w = true) :
      StepsTo tid root s (.pool (.enterIdle w)) { s with returned := Function.update s.returned w true }
  | pass {i : StoppingStep W C} {w : W} {p : WorkerPhase C} {pool : Pool W C}
      (hpassed : s.pool.Passed pool w p) (hended : s.pool.phase w = .idling → s.idleEnded w = false) :
      StepsTo tid root s i { s with pool }

/-- A tickle changes no fiber. -/
theorem tickleIf_states (s : Pool W C) (need : Bool) : (s.tickleIf need).states = s.states := by
  unfold Pool.tickleIf Pool.tickle
  split_ifs <;> rfl

section Steps

variable [DecidableEq W] {tid : W → ℤ} {root : Option W} {s s' : StoppingPool W C}

/-- A worker moves on, and no fiber changes its state. -/
theorem passed_of_move {s s' : Pool W C} {w : W} {p q : WorkerPhase C} (hold : s.phase w = q)
    (hpasses : (q.passes && p.active false == q.active false && (!p.uncounted || q.uncounted)) = true)
    (hfibers : s'.fibers = s.fibers) (hstates : s'.states = s.states)
    (hphase : s'.phase = Function.update s.phase w p) : s.Passed s' w p := by
  subst hold
  simp only [Bool.and_eq_true, beq_iff_eq, Bool.or_eq_true, Bool.not_eq_true'] at hpasses
  obtain ⟨⟨hpasses, hactive⟩, huncounted⟩ := hpasses
  refine ⟨hfibers, hphase, fun f hf => ⟨hstates ▸ hf, fun callback heq => ?_⟩, fun heq => ?_,
    fun f callback heq => ?_, hactive, fun hp => ?_⟩
  · rw [heq] at hpasses
    cases hpasses
  · rw [heq] at hpasses
    cases hpasses
  · rw [heq] at hpasses
    cases hpasses
  · rcases huncounted with hfalse | htrue
    · rw [hp] at hfalse
      cases hfalse
    · exact htrue

/-- A fiber publishes the state it leaves in, which is not `EXEC`. -/
theorem passed_of_publish {s : Pool W C} {w : W} {f : ℕ} {callback : Bool} (departure : Workers.Departure)
    (hphase : s.phase w = .executing f callback) :
    s.Passed ((s.setState f departure.state).move w (.leaving f callback)) w (.leaving f callback) where
  fibers := rfl
  phase := rfl
  exec g hg := by
    by_cases hgf : g = f
    · subst hgf
      simp only [Pool.move, Pool.setState, Function.update_self] at hg
      cases departure <;> cases hg
    · simp only [Pool.move, Pool.setState, Function.update_of_ne hgf] at hg
      refine ⟨hg, fun callback' heq => hgf ?_⟩
      cases hphase.symm.trans heq
      rfl
  scanning heq := by cases hphase.symm.trans heq
  leaving g callback' heq := by cases hphase.symm.trans heq
  active := by
    rw [hphase]
    rfl
  uncounted hp := by cases hp

/-- The tickle that follows a scan or a requeued fiber. -/
theorem passed_of_tickle {s : Pool W C} {w : W} {p q : WorkerPhase C} {need : Bool} (hold : s.phase w = q)
    (hpasses : (q.passes && p.active false == q.active false && (!p.uncounted || q.uncounted)) = true) :
    s.Passed ((s.tickleIf need).move w p) w p := by
  have hphase : ((s.tickleIf need).move w p).phase = Function.update s.phase w p := by
    rw [Pool.move, (s.tickleIf_rest need).1]
  exact passed_of_move hold hpasses (s.tickleIf_fibers need) (tickleIf_states s need) hphase

/-- A scan counts the worker as active if it takes an item. -/
theorem scan_count {w : W} {pool : Pool W C} (hok : s.pool.scan tid w = .ok pool) :
    (if (pool.phase w).held.isSome then
        ({ s with pool, activeThreadCount := s.activeThreadCount + 1 } : StoppingPool W C)
      else { s with pool }) =
      { s with pool, activeThreadCount := s.activeThreadCount + (pool.phase w).active false } := by
  unfold Pool.scan at hok
  split at hok
  · cases hok
  · cases hok
    simp [Pool.move, WorkerPhase.held, WorkerPhase.active]
  · cases hok
    simp [Pool.move, WorkerPhase.held, WorkerPhase.active]

/-- A worker that finds nothing to run in the item it has taken is active no longer. -/
theorem swapIn_count {w : W} {ft : FiberAndThread C} {cbFiber : ℕ} {pool : Pool W C}
    (hok : s.pool.swapIn w ft cbFiber = .ok pool) :
    (match pool.phase w with
      | .scanning => ({ s with pool, activeThreadCount := s.activeThreadCount - 1 } : StoppingPool W C)
      | _ => { s with pool }) =
      { s with pool, activeThreadCount := s.activeThreadCount - 1 + (pool.phase w).active false } := by
  obtain ⟨-, ⟨f, -, hphase⟩ | ⟨-, hphase⟩ | hphase⟩ := Pool.swapIn_cases hok
  · simp [hphase, WorkerPhase.active]
  · simp [hphase, WorkerPhase.active]
  · simp [hphase, WorkerPhase.active]

variable [Fintype W]

/-- The steps of the pool. -/
theorem stepsTo_of_poolStep {i : PoolStep W C} (hok : s.poolStep tid i = .ok s') :
    StepsTo tid root s (.pool i) s' := by
  cases i with
  | schedule tasks =>
    simp only [poolStep] at hok
    obtain ⟨pool, hpool, rfl⟩ := Except.exists_of_map_eq_ok hok
    exact .schedule tasks hpool
  | notify =>
    simp only [poolStep] at hok
    obtain ⟨pool, hpool, rfl⟩ := Except.exists_of_map_eq_ok hok
    cases Pool.stepsTo_of_step hpool with
    | stay => exact .stay _
    | notify hcall =>
      apply StepsTo.tickles s.stopping
      · exact ({ s.pool with notifying := s.pool.notifying - 1 } : Pool W C).tickleIf_fibers true
      · exact (({ s.pool with notifying := s.pool.notifying - 1 } : Pool W C).tickleIf_rest true).1
      · exact tickleIf_states { s.pool with notifying := s.pool.notifying - 1 } true
  | scan w =>
    simp only [poolStep] at hok
    split at hok
    · rename_i hphase
      split at hok
      · rename_i hruns
        obtain ⟨pool, hpool, rfl⟩ := Except.exists_of_map_eq_ok hok
        rw [Bool.and_eq_true, Bool.not_eq_true'] at hruns
        rw [scan_count hpool]
        exact .scan hphase hruns hpool
      · cases hok
        exact .stay _
    · cases hok
      exact .stay _
  | swapIn w cbFiber =>
    simp only [poolStep] at hok
    split at hok
    · rename_i hphase
      obtain ⟨pool, hpool, rfl⟩ := Except.exists_of_map_eq_ok hok
      rw [swapIn_count hpool]
      exact .swapIn hphase hpool
    · cases hok
      exact .stay _
  | update w =>
    simp only [poolStep] at hok
    split at hok
    · rename_i hphase
      split at hok
      · rename_i hreleased
        cases hok
        exact .update hphase hreleased
      · cases hok
        exact .stay _
    · cases hok
      exact .stay _
  | enterIdle w =>
    simp only [poolStep] at hok
    split at hok
    · rename_i hphase
      split at hok
      · rename_i hended
        cases hok
        exact .returnFromRun hphase hended
      · rename_i hended
        obtain ⟨pool, hpool, rfl⟩ := Except.exists_of_map_eq_ok hok
        cases Pool.stepsTo_of_step hpool with
        | stay => exact .stay _
        | enterIdle _ =>
          exact .pass (passed_of_move hphase rfl rfl rfl rfl) fun _ => Bool.eq_false_of_not_eq_true hended
    · cases hok
      exact .stay _
  | epollWait w =>
    cases hok
    exact .stay _
  | tickleMe w =>
    simp only [poolStep] at hok
    obtain ⟨pool, hpool, rfl⟩ := Except.exists_of_map_eq_ok hok
    cases Pool.stepsTo_of_step hpool with
    | stay => exact .stay _
    | take hphase => exact .pass (passed_of_tickle hphase rfl) fun hidling => by cases hphase.symm.trans hidling
    | giveUp hphase => exact .pass (passed_of_tickle hphase rfl) fun hidling => by cases hphase.symm.trans hidling
  | publish w departure =>
    simp only [poolStep] at hok
    obtain ⟨pool, hpool, rfl⟩ := Except.exists_of_map_eq_ok hok
    cases Pool.stepsTo_of_step hpool with
    | stay => exact .stay _
    | publish _ hphase =>
      exact .pass (passed_of_publish departure hphase) fun hidling => by cases hphase.symm.trans hidling
  | requeueTickle w =>
    simp only [poolStep] at hok
    obtain ⟨pool, hpool, rfl⟩ := Except.exists_of_map_eq_ok hok
    cases Pool.stepsTo_of_step hpool with
    | stay => exact .stay _
    | requeueTickle hphase =>
      exact .pass (passed_of_tickle hphase rfl) fun hidling => by cases hphase.symm.trans hidling
  | wake w tickled =>
    simp only [poolStep] at hok
    obtain ⟨pool, hpool, rfl⟩ := Except.exists_of_map_eq_ok hok
    cases Pool.stepsTo_of_step hpool with
    | stay => exact .stay _
    | wakeOther hphase =>
      exact .pass (passed_of_move hphase rfl rfl rfl rfl) fun hidling => by cases hphase.symm.trans hidling
    | wakeTickled hphase _ =>
      exact .pass (passed_of_move hphase rfl rfl rfl rfl) fun hidling => by cases hphase.symm.trans hidling
  | drain w =>
    simp only [poolStep] at hok
    obtain ⟨pool, hpool, rfl⟩ := Except.exists_of_map_eq_ok hok
    cases Pool.stepsTo_of_step hpool with
    | stay => exact .stay _
    | drain hphase =>
      exact .pass (passed_of_move hphase rfl rfl rfl rfl) fun hidling => by cases hphase.symm.trans hidling
  | leaveIdle w =>
    simp only [poolStep] at hok
    obtain ⟨pool, hpool, rfl⟩ := Except.exists_of_map_eq_ok hok
    cases Pool.stepsTo_of_step hpool with
    | stay => exact .stay _
    | leaveIdle hphase =>
      exact .pass (passed_of_move hphase rfl rfl rfl rfl) fun hidling => by cases hphase.symm.trans hidling

/-- Every successful step is one of these. -/
theorem stepsTo_of_step {i : StoppingStep W C} (hok : s.step tid root i = .ok s') :
    StepsTo tid root s i s' := by
  cases i with
  | start =>
    cases hok
    exact .start
  | requestStop =>
    cases hok
    exact .requestStop
  | stop =>
    cases hok
    exact .tickles true rfl rfl rfl
  | enterRun w nothingPending =>
    simp only [step] at hok
    split at hok
    · cases hok
      exact .stay _
    · rename_i hnew
      simp only [Bool.or_eq_true, not_or, Bool.not_eq_true] at hnew
      split at hok
      · rename_i hskip
        cases hok
        exact .skipRun hnew.1 (Bool.and_eq_true_iff.mp hskip.2).2
      · cases hok
        exact .enterRun hnew.2
  | checkStopping w nothingPending =>
    simp only [step] at hok
    split at hok
    · rename_i hphase
      split at hok
      · rename_i hstopping
        cases hok
        exact .endIdle hphase (Bool.and_eq_true_iff.mp hstopping).2
      · cases hok
        have hpassed : s.pool.Passed (s.pool.move w .blocked) w .blocked := passed_of_move hphase rfl rfl rfl rfl
        exact .pass hpassed fun hidling => by cases hphase.symm.trans hidling
    · cases hok
      exact .stay _
  | release w =>
    simp only [step] at hok
    split at hok
    · rename_i hphase
      split at hok
      · cases hok
        exact .stay _
      · rename_i hreleased
        cases hok
        exact .release hphase (Bool.eq_false_of_not_eq_true hreleased)
    · cases hok
      exact .stay _
  | scheduleFrom w tasks =>
    simp only [step] at hok
    obtain ⟨pool, hpool, rfl⟩ := Except.exists_of_map_eq_ok hok
    exact .scheduleFrom w tasks hpool
  | pool i => exact stepsTo_of_poolStep hok

end Steps

end StoppingPool

end Bobliew
