import Bobliew.Lib.Fifo
import Bobliew.Lib.Runs

/-!
# The scheduler's run loop on one thread

A model of `Scheduler::run`, of the operations on fibers it uses, and of what task bodies may do.
Fibers live in a heap indexed by number. The thread is either at the top of the loop, inside a task,
inside the idle fiber, or has returned from `run`; a switch between a fiber and the loop is a change
of this mode. One iteration of the loop up to the next switch is one step, and so is each thing a
body does. Other threads may call `schedule`, `start` and `stop` at any time.

Failed assertions end the run. Every dispatch of a queue item is recorded together with what became
of it.
-/

namespace Bobliew

/-- `Fiber::State`. -/
inductive FiberState where
  | init
  | hold
  | exec
  | term
  | ready
  | except
  deriving DecidableEq

/-- `Fiber`: its state and `m_cb`. -/
structure Fiber (C : Type*) where
  state : FiberState
  cb : Option C

/-- `Scheduler::FiberAndThread`. -/
structure FiberAndThread (C : Type*) where
  fiber : Option ℕ
  cb : Option C
  thread : ℤ

/-- The assertions in `run`, `Fiber::reset` and `Fiber::swapIn`. -/
inductive SchedulerFault where
  | itemAssert
  | resetAssert
  | swapInAssert
  deriving DecidableEq

variable {C : Type*}

/-- Whether an item may be taken by a thread: `thread` is `-1` or the thread's own id. -/
def FiberAndThread.runsOn (tid : ℤ) (ft : FiberAndThread C) : Bool :=
  ft.thread == -1 || ft.thread == tid

/-- Whether the item's fiber is in state `EXEC`. -/
def FiberAndThread.executing (states : ℕ → FiberState) (ft : FiberAndThread C) : Bool :=
  ft.fiber.any fun f => states f == .exec

/-- The scan of `m_fibers` in `run`: the item taken and the items left, or nothing. -/
def pick (states : ℕ → FiberState) (tid : ℤ) :
    List (FiberAndThread C) → Except SchedulerFault (Option (FiberAndThread C × List (FiberAndThread C)))
  | [] => .ok none
  | ft :: rest =>
    if !ft.runsOn tid then (pick states tid rest).map (Option.map fun r => (r.1, ft :: r.2))
    else if ft.fiber.isNone && ft.cb.isNone then .error .itemAssert
    else if ft.executing states then (pick states tid rest).map (Option.map fun r => (r.1, ft :: r.2))
    else .ok (some (ft, rest))

/-- The argument of `schedule`: a fiber or a callback, either of which may be null. -/
inductive FiberOrCb (C : Type*) where
  | fiber (f : Option ℕ)
  | cb (c : Option C)

/-- The constructors of `FiberAndThread`. -/
def FiberOrCb.item (fc : FiberOrCb C) (thread : ℤ) : FiberAndThread C :=
  match fc with
  | .fiber f => ⟨f, none, thread⟩
  | .cb c => ⟨none, c, thread⟩

/-- Where the scheduler's thread is. -/
inductive Mode where
  | loop
  | fiber (f : ℕ)
  | callback (f : ℕ)
  | idle
  | returned
  deriving DecidableEq

/-- The task fiber being executed. -/
def Mode.current : Mode → Option ℕ
  | .fiber f => some f
  | .callback f => some f
  | _ => none

/-- What becomes of a dequeued item: a fiber is entered for the first time with its `m_cb`, or
resumed where it yielded, or has already ended. -/
inductive Outcome (C : Type*) where
  | entered (f : ℕ) (body : Option C)
  | resumed (f : ℕ)
  | ended (fiber : Option ℕ) (state : Option FiberState)

/-- The record of what happened to the queue. -/
inductive LogEntry (C : Type*) where
  | scheduled (ft : FiberAndThread C)
  | requeued (f : ℕ)
  | dispatched (ft : FiberAndThread C) (outcome : Outcome C)

/-- `Scheduler` with the local variables of `run`: `cb_fiber` and the state of `idle_fiber`. -/
structure Scheduler (C : Type*) where
  heap : ℕ → Fiber C
  fiberCount : ℕ
  fibers : List (FiberAndThread C)
  cbFiber : Option ℕ
  idleFiber : FiberState
  activeThreadCount : ℤ
  idleThreadCount : ℤ
  autoStop : Bool
  stopping : Bool
  mode : Mode
  log : List (LogEntry C)

namespace Scheduler

/-- The scheduler as constructed, with its thread about to enter the loop of `run`. -/
def init : Scheduler C where
  heap := fun _ => ⟨.init, none⟩
  fiberCount := 0
  fibers := []
  cbFiber := none
  idleFiber := .init
  activeThreadCount := 0
  idleThreadCount := 0
  autoStop := false
  stopping := true
  mode := .loop
  log := []

/-- `getState` of a fiber. -/
def stateOf (s : Scheduler C) (f : ℕ) : FiberState := (s.heap f).state

/-- Overwrite a fiber. -/
def setFiber (s : Scheduler C) (f : ℕ) (fiber : Fiber C) : Scheduler C :=
  { s with heap := Function.update s.heap f fiber }

/-- The constructor of `Fiber`. -/
def newFiber (s : Scheduler C) (cb : Option C) : Scheduler C :=
  { s with heap := Function.update s.heap s.fiberCount ⟨.init, cb⟩, fiberCount := s.fiberCount + 1 }

/-- `Fiber::reset`. -/
def reset (s : Scheduler C) (f : ℕ) (cb : Option C) : Except SchedulerFault (Scheduler C) :=
  if s.stateOf f = .term ∨ s.stateOf f = .except ∨ s.stateOf f = .init then
    .ok (s.setFiber f ⟨.init, cb⟩)
  else .error .resetAssert

/-- `Fiber::swapIn`, with what the switch leads to. -/
def swapIn (s : Scheduler C) (f : ℕ) : Except SchedulerFault (Scheduler C × Outcome C) :=
  if s.stateOf f = .exec then .error .swapInAssert else
  .ok (s.setFiber f { s.heap f with state := .exec },
    if s.stateOf f = .init then .entered f (s.heap f).cb else .resumed f)

/-- `scheduleNoLock`: an item with neither fiber nor callback is not enqueued. -/
def scheduleNoLock (s : Scheduler C) (fc : FiberOrCb C) (thread : ℤ) : Scheduler C :=
  let ft := fc.item thread
  if ft.fiber.isSome || ft.cb.isSome then
    { s with fibers := s.fibers ++ [ft], log := s.log ++ [.scheduled ft] }
  else s

/-- `schedule(f)` called by `run` for a fiber in state `READY`. -/
def requeue (s : Scheduler C) (f : ℕ) : Scheduler C :=
  { s with fibers := s.fibers ++ [⟨some f, none, -1⟩], log := s.log ++ [.requeued f] }

/-- `stopping`. -/
def isStopping (s : Scheduler C) : Bool :=
  s.autoStop && s.stopping && s.fibers.isEmpty && s.activeThreadCount == 0

/-- The fiber in which `run` starts a callback: `cb_fiber` is reset, or created when it is null. -/
def callbackFiber (s : Scheduler C) (c : C) : Except SchedulerFault (Scheduler C × ℕ) :=
  match s.cbFiber with
  | some f => (s.reset f (some c)).map fun s => (s, f)
  | none => .ok ({ s.newFiber (some c) with cbFiber := some s.fiberCount }, s.fiberCount)

/-- The part of one iteration of `run` after an item was taken, up to the switch. -/
def dispatch (s : Scheduler C) (ft : FiberAndThread C) : Except SchedulerFault (Scheduler C) :=
  match ft.fiber.filter fun f => s.stateOf f != .term && s.stateOf f != .except with
  | some f => do
    let (s, outcome) ← s.swapIn f
    .ok { s with mode := .fiber f, log := s.log ++ [.dispatched ft outcome] }
  | none =>
    match ft.cb with
    | some c => do
      let (s, f) ← s.callbackFiber c
      let (s, outcome) ← s.swapIn f
      .ok { s with mode := .callback f, log := s.log ++ [.dispatched ft outcome] }
    | none =>
      .ok { s with
        activeThreadCount := s.activeThreadCount - 1
        log := s.log ++ [.dispatched ft (.ended ft.fiber (ft.fiber.map s.stateOf))] }

/-- Take an item out of `m_fibers`, leaving the rest, and count the thread as active. -/
def take (s : Scheduler C) (rest : List (FiberAndThread C)) : Scheduler C :=
  { s with fibers := rest, activeThreadCount := s.activeThreadCount + 1 }

/-- One iteration of the loop in `run`, up to the switch into a task or the idle fiber. -/
def runOnce (s : Scheduler C) (tid : ℤ) : Except SchedulerFault (Scheduler C) := do
  match ← pick s.stateOf tid s.fibers with
  | some (ft, rest) => (s.take rest).dispatch ft
  | none =>
    if s.idleFiber = .term then .ok { s with mode := .returned }
    else if s.idleFiber = .exec then .error .swapInAssert
    else .ok { s with idleThreadCount := s.idleThreadCount + 1, idleFiber := .exec, mode := .idle }

/-- What `run` does when a fiber it took from the queue switches back. -/
def afterFiber (s : Scheduler C) (f : ℕ) : Scheduler C :=
  let s := { s with activeThreadCount := s.activeThreadCount - 1, mode := .loop }
  if s.stateOf f = .ready then s.requeue f
  else if s.stateOf f ≠ .term ∧ s.stateOf f ≠ .except then
    s.setFiber f { s.heap f with state := .hold }
  else s

/-- What `run` does when `cb_fiber` switches back. -/
def afterCallback (s : Scheduler C) (f : ℕ) : Except SchedulerFault (Scheduler C) :=
  let s := { s with activeThreadCount := s.activeThreadCount - 1, mode := .loop }
  if s.stateOf f = .ready then .ok (s.requeue f)
  else if s.stateOf f = .except ∨ s.stateOf f = .term then s.reset f none
  else .ok { s.setFiber f { s.heap f with state := .hold } with cbFiber := none }

/-- The running task gives up its fiber in the given condition, and `run` continues. -/
def swapOut (s : Scheduler C) (fiber : Fiber C → Fiber C) : Except SchedulerFault (Scheduler C) :=
  match s.mode with
  | .fiber f => .ok ((s.setFiber f (fiber (s.heap f))).afterFiber f)
  | .callback f => (s.setFiber f (fiber (s.heap f))).afterCallback f
  | _ => .ok s

/-- The body of `idle` between two switches: it ends when `stopping`, and yields otherwise. -/
def idle (s : Scheduler C) : Scheduler C :=
  { s with
    idleFiber := if s.isStopping then .term else .hold
    idleThreadCount := s.idleThreadCount - 1
    mode := .loop }

/-- One step of the scheduler's thread, or a call from another thread. -/
inductive Op (C : Type*) where
  | schedule (fc : FiberOrCb C) (thread : ℤ)
  | newFiber (cb : Option C)
  | start
  | stop
  | run
  | idle
  | yieldToReady
  | yieldToHold
  | finish
  | throw

/-- Perform one step. -/
def step (tid : ℤ) (s : Scheduler C) : Op C → Except SchedulerFault (Scheduler C)
  | .schedule fc thread => .ok (s.scheduleNoLock fc thread)
  | .newFiber cb => .ok (s.newFiber cb)
  | .start => .ok { s with stopping := false }
  | .stop => .ok { s with autoStop := true, stopping := true }
  | .run => s.runOnce tid
  | .idle => .ok s.idle
  | .yieldToReady => s.swapOut fun fiber => { fiber with state := .ready }
  | .yieldToHold => s.swapOut fun fiber => { fiber with state := .hold }
  | .finish => s.swapOut fun _ => ⟨.term, none⟩
  | .throw => s.swapOut fun fiber => { fiber with state := .except }

/-- Fibers are created before they are scheduled, the thread does what its mode says, and calling a
null `m_cb` can only throw. -/
def Permitted (s : Scheduler C) : Op C → Prop
  | .schedule (.fiber (some f)) _ => f < s.fiberCount
  | .run => s.mode = .loop
  | .idle => s.mode = .idle
  | .yieldToReady | .yieldToHold | .finish =>
    ∃ f, s.mode.current = some f ∧ (s.heap f).cb.isSome = true
  | .throw => s.mode.current.isSome = true
  | _ => True

end Scheduler

end Bobliew
