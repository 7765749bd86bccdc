import Bobliew.Scheduler.Run

/-!
# The run loop refines a first-in first-out queue

On one thread no queued fiber is executing when `m_fibers` is scanned, so the scan takes the first
item that may run on the thread. The record of a run is a run of a first-in first-out queue whose
values are the items for this thread: `schedule` and a fiber that yields ready push, and a dispatch
pops. A popped callback is entered with that callback as body, a popped fiber is resumed, entered,
or has ended before.

The one assertion that can fail is in `Fiber::reset`: `run` keeps `cb_fiber` after its callback has
yielded ready, and uses it for the next callback it takes.
-/

namespace Bobliew

variable {C : Type*} {tid : ℤ}

/-- The scan passes over an item. -/
def FiberAndThread.Skipped (states : ℕ → FiberState) (tid : ℤ) (ft : FiberAndThread C) : Prop :=
  ft.runsOn tid = false ∨ ft.executing states = true

/-- What the scan of a queue may return. -/
def Picked (states : ℕ → FiberState) (tid : ℤ) (q : List (FiberAndThread C)) :
    Except SchedulerFault (Option (FiberAndThread C × List (FiberAndThread C))) → Prop
  | .error _ => ∃ x ∈ q, x.fiber = none ∧ x.cb = none
  | .ok none => ∀ x ∈ q, x.Skipped states tid
  | .ok (some (ft, rest)) => ∃ before after, q = before ++ ft :: after ∧ rest = before ++ after ∧
      (∀ x ∈ before, x.Skipped states tid) ∧ ft.runsOn tid = true ∧ ft.executing states = false

/-- Passing over the first item. -/
theorem Picked.skip {states : ℕ → FiberState} {q : List (FiberAndThread C)} {ft : FiberAndThread C}
    (hft : ft.Skipped states tid)
    {r : Except SchedulerFault (Option (FiberAndThread C × List (FiberAndThread C)))}
    (h : Picked states tid q r) :
    Picked states tid (ft :: q) (r.map (Option.map fun r => (r.1, ft :: r.2))) := by
  match r, h with
  | .error _, ⟨x, hx, hnull⟩ => exact ⟨x, List.mem_cons_of_mem _ hx, hnull⟩
  | .ok none, h => exact List.forall_mem_cons.mpr ⟨hft, h⟩
  | .ok (some (taken, rest)), ⟨before, after, hq, hrest, hall, htaken⟩ =>
    exact ⟨ft :: before, after, by rw [hq]; rfl, by rw [hrest]; rfl,
      List.forall_mem_cons.mpr ⟨hft, hall⟩, htaken⟩

/-- The scan takes the first item it does not pass over. -/
theorem pick_spec (states : ℕ → FiberState) (tid : ℤ) (q : List (FiberAndThread C)) :
    Picked states tid q (pick states tid q) := by
  induction q with
  | nil => exact List.forall_mem_nil _
  | cons ft rest ih =>
    unfold pick
    split
    · rename_i hruns
      exact ih.skip (Or.inl (by simpa using hruns))
    · rename_i hruns
      split
      · rename_i hnull
        exact ⟨ft, List.mem_cons_self, by simpa using hnull⟩
      · split
        · rename_i hexec
          exact ih.skip (Or.inr hexec)
        · rename_i hexec
          exact ⟨[], rest, rfl, rfl, List.forall_mem_nil _, by simpa using hruns, by simpa using hexec⟩

namespace Scheduler

variable {s s' : Scheduler C}

/-- What a log entry tells the queue of items for the thread. -/
def queueAction (tid : ℤ) : LogEntry C → Option (Fifo.Action (FiberAndThread C))
  | .scheduled ft => if ft.runsOn tid then some (.push ft) else none
  | .requeued f => some (.push ⟨some f, none, -1⟩)
  | .dispatched ft _ => some (.pop ft)

/-- The items waiting for the thread. -/
def waiting (tid : ℤ) (s : Scheduler C) : List (FiberAndThread C) :=
  s.fibers.filter (FiberAndThread.runsOn tid)

/-- A dequeued callback is entered, and a dequeued fiber is resumed, entered or has ended. -/
def Handled (ft : FiberAndThread C) (outcome : Outcome C) : Prop :=
  (∃ c f, ft.fiber = none ∧ ft.cb = some c ∧ outcome = .entered f (some c)) ∨
    (∃ f, ft.fiber = some f ∧ ft.cb = none ∧
      (outcome = .resumed f ∨ (∃ body, outcome = .entered f body) ∨
        outcome = .ended (some f) (some .term) ∨ outcome = .ended (some f) (some .except)))

/-- What an iteration does with the item it takes. A callback is entered, in a fiber that is new, has ended or
has not begun; a fiber is entered, is resumed where it yielded, or is left alone because it has ended. -/
def Served (s s' : Scheduler C) (ft : FiberAndThread C) (outcome : Outcome C) : Prop :=
  (∃ c f, ft.fiber = none ∧ ft.cb = some c ∧
      (s.fiberCount ≤ f ∨ s.stateOf f = .term ∨ s.stateOf f = .except ∨ s.stateOf f = .init) ∧
      outcome = .entered f (some c) ∧ s'.mode = .callback f) ∨
    ∃ f, ft.fiber = some f ∧ ft.cb = none ∧
      match s.stateOf f with
      | .init => outcome = .entered f (s.heap f).cb ∧ s'.mode = .fiber f
      | .hold => outcome = .resumed f ∧ s'.mode = .fiber f
      | .ready => outcome = .resumed f ∧ s'.mode = .fiber f
      | .exec => False
      | .term => outcome = .ended (some f) (some .term) ∧ s'.mode = .loop
      | .except => outcome = .ended (some f) (some .except) ∧ s'.mode = .loop

/-- An iteration that takes an item: what it does with it, the record of it, and the fiber that executes then. -/
structure Serves (s s' : Scheduler C) (ft : FiberAndThread C) (outcome : Outcome C) : Prop where
  served : Served s s' ft outcome
  log : s'.log = s.log ++ [.dispatched ft outcome]
  states : ∀ g, s'.stateOf g = if s'.mode.current = some g then .exec else s.stateOf g

/-- What is served is handled. -/
theorem Served.handled {ft : FiberAndThread C} {outcome : Outcome C} (h : Served s s' ft outcome) :
    Handled ft outcome := by
  rcases h with ⟨c, f, hfiber, hcb, -, houtcome, -⟩ | ⟨f, hfiber, hcb, hstate⟩
  · exact Or.inl ⟨c, f, hfiber, hcb, houtcome⟩
  · refine Or.inr ⟨f, hfiber, hcb, ?_⟩
    split at hstate
    · exact Or.inr (Or.inl ⟨_, hstate.1⟩)
    · exact Or.inl hstate.1
    · exact Or.inl hstate.1
    · exact hstate.elim
    · exact Or.inr (Or.inr (Or.inl hstate.1))
    · exact Or.inr (Or.inr (Or.inr hstate.1))

/-- An item of the queue holds an existing fiber or a callback, not both. -/
def Item (count : ℕ) (ft : FiberAndThread C) : Prop :=
  (∃ f, f < count ∧ ft.fiber = some f ∧ ft.cb = none) ∨ ∃ c, ft.fiber = none ∧ ft.cb = some c

/-- The invariant of the run loop. -/
structure Inv (tid : ℤ) (s : Scheduler C) : Prop where
  fifo : Fifo.Run (s.log.filterMap (queueAction tid)) (s.waiting tid)
  handled : ∀ ft outcome, LogEntry.dispatched ft outcome ∈ s.log → Handled ft outcome
  items : ∀ ft ∈ s.fibers, Item s.fiberCount ft
  exec : ∀ f, s.stateOf f = .exec ↔ s.mode.current = some f
  current : ∀ f, s.mode.current = some f → f < s.fiberCount
  cbFiber : ∀ f, s.cbFiber = some f → f < s.fiberCount
  ready : ∀ f, s.stateOf f = .ready → (⟨some f, none, -1⟩ : FiberAndThread C) ∈ s.fibers
  active : s.activeThreadCount = if s.mode.current.isSome then 1 else 0
  idle : s.idleFiber = .exec ↔ s.mode = .idle

/-- The state of a fiber after one is overwritten. -/
theorem stateOf_setFiber (s : Scheduler C) (f : ℕ) (fiber : Fiber C) (g : ℕ) :
    (s.setFiber f fiber).stateOf g = if g = f then fiber.state else s.stateOf g := by
  unfold stateOf setFiber
  by_cases hg : g = f
  · simp [hg]
  · simp [hg]

/-- An item is still one when more fibers exist. -/
theorem Item.mono {count count' : ℕ} (hle : count ≤ count') {ft : FiberAndThread C}
    (h : Item count ft) : Item count' ft :=
  h.imp_left fun ⟨f, hf, hfiber⟩ => ⟨f, Nat.lt_of_lt_of_le hf hle, hfiber⟩

/-- The initial state satisfies the invariant. -/
theorem Inv.init : Inv tid (Scheduler.init : Scheduler C) where
  fifo := .nil
  handled := fun _ _ h => (List.not_mem_nil h).elim
  items := List.forall_mem_nil _
  exec := fun _ => iff_of_false (fun h => nomatch h) (fun h => nomatch h)
  current := fun _ h => nomatch h
  cbFiber := fun _ h => nomatch h
  ready := fun _ h => nomatch h
  active := rfl
  idle := iff_of_false (fun h => nomatch h) (fun h => nomatch h)

/-- A push at the end of `m_fibers` for the items of the thread. -/
theorem fifo_push {l : List (Fifo.Action (FiberAndThread C))} {q : List (FiberAndThread C)}
    (h : Fifo.Run l (q.filter (FiberAndThread.runsOn tid))) {ft : FiberAndThread C}
    (hft : ft.runsOn tid = true) :
    Fifo.Run (l ++ [.push ft]) ((q ++ [ft]).filter (FiberAndThread.runsOn tid)) := by
  rw [List.filter_append, List.filter_cons_of_pos hft]
  exact h.push ft

/-- `schedule` keeps the invariant. -/
theorem Inv.scheduleNoLock (h : Inv tid s) {fc : FiberOrCb C} {thread : ℤ}
    (hpermitted : Permitted s (.schedule fc thread)) : Inv tid (s.scheduleNoLock fc thread) := by
  unfold Scheduler.scheduleNoLock
  dsimp only
  split
  · rename_i hsome
    have hitem : Item s.fiberCount (fc.item thread) := by
      match fc, hpermitted with
      | .fiber (some f), hf => exact Or.inl ⟨f, hf, rfl, rfl⟩
      | .fiber none, _ => cases hsome
      | .cb (some c), _ => exact Or.inr ⟨c, rfl, rfl⟩
      | .cb none, _ => cases hsome
    refine { h with fifo := ?_, handled := ?_, items := ?_, ready := ?_ }
    · rw [List.filterMap_append]
      by_cases hruns : (fc.item thread).runsOn tid = true
      · simpa [List.filterMap_cons, queueAction, hruns, waiting] using fifo_push h.fifo hruns
      · simpa [List.filterMap_cons, queueAction, hruns, waiting] using h.fifo
    · intro ft outcome hmem
      exact h.handled ft outcome (by simpa using hmem)
    · intro ft hmem
      rcases List.mem_append.mp hmem with hold | hnew
      · exact h.items ft hold
      · rw [List.mem_singleton.mp hnew]
        exact hitem
    · exact fun f hf => List.mem_append_left _ (h.ready f hf)
  · exact h

/-- Creating a fiber keeps the invariant. -/
theorem Inv.newFiber (h : Inv tid s) (cb : Option C) : Inv tid (s.newFiber cb) := by
  have hstate (f : ℕ) : (s.newFiber cb).stateOf f =
      if f = s.fiberCount then .init else s.stateOf f :=
    stateOf_setFiber s s.fiberCount ⟨.init, cb⟩ f
  refine { h with items := ?_, exec := ?_, current := ?_, cbFiber := ?_, ready := ?_ }
  · exact fun ft hft => (h.items ft hft).mono (Nat.le_succ _)
  · intro f
    rw [hstate]
    split
    · rename_i hf
      refine iff_of_false (fun hexec => nomatch hexec) fun hcur => ?_
      exact absurd (h.current f hcur) (by omega)
    · exact h.exec f
  · exact fun f hf => Nat.lt_succ_of_lt (h.current f hf)
  · exact fun f hf => Nat.lt_succ_of_lt (h.cbFiber f hf)
  · intro f hf
    rw [hstate] at hf
    split at hf
    · cases hf
    · exact h.ready f hf

/-- The running task's fiber gives up the thread without being ready. -/
theorem Inv.leave (h : Inv tid s) {f : ℕ} (hcur : s.mode.current = some f) (fiber : Fiber C)
    (cbFiber : Option ℕ) (hexec : fiber.state ≠ .exec) (hready : fiber.state ≠ .ready)
    (hcb : ∀ g, cbFiber = some g → s.cbFiber = some g) :
    Inv tid { s.setFiber f fiber with
      cbFiber := cbFiber, activeThreadCount := s.activeThreadCount - 1, mode := .loop } := by
  have hstate := stateOf_setFiber s f fiber
  refine { h with exec := ?_, current := ?_, cbFiber := ?_, ready := ?_, active := ?_, idle := ?_ }
  · intro g
    refine iff_of_false (fun hg => ?_) (fun hg => nomatch hg)
    have hg : (s.setFiber f fiber).stateOf g = .exec := hg
    rw [hstate] at hg
    split at hg
    · exact hexec hg
    · rename_i hne
      have hcur' := (h.exec g).mp hg
      rw [hcur] at hcur'
      exact hne (Option.some.inj hcur').symm
  · exact fun g hg => nomatch hg
  · exact fun g hg => h.cbFiber g (hcb g hg)
  · intro g hg
    have hg : (s.setFiber f fiber).stateOf g = .ready := hg
    rw [hstate] at hg
    split at hg
    · exact absurd hg hready
    · exact h.ready g hg
  · have hactive := h.active
    rw [hcur] at hactive
    change s.activeThreadCount - 1 = 0
    rw [hactive]
    rfl
  · refine iff_of_false (fun hidle => ?_) (fun hmode => nomatch hmode)
    have hmode := h.idle.mp hidle
    rw [hmode] at hcur
    cases hcur

/-- The running task's fiber yields ready and is enqueued again. -/
theorem Inv.leaveReady (h : Inv tid s) {f : ℕ} (hcur : s.mode.current = some f) {fiber : Fiber C}
    (hready : fiber.state = .ready) :
    Inv tid ({ s.setFiber f fiber with
      activeThreadCount := s.activeThreadCount - 1, mode := .loop }.requeue f) := by
  have hleave : Inv tid { s.setFiber f ⟨.hold, fiber.cb⟩ with
      cbFiber := s.cbFiber, activeThreadCount := s.activeThreadCount - 1, mode := .loop } :=
    h.leave hcur _ _ (by simp) (by simp) fun g hg => hg
  have hstate := stateOf_setFiber s f fiber
  have hstate' := stateOf_setFiber s f ⟨.hold, fiber.cb⟩
  refine { hleave with fifo := ?_, handled := ?_, items := ?_, exec := ?_, ready := ?_ }
  · have hruns : (⟨some f, none, -1⟩ : FiberAndThread C).runsOn tid = true := by
      simp [FiberAndThread.runsOn]
    simpa [List.filterMap_cons, queueAction, waiting, requeue, setFiber] using fifo_push h.fifo hruns
  · intro ft outcome hmem
    exact h.handled ft outcome (by simpa [requeue, setFiber] using hmem)
  · intro ft hmem
    rcases List.mem_append.mp hmem with hold | hnew
    · exact h.items ft hold
    · rw [List.mem_singleton.mp hnew]
      exact Or.inl ⟨f, h.current f hcur, rfl, rfl⟩
  · intro g
    refine Iff.trans ?_ (hleave.exec g)
    change (s.setFiber f fiber).stateOf g = _ ↔ (s.setFiber f ⟨.hold, fiber.cb⟩).stateOf g = _
    rw [hstate, hstate', hready]
    split <;> simp
  · intro g hg
    have hg : (s.setFiber f fiber).stateOf g = .ready := hg
    rw [hstate] at hg
    split at hg
    · rename_i hgf
      rw [hgf]
      exact List.mem_append_right _ (List.mem_singleton_self _)
    · exact List.mem_append_left _ (h.ready g hg)

/-- When a fiber from the queue switches back, `run` keeps the invariant. -/
theorem Inv.afterFiber (h : Inv tid s) {f : ℕ} (hcur : s.mode.current = some f) (fiber : Fiber C) :
    Inv tid ((s.setFiber f fiber).afterFiber f) := by
  have hstate : (s.setFiber f fiber).stateOf f = fiber.state := by
    rw [stateOf_setFiber, if_pos rfl]
  unfold Scheduler.afterFiber
  dsimp only
  split
  · rename_i hready
    exact h.leaveReady hcur (hstate.symm.trans hready)
  · rename_i hready
    split
    · have hleave := h.leave hcur ⟨.hold, fiber.cb⟩ s.cbFiber (by simp) (by simp) fun g hg => hg
      simpa [setFiber] using hleave
    · rename_i hended
      refine h.leave hcur fiber s.cbFiber ?_ ?_ fun g hg => hg
      · intro hexec
        refine hended ⟨fun hterm => ?_, fun hexcept => ?_⟩
        · exact absurd (hstate.symm.trans hterm) (by simp [hexec])
        · exact absurd (hstate.symm.trans hexcept) (by simp [hexec])
      · exact fun hr => hready (hstate.trans hr)

/-- When `cb_fiber` switches back, `run` continues without a fault and keeps the invariant. -/
theorem Inv.afterCallback (h : Inv tid s) {f : ℕ} (hcur : s.mode.current = some f) (fiber : Fiber C) :
    ∃ s', (s.setFiber f fiber).afterCallback f = .ok s' ∧ Inv tid s' := by
  have hstate : (s.setFiber f fiber).stateOf f = fiber.state := by
    rw [stateOf_setFiber, if_pos rfl]
  unfold Scheduler.afterCallback
  dsimp only
  split
  · rename_i hready
    exact ⟨_, rfl, h.leaveReady hcur (hstate.symm.trans hready)⟩
  · split
    · rename_i hended
      refine ⟨_, if_pos (Or.elim hended (fun he => Or.inr (Or.inl he)) Or.inl), ?_⟩
      have hleave := h.leave hcur ⟨.init, none⟩ s.cbFiber (by simp) (by simp) fun g hg => hg
      simpa [setFiber] using hleave
    · refine ⟨_, rfl, ?_⟩
      have hleave := h.leave hcur ⟨.hold, fiber.cb⟩ none (by simp) (by simp) fun g hg => nomatch hg
      simpa [setFiber] using hleave

/-- Whatever a task does last, `run` continues without a fault and keeps the invariant. -/
theorem Inv.swapOut (h : Inv tid s) (last : Fiber C → Fiber C) :
    ∃ s', s.swapOut last = .ok s' ∧ Inv tid s' := by
  unfold Scheduler.swapOut
  split
  · rename_i f hmode
    exact ⟨_, rfl, h.afterFiber (by rw [hmode]; rfl) _⟩
  · rename_i f hmode
    exact h.afterCallback (by rw [hmode]; rfl) _
  · exact ⟨s, rfl, h⟩

/-- No task fiber executes while the thread is in the loop. -/
theorem Inv.ne_exec (h : Inv tid s) (hmode : s.mode = .loop) (f : ℕ) : s.stateOf f ≠ .exec := by
  intro hexec
  have hcur := (h.exec f).mp hexec
  rw [hmode] at hcur
  cases hcur

/-- Changing the mode, the idle fiber and the flags while no task runs. -/
theorem Inv.atRest (h : Inv tid s) (hcur : s.mode.current = none) {mode : Mode}
    (hrest : mode.current = none) {idleFiber : FiberState} (hidle : idleFiber = .exec ↔ mode = .idle)
    (idleThreadCount : ℤ) :
    Inv tid { s with mode := mode, idleFiber := idleFiber, idleThreadCount := idleThreadCount } := by
  refine { h with exec := ?_, current := ?_, active := ?_, idle := hidle }
  · intro f
    change s.stateOf f = .exec ↔ mode.current = some f
    rw [h.exec, hcur, hrest]
  · intro f hf
    change mode.current = some f at hf
    rw [hrest] at hf
    cases hf
  · change s.activeThreadCount = if mode.current.isSome then 1 else 0
    rw [h.active, hcur, hrest]

section Taking

variable {before after : List (FiberAndThread C)} {ft : FiberAndThread C}

/-- The scan takes the first of the items waiting for the thread. -/
theorem filter_taken (hbefore : ∀ x ∈ before, x.runsOn tid = false) (hruns : ft.runsOn tid = true) :
    (before ++ ft :: after).filter (FiberAndThread.runsOn tid) =
      ft :: (before ++ after).filter (FiberAndThread.runsOn tid) := by
  have hnil : before.filter (FiberAndThread.runsOn tid) = [] :=
    List.filter_eq_nil_iff.mpr (by simpa using hbefore)
  rw [List.filter_append, List.filter_cons_of_pos hruns, List.filter_append, hnil]
  rfl

/-- An item other than the one taken stays in the queue. -/
theorem mem_of_ne_taken {x : FiberAndThread C} (hx : x ∈ before ++ ft :: after) (hne : x ≠ ft) :
    x ∈ before ++ after := by
  rcases List.mem_append.mp hx with hleft | hright
  · exact List.mem_append_left _ hleft
  · exact List.mem_append_right _ ((List.mem_cons.mp hright).resolve_left hne)

/-- Nothing is added to the queue when an item is taken. -/
theorem mem_of_mem_taken {x : FiberAndThread C} (hx : x ∈ before ++ after) :
    x ∈ before ++ ft :: after := by
  rcases List.mem_append.mp hx with hleft | hright
  · exact List.mem_append_left _ hleft
  · exact List.mem_append_right _ (List.mem_cons_of_mem _ hright)

/-- Taking the first waiting item is a pop. -/
theorem Inv.fifo_taken (h : Inv tid s) (hq : s.fibers = before ++ ft :: after)
    (hbefore : ∀ x ∈ before, x.runsOn tid = false) (hruns : ft.runsOn tid = true)
    (outcome : Outcome C) :
    Fifo.Run ((s.log ++ [LogEntry.dispatched ft outcome]).filterMap (queueAction tid))
      ((before ++ after).filter (FiberAndThread.runsOn tid)) := by
  have hfifo := h.fifo
  rw [waiting, hq, filter_taken hbefore hruns] at hfifo
  rw [List.filterMap_append]
  exact hfifo.pop

/-- The record after one more dispatch. -/
theorem Inv.handled_taken (h : Inv tid s) {outcome : Outcome C} (hhandled : Handled ft outcome)
    {ft' : FiberAndThread C} {outcome' : Outcome C}
    (hmem : LogEntry.dispatched ft' outcome' ∈ s.log ++ [.dispatched ft outcome]) :
    Handled ft' outcome' := by
  rcases List.mem_append.mp hmem with hold | hnew
  · exact h.handled ft' outcome' hold
  · cases List.mem_singleton.mp hnew
    exact hhandled

/-- Taking an item and switching to a fiber. -/
theorem Inv.enter (h : Inv tid s) (hmode : s.mode = .loop) (hq : s.fibers = before ++ ft :: after)
    (hbefore : ∀ x ∈ before, x.runsOn tid = false) (hruns : ft.runsOn tid = true) {f count : ℕ}
    (hcount : s.fiberCount ≤ count) (hf : f < count) (hfiber : ∀ g, ft.fiber = some g → g = f)
    {cbFiber : Option ℕ} (hcb : ∀ g, cbFiber = some g → g < count) (mode : Mode)
    (hcurrent : mode.current = some f) {outcome : Outcome C} (hhandled : Handled ft outcome)
    (cb : Option C) :
    Inv tid { s.setFiber f ⟨.exec, cb⟩ with
      fiberCount := count, fibers := before ++ after, cbFiber := cbFiber
      activeThreadCount := s.activeThreadCount + 1, mode := mode
      log := s.log ++ [.dispatched ft outcome] } := by
  have hstate := stateOf_setFiber s f ⟨.exec, cb⟩
  refine ⟨h.fifo_taken hq hbefore hruns outcome, fun _ _ => h.handled_taken hhandled, ?_, ?_, ?_, hcb,
    ?_, ?_, ?_⟩
  · intro ft' hmem
    refine (h.items ft' ?_).mono hcount
    rw [hq]
    exact mem_of_mem_taken hmem
  · intro g
    change (s.setFiber f ⟨.exec, cb⟩).stateOf g = .exec ↔ mode.current = some g
    rw [hstate, hcurrent]
    split
    · rename_i hg
      simp [hg]
    · rename_i hg
      simp [h.ne_exec hmode g, Ne.symm hg]
  · intro g hg
    rw [hcurrent] at hg
    cases hg
    exact hf
  · intro g hg
    have hg : (s.setFiber f ⟨.exec, cb⟩).stateOf g = .ready := hg
    rw [hstate] at hg
    split at hg
    · cases hg
    · rename_i hgf
      refine mem_of_ne_taken (hq ▸ h.ready g hg) fun hft => ?_
      exact hgf (hfiber g (by rw [← hft]))
  · have hactive := h.active
    rw [hmode] at hactive
    change s.activeThreadCount + 1 = if mode.current.isSome then 1 else 0
    rw [hcurrent, hactive]
    rfl
  · change s.idleFiber = .exec ↔ mode = .idle
    rw [h.idle, hmode]
    refine iff_of_false (fun hm => nomatch hm) fun hm => ?_
    rw [hm] at hcurrent
    cases hcurrent

/-- Taking an item whose fiber has ended. -/
theorem Inv.drop (h : Inv tid s) (hq : s.fibers = before ++ ft :: after)
    (hbefore : ∀ x ∈ before, x.runsOn tid = false) (hruns : ft.runsOn tid = true)
    (hended : ∀ g, ft.fiber = some g → s.stateOf g ≠ .ready) {outcome : Outcome C}
    (hhandled : Handled ft outcome) :
    Inv tid { s with
      fibers := before ++ after, activeThreadCount := s.activeThreadCount + 1 - 1
      log := s.log ++ [.dispatched ft outcome] } := by
  refine { h with fifo := h.fifo_taken hq hbefore hruns outcome, handled := ?_, items := ?_, ready := ?_,
                  active := ?_ }
  · exact fun _ _ => h.handled_taken hhandled
  · intro ft' hmem
    refine h.items ft' ?_
    rw [hq]
    exact mem_of_mem_taken hmem
  · intro g hg
    refine mem_of_ne_taken (hq ▸ h.ready g hg) fun hft => ?_
    exact hended g (by rw [← hft]) hg
  · rw [Int.add_sub_cancel]
    exact h.active

end Taking

/-- The next item is a callback, and the fiber kept for callbacks has not ended: it yielded ready,
or yielded hold after that. -/
def Stuck (s : Scheduler C) (ft : FiberAndThread C) : Prop :=
  ft.fiber = none ∧ ∃ f, s.cbFiber = some f ∧ (s.stateOf f = .ready ∨ s.stateOf f = .hold)

/-- What `dispatch` does with a fiber that has ended. -/
theorem dispatch_ended {ft : FiberAndThread C} {f : ℕ} (hfiber : ft.fiber = some f) (hcb : ft.cb = none)
    (hended : s.stateOf f = .term ∨ s.stateOf f = .except) :
    s.dispatch ft = .ok { s with
      activeThreadCount := s.activeThreadCount - 1
      log := s.log ++ [.dispatched ft (.ended (some f) (some (s.stateOf f)))] } := by
  rcases hended with hstate | hstate <;>
    simp [Scheduler.dispatch, hfiber, hcb, hstate, Option.filter]

/-- What `dispatch` does with a fiber that can continue. -/
theorem dispatch_live {ft : FiberAndThread C} {f : ℕ} (hfiber : ft.fiber = some f)
    (hlive : s.stateOf f ≠ .term ∧ s.stateOf f ≠ .except) (hne : s.stateOf f ≠ .exec) :
    s.dispatch ft = .ok { s.setFiber f ⟨.exec, (s.heap f).cb⟩ with
      mode := .fiber f
      log := s.log ++ [.dispatched ft
        (if s.stateOf f = .init then .entered f (s.heap f).cb else .resumed f)] } := by
  simp [Scheduler.dispatch, hfiber, hlive, hne, Option.filter, Scheduler.swapIn, bind, Except.bind, setFiber]

/-- What `dispatch` does with a callback when the fiber for it is available. -/
theorem dispatch_callback {ft : FiberAndThread C} {c : C} {f : ℕ} {s' : Scheduler C}
    (hfiber : ft.fiber = none) (hcb : ft.cb = some c) (hok : s.callbackFiber c = .ok (s', f))
    (hfresh : s'.heap f = ⟨.init, some c⟩) :
    s.dispatch ft = .ok { s'.setFiber f ⟨.exec, some c⟩ with
      mode := .callback f
      log := s'.log ++ [.dispatched ft (.entered f (some c))] } := by
  simp [Scheduler.dispatch, hfiber, hcb, hok, hfresh, Option.filter, Scheduler.swapIn, stateOf, bind,
    Except.bind, setFiber]

section Dispatching

variable {before after : List (FiberAndThread C)} {ft : FiberAndThread C}

/-- Dispatching a fiber resumes it, enters it, or finds that it has ended. -/
theorem Inv.dispatch_fiber (h : Inv tid s) (hmode : s.mode = .loop)
    (hq : s.fibers = before ++ ft :: after) (hbefore : ∀ x ∈ before, x.runsOn tid = false)
    (hruns : ft.runsOn tid = true) {f : ℕ} (hf : f < s.fiberCount) (hfiber : ft.fiber = some f)
    (hcb : ft.cb = none) :
    ∃ s' outcome, (s.take (before ++ after)).dispatch ft = .ok s' ∧ Inv tid s' ∧ Serves s s' ft outcome ∧
      s'.fibers = before ++ after := by
  have hsame (g : ℕ) (hg : ft.fiber = some g) : g = f := by
    rw [hfiber] at hg
    exact (Option.some.inj hg).symm
  by_cases hended : s.stateOf f = .term ∨ s.stateOf f = .except
  · have hserved : Serves s { s with
        fibers := before ++ after, activeThreadCount := s.activeThreadCount + 1 - 1
        log := s.log ++ [.dispatched ft (.ended (some f) (some (s.stateOf f)))] } ft
        (.ended (some f) (some (s.stateOf f))) := by
      refine ⟨Or.inr ⟨f, hfiber, hcb, ?_⟩, rfl, fun g => ?_⟩
      · rcases hended with hstate | hstate <;> simp [hstate, hmode]
      · simp only [hmode, Mode.current]
        rfl
    refine ⟨_, _, dispatch_ended hfiber hcb hended, ?_, hserved, rfl⟩
    refine h.drop hq hbefore hruns (fun g hg hready => ?_) hserved.served.handled
    rw [hsame g hg] at hready
    simp [hready] at hended
  · have hlive := not_or.mp hended
    have hserved : Serves s { s.setFiber f ⟨.exec, (s.heap f).cb⟩ with
        fibers := before ++ after, activeThreadCount := s.activeThreadCount + 1, mode := .fiber f
        log := s.log ++ [.dispatched ft
          (if s.stateOf f = .init then .entered f (s.heap f).cb else .resumed f)] } ft
        (if s.stateOf f = .init then .entered f (s.heap f).cb else .resumed f) := by
      refine ⟨Or.inr ⟨f, hfiber, hcb, ?_⟩, rfl, fun g => ?_⟩
      · have hne := h.ne_exec hmode f
        cases hstate : s.stateOf f <;> simp_all
      · refine (stateOf_setFiber s f ⟨.exec, (s.heap f).cb⟩ g).trans ?_
        simp [Mode.current, eq_comm]
    refine ⟨_, _, dispatch_live hfiber hlive (h.ne_exec hmode f), ?_, hserved, rfl⟩
    exact h.enter hmode hq hbefore hruns (Nat.le_refl _) hf hsame h.cbFiber _ rfl hserved.served.handled _

/-- Dispatching a callback enters it, unless `cb_fiber` is kept and has not ended. -/
theorem Inv.dispatch_cb (h : Inv tid s) (hmode : s.mode = .loop)
    (hq : s.fibers = before ++ ft :: after) (hbefore : ∀ x ∈ before, x.runsOn tid = false)
    (hruns : ft.runsOn tid = true) {c : C} (hfiber : ft.fiber = none) (hcb : ft.cb = some c) :
    (Stuck s ft ∧ (s.take (before ++ after)).dispatch ft = .error .resetAssert) ∨
      (¬ Stuck s ft ∧ ∃ s' outcome, (s.take (before ++ after)).dispatch ft = .ok s' ∧ Inv tid s' ∧
        Serves s s' ft outcome ∧ s'.fibers = before ++ after) := by
  have hnofiber (n g : ℕ) (hg : ft.fiber = some g) : g = n := by
    rw [hfiber] at hg
    cases hg
  have hhandled (n : ℕ) : Handled ft (.entered n (some c)) := Or.inl ⟨c, n, hfiber, hcb, rfl⟩
  have hserved (n : ℕ) (hfree : s.fiberCount ≤ n ∨ s.stateOf n = .term ∨ s.stateOf n = .except ∨
      s.stateOf n = .init) {s' : Scheduler C} (hs' : s'.mode = .callback n)
      (hlog : s'.log = s.log ++ [.dispatched ft (.entered n (some c))])
      (hheap : s'.heap = (s.setFiber n ⟨.exec, some c⟩).heap) : Serves s s' ft (.entered n (some c)) := by
    refine ⟨Or.inl ⟨c, n, hfiber, hcb, hfree, rfl, hs'⟩, hlog, fun g => ?_⟩
    rw [stateOf, hheap, hs']
    refine (stateOf_setFiber s n ⟨.exec, some c⟩ g).trans ?_
    simp [Mode.current, eq_comm]
  cases hkept : s.cbFiber with
  | none =>
    have hok : (s.take (before ++ after)).callbackFiber c =
        .ok ({ (s.take (before ++ after)).newFiber (some c) with cbFiber := some s.fiberCount },
          s.fiberCount) := by
      unfold callbackFiber
      rw [show (s.take (before ++ after)).cbFiber = none from hkept]
      rfl
    refine Or.inr ⟨?_, _, _, dispatch_callback hfiber hcb hok (by simp [Scheduler.newFiber, take]), ?_,
      hserved s.fiberCount (Or.inl (Nat.le_refl _)) rfl rfl ?_, rfl⟩
    · rintro ⟨_, f, hsome, _⟩
      rw [hkept] at hsome
      cases hsome
    · have henter := h.enter hmode hq hbefore hruns (Nat.le_succ _) (Nat.lt_succ_self _)
        (hnofiber s.fiberCount) (fun g hg => (Option.some.inj hg) ▸ Nat.lt_succ_self _)
        (.callback s.fiberCount) rfl (hhandled s.fiberCount) (some c)
      simpa [Scheduler.newFiber, take, setFiber] using henter
    · simp [Scheduler.newFiber, take, setFiber]
  | some f =>
    by_cases hreset : s.stateOf f = .term ∨ s.stateOf f = .except ∨ s.stateOf f = .init
    · have hok : (s.take (before ++ after)).callbackFiber c =
          .ok ((s.take (before ++ after)).setFiber f ⟨.init, some c⟩, f) := by
        unfold callbackFiber
        rw [show (s.take (before ++ after)).cbFiber = some f from hkept]
        simp only [reset, show (s.take (before ++ after)).stateOf f = s.stateOf f from rfl, if_pos hreset]
        rfl
      refine Or.inr ⟨?_, _, _, dispatch_callback hfiber hcb hok (by simp [setFiber]), ?_,
        hserved f (Or.inr hreset) rfl rfl ?_, rfl⟩
      · rintro ⟨_, g, hsome, hstate⟩
        rw [hkept] at hsome
        cases hsome
        rcases hstate with hstate | hstate <;> simp [hstate] at hreset
      · have henter := h.enter hmode hq hbefore hruns (Nat.le_refl _) (h.cbFiber f hkept)
          (hnofiber f) h.cbFiber (.callback f) rfl (hhandled f) (some c)
        simpa [take, setFiber, hkept] using henter
      · simp [take, setFiber]
    · have hstuck : s.stateOf f = .ready ∨ s.stateOf f = .hold := by
        have hne := h.ne_exec hmode f
        cases hstate : s.stateOf f <;> simp_all
      refine Or.inl ⟨⟨hfiber, f, hkept, hstuck⟩, ?_⟩
      unfold Scheduler.dispatch callbackFiber
      rw [hfiber, show (s.take (before ++ after)).cbFiber = some f from hkept]
      simp only [Option.filter, hcb, reset,
        show (s.take (before ++ after)).stateOf f = s.stateOf f from rfl, if_neg hreset]
      rfl

end Dispatching

/-- One iteration of the loop: with nothing waiting the thread goes idle or returns; otherwise the
first waiting item is dispatched, which fails exactly when it is stuck. -/
theorem Inv.runOnce (h : Inv tid s) (hmode : s.mode = .loop) :
    (s.waiting tid = [] ∧ ∃ s', s.runOnce tid = .ok s' ∧ Inv tid s' ∧ s'.log = s.log ∧ s'.heap = s.heap) ∨
    ∃ ft rest, s.waiting tid = ft :: rest ∧
      ((Stuck s ft ∧ s.runOnce tid = .error .resetAssert) ∨
        (¬ Stuck s ft ∧ ∃ s' outcome, s.runOnce tid = .ok s' ∧ Inv tid s' ∧ Serves s s' ft outcome ∧
          s'.waiting tid = rest)) := by
  have hskipped (x : FiberAndThread C) (hx : x.Skipped s.stateOf tid) : x.runsOn tid = false := by
    rcases hx with hruns | hexec
    · exact hruns
    · unfold FiberAndThread.executing at hexec
      cases hfiber : x.fiber with
      | none => simp [hfiber] at hexec
      | some f => exact absurd (by simpa [hfiber] using hexec) (h.ne_exec hmode f)
  have hspec := pick_spec s.stateOf tid s.fibers
  unfold Scheduler.runOnce
  match hpick : pick s.stateOf tid s.fibers, hspec with
  | .error fault, hspec =>
    obtain ⟨x, hx, hfiber, hcb⟩ := hspec
    rcases h.items x hx with ⟨f, _, hsome, _⟩ | ⟨c, _, hsome⟩
    · rw [hfiber] at hsome
      cases hsome
    · rw [hcb] at hsome
      cases hsome
  | .ok none, hall =>
    have hnil : s.waiting tid = [] :=
      List.filter_eq_nil_iff.mpr fun x hx => by simp [hskipped x (hall x hx)]
    refine Or.inl ⟨hnil, ?_⟩
    have hbusy : s.idleFiber ≠ .exec := by
      rw [Ne, h.idle, hmode]
      exact fun hidle => nomatch hidle
    have hcur : s.mode.current = none := by
      rw [hmode]
      rfl
    by_cases hterm : s.idleFiber = .term
    · refine ⟨{ s with mode := .returned }, by simp [bind, Except.bind, hterm], ?_, rfl, rfl⟩
      exact h.atRest hcur rfl (by simp [hbusy]) s.idleThreadCount
    · refine ⟨{ s with idleThreadCount := s.idleThreadCount + 1, idleFiber := .exec, mode := .idle },
        by simp [bind, Except.bind, hterm, hbusy], ?_, rfl, rfl⟩
      exact h.atRest hcur rfl (by simp) (s.idleThreadCount + 1)
  | .ok (some (ft, rest)), ⟨before, after, hq, hrest, hbefore, hruns, _⟩ =>
    have hbefore' (x : FiberAndThread C) (hx : x ∈ before) := hskipped x (hbefore x hx)
    have hwaiting : s.waiting tid = ft :: (before ++ after).filter (FiberAndThread.runsOn tid) := by
      rw [waiting, hq, filter_taken hbefore' hruns]
    refine Or.inr ⟨ft, _, hwaiting, ?_⟩
    have hdispatch : (Stuck s ft ∧ (s.take (before ++ after)).dispatch ft = .error .resetAssert) ∨
        (¬ Stuck s ft ∧ ∃ s' outcome, (s.take (before ++ after)).dispatch ft = .ok s' ∧ Inv tid s' ∧
          Serves s s' ft outcome ∧ s'.fibers = before ++ after) := by
      rcases h.items ft (by rw [hq]; simp) with ⟨f, hf, hfiber, hcb⟩ | ⟨c, hfiber, hcb⟩
      · refine Or.inr ⟨?_, h.dispatch_fiber hmode hq hbefore' hruns hf hfiber hcb⟩
        rintro ⟨hnone, _⟩
        rw [hfiber] at hnone
        cases hnone
      · exact h.dispatch_cb hmode hq hbefore' hruns hfiber hcb
    rw [hrest]
    rcases hdispatch with ⟨hstuck, herr⟩ | ⟨hfree, s', outcome, hok, hinv, hserves, hfibers⟩
    · exact Or.inl ⟨hstuck, herr⟩
    · exact Or.inr ⟨hfree, s', outcome, hok, hinv, hserves, by rw [waiting, hfibers]⟩

/-- The step takes a callback while the fiber kept for callbacks is in state `READY` or `HOLD`. -/
def Reuses (tid : ℤ) (s : Scheduler C) (op : Op C) : Prop :=
  op = .run ∧ ∃ ft rest, s.waiting tid = ft :: rest ∧ Stuck s ft

/-- A permitted step succeeds and keeps the invariant, or fails in `Fiber::reset` because it reuses
a fiber that has not ended. -/
theorem Inv.step (h : Inv tid s) {op : Op C} (hop : Permitted s op) :
    (¬ Reuses tid s op ∧ ∃ s', s.step tid op = .ok s' ∧ Inv tid s') ∨
      (Reuses tid s op ∧ s.step tid op = .error .resetAssert) := by
  have hother (hne : op ≠ .run) : ¬ Reuses tid s op := fun hreuses => hne hreuses.1
  cases op with
  | run =>
    rcases h.runOnce hop with ⟨hnil, s', hok, hinv, _⟩ | ⟨ft, rest, hwaiting, hrun⟩
    · refine Or.inl ⟨?_, s', hok, hinv⟩
      rintro ⟨_, ft, rest, hcons, _⟩
      rw [hnil] at hcons
      cases hcons
    · rcases hrun with ⟨hstuck, herr⟩ | ⟨hfree, s', outcome, hok, hinv, _⟩
      · exact Or.inr ⟨⟨rfl, ft, rest, hwaiting, hstuck⟩, herr⟩
      · refine Or.inl ⟨?_, s', hok, hinv⟩
        rintro ⟨_, ft', rest', hcons, hstuck⟩
        rw [hwaiting] at hcons
        cases hcons
        exact hfree hstuck
  | schedule fc thread =>
    exact Or.inl ⟨hother (by simp), _, rfl, h.scheduleNoLock hop⟩
  | newFiber cb => exact Or.inl ⟨hother (by simp), _, rfl, h.newFiber cb⟩
  | start => exact Or.inl ⟨hother (by simp), _, rfl, { h with }⟩
  | stop => exact Or.inl ⟨hother (by simp), _, rfl, { h with }⟩
  | idle =>
    refine Or.inl ⟨hother (by simp), _, rfl, ?_⟩
    refine h.atRest (by rw [show s.mode = .idle from hop]; rfl) rfl ?_ (s.idleThreadCount - 1)
    split <;> simp
  | yieldToReady => exact Or.inl ⟨hother (by simp), h.swapOut fun fiber => { fiber with state := .ready }⟩
  | yieldToHold => exact Or.inl ⟨hother (by simp), h.swapOut fun fiber => { fiber with state := .hold }⟩
  | finish => exact Or.inl ⟨hother (by simp), h.swapOut fun _ => ⟨.term, none⟩⟩
  | throw => exact Or.inl ⟨hother (by simp), h.swapOut fun fiber => { fiber with state := .except }⟩

/-- The invariant holds in every reached state. -/
theorem Inv.reached (h : Runs.Reaches (Scheduler.step tid) Permitted Scheduler.init s) : Inv tid s := by
  refine h.invariant (Inv tid) Inv.init fun s op s' hs hop hok => ?_
  rcases hs.step hop with ⟨_, s'', hok', hinv⟩ | ⟨_, herr⟩
  · rw [hok'] at hok
    cases hok
    exact hinv
  · rw [herr] at hok
    cases hok

/-! ## Fibers that yield ready -/

/-- The callback an entry of the log enqueues for the thread. -/
def enqueuedCb (tid : ℤ) : LogEntry C → Option C
  | .scheduled ft => if ft.runsOn tid then ft.cb else none
  | _ => none

/-- The callback an entry of the log starts. -/
def startedCb : LogEntry C → Option C
  | .dispatched ft (.entered _ body) => if ft.fiber.isNone then body else none
  | _ => none

/-- Any part of the items that is enqueued is dispatched once, in order, or still waits. -/
theorem Inv.conserved {A : Type*} (h : Inv tid s) (part : FiberAndThread C → Option A)
    {enqueued dispatched : LogEntry C → Option A}
    (henq : ∀ e, enqueued e = ((queueAction tid e).bind Fifo.Action.pushed?).bind part)
    (hdis : ∀ e ∈ s.log, dispatched e = ((queueAction tid e).bind Fifo.Action.popped?).bind part) :
    s.log.filterMap enqueued = s.log.filterMap dispatched ++ (s.waiting tid).filterMap part := by
  have hpushed := congrArg (List.filterMap part) h.fifo.pushed_eq
  rw [List.filterMap_append, List.filterMap_filterMap, List.filterMap_filterMap,
    List.filterMap_filterMap, List.filterMap_filterMap] at hpushed
  rw [List.filterMap_congr fun e _ => henq e, List.filterMap_congr hdis]
  simpa only [Option.bind_assoc] using hpushed

/-- Callbacks are started once each, in the order of their enqueueing. -/
theorem Inv.callbacks (h : Inv tid s) :
    s.log.filterMap (enqueuedCb tid) =
      s.log.filterMap startedCb ++ (s.waiting tid).filterMap FiberAndThread.cb := by
  refine h.conserved FiberAndThread.cb (fun e => ?_) fun e he => ?_
  · cases e with
    | scheduled ft =>
      simp only [enqueuedCb, queueAction]
      split <;> rfl
    | requeued f => rfl
    | dispatched ft outcome => rfl
  · cases e with
    | scheduled ft =>
      simp only [startedCb, queueAction]
      split <;> rfl
    | requeued f => rfl
    | dispatched ft outcome =>
      rcases h.handled ft outcome he with ⟨c, f, hfiber, hcb, rfl⟩ | ⟨f, hfiber, hcb, houtcome⟩
      · simp [startedCb, queueAction, hfiber, hcb, Fifo.Action.popped?]
      · rcases houtcome with rfl | ⟨body, rfl⟩ | rfl | rfl <;>
          simp [startedCb, queueAction, hfiber, hcb, Fifo.Action.popped?]

end Scheduler

end Bobliew
