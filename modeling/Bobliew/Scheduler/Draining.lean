import Bobliew.Scheduler.Shutdown

/-!
# What stopping leaves behind

Whatever the workers of `Shutdown` do, an item that any thread may run is not left in the queue once they have
all returned: a worker that leaves a fiber ready has yet to schedule it, and scans again before it returns,
whatever the active count said in between. An idle fiber ends only when nothing is queued and nobody
executes anything. An item for one thread has no such protection: when its worker has returned early, it
keeps every other worker from returning.
-/

namespace Bobliew

variable {W C : Type*}

namespace StoppingPool

/-- A fiber in state `EXEC` is executed by a worker, a worker that has not entered `run` is where it was, one
that has returned did so from the bottom of its loop unless it never entered, nobody stops before `stop` is
called, and as long as an item for any thread is queued some worker will scan again. -/
structure Draining (s : StoppingPool W C) : Prop where
  exec : ∀ f, s.pool.states f = .exec → ∃ w callback, s.pool.phase w = .executing f callback
  fresh : ∀ w, s.entered w = false → s.pool.phase w = .scanning
  gone : ∀ w, s.returned w = true → s.pool.phase w = .idling ∧ s.idleEnded w = true ∨
    s.pool.phase w = .scanning
  requested : ∀ w, s.idleEnded w = true ∨ s.returned w = true → s.autoStop = true
  live : ∀ ft ∈ s.pool.fibers, ft.thread = -1 → ∃ w, s.Live w

/-- At the start nothing is queued. -/
theorem Draining.init : Draining (StoppingPool.init : StoppingPool W C) where
  exec f hf := by cases hf
  fresh _ _ := rfl
  gone w hw := by cases hw
  requested w hw := by rcases hw with hw | hw <;> cases hw
  live := List.forall_mem_nil _

/-- A stopping scheduler has nothing queued, and `stop` has been called. -/
theorem isStopping_iff {s : StoppingPool W C} :
    s.isStopping = true ↔
      s.autoStop = true ∧ s.stopping = true ∧ s.pool.fibers = [] ∧ s.activeThreadCount = 0 := by
  simp [isStopping, and_assoc]

section Draining

variable {s s' : StoppingPool W C} {w u : W} {p : WorkerPhase C}

/-- A worker elsewhere than at the end of its loop or at the top of it has entered `run` and not returned. -/
theorem Draining.running (h : s.Draining) (hidling : s.pool.phase w = .idling → s.idleEnded w = false)
    (hscanning : s.pool.phase w ≠ .scanning) : s.entered w = true ∧ s.returned w = false := by
  constructor
  · apply Bool.eq_true_of_not_eq_false
    intro hentered
    exact hscanning (h.fresh w hentered)
  · apply Bool.eq_false_of_not_eq_true
    intro hreturned
    rcases h.gone w hreturned with ⟨hphase, hended⟩ | hphase
    · rw [hidling hphase] at hended
      cases hended
    · exact hscanning hphase

/-- A worker in a phase other than these two has entered `run` and not returned. -/
theorem Draining.running_of_phase (h : s.Draining) (hphase : s.pool.phase w = p) (hidling : p ≠ .idling)
    (hscanning : p ≠ .scanning) : s.entered w = true ∧ s.returned w = false := by
  subst hphase
  exact h.running (fun heq => absurd heq hidling) hscanning

/-- A worker that executes a task will scan again. -/
theorem Draining.live_of_executing (h : s.Draining) {f : ℕ} {callback : Bool}
    (hphase : s.pool.phase w = .executing f callback) : s.Live w := by
  refine ⟨(h.running_of_phase hphase nofun nofun).2, fun _ => ?_⟩
  rw [hphase]
  rfl

/-- Before `stop` is called every worker will scan again. -/
theorem Draining.live_of_running (h : s.Draining) (hautoStop : s.autoStop = false) (w : W) : s.Live w := by
  constructor
  · apply Bool.eq_false_of_not_eq_true
    intro hreturned
    rw [h.requested w (Or.inr hreturned)] at hautoStop
    cases hautoStop
  · intro hended
    rw [h.requested w (Or.inl hended)] at hautoStop
    cases hautoStop

variable [DecidableEq W]

/-- A worker that moves on, not to the end of its loop unless it was headed there, leaves those that will scan
again as they were. -/
theorem Live.of_move (h : s.Live u) (hreturned : s'.returned = s.returned)
    (hended : s'.idleEnded = s.idleEnded) (hphase : s'.pool.phase = Function.update s.pool.phase w p)
    (huncounted : p.uncounted = true → (s.pool.phase w).uncounted = true) : s'.Live u := by
  constructor
  · rw [hreturned]
    exact h.1
  · intro hu
    rw [hended] at hu
    by_cases huw : u = w
    · subst huw
      rw [hphase, Function.update_self]
      apply Bool.eq_false_of_not_eq_true
      intro hp
      rw [h.2 hu] at huncounted
      cases huncounted hp
    · rw [hphase, Function.update_of_ne huw]
      exact h.2 hu

/-- A worker that has not returned moves on. -/
theorem Draining.move (h : s.Draining) (hreturned : s'.returned = s.returned) (hended : s'.idleEnded = s.idleEnded)
    (hautoStop : s'.autoStop = s.autoStop) (hphase : s'.pool.phase = Function.update s.pool.phase w p)
    (hentered : s'.entered = s.entered) (hw : s.entered w = true ∧ s.returned w = false)
    (hexec : ∀ f, s'.pool.states f = .exec → (∃ callback, p = .executing f callback) ∨
      s.pool.states f = .exec ∧ ∀ callback, s.pool.phase w ≠ .executing f callback)
    (hlive : ∀ ft ∈ s'.pool.fibers, ft.thread = -1 → ∃ u, s'.Live u) : s'.Draining where
  exec f hf := by
    rcases hexec f hf with ⟨callback, rfl⟩ | ⟨hold, hother⟩
    · exact ⟨w, callback, by rw [hphase, Function.update_self]⟩
    · obtain ⟨u, callback, hu⟩ := h.exec f hold
      have huw : u ≠ w := by
        intro heq
        rw [heq] at hu
        exact hother callback hu
      exact ⟨u, callback, by rw [hphase, Function.update_of_ne huw, hu]⟩
  fresh u hu := by
    rw [hentered] at hu
    have huw : u ≠ w := by
      intro heq
      rw [heq, hw.1] at hu
      cases hu
    rw [hphase, Function.update_of_ne huw]
    exact h.fresh u hu
  gone u hu := by
    rw [hreturned] at hu
    have huw : u ≠ w := by
      intro heq
      rw [heq, hw.2] at hu
      cases hu
    rw [hphase, hended, Function.update_of_ne huw]
    exact h.gone u hu
  requested u hu := by
    rw [hautoStop]
    rw [hended, hreturned] at hu
    exact h.requested u hu
  live := hlive

/-- A worker moves on and queues nothing. -/
theorem Draining.live_move (h : s.Draining) (hreturned : s'.returned = s.returned)
    (hended : s'.idleEnded = s.idleEnded) (hphase : s'.pool.phase = Function.update s.pool.phase w p)
    (huncounted : p.uncounted = true → (s.pool.phase w).uncounted = true)
    (hfibers : ∀ ft ∈ s'.pool.fibers, ft ∈ s.pool.fibers) :
    ∀ ft ∈ s'.pool.fibers, ft.thread = -1 → ∃ u, s'.Live u := by
  intro ft hft hthread
  obtain ⟨u, hu⟩ := h.live ft (hfibers ft hft) hthread
  exact ⟨u, hu.of_move hreturned hended hphase huncounted⟩

/-- The worker that moves on will scan again itself. -/
theorem live_of_mover (hw : s'.returned w = false) (hphase : s'.pool.phase = Function.update s.pool.phase w p)
    (huncounted : p.uncounted = false) : s'.Live w := by
  refine ⟨hw, fun _ => ?_⟩
  rw [hphase, Function.update_self]
  exact huncounted

/-- The fiber of an item that is passed over because it executes. -/
theorem exists_exec_of_executing {states : ℕ → FiberState} {ft : FiberAndThread C}
    (h : ft.executing states = true) : ∃ f, states f = .exec := by
  unfold FiberAndThread.executing at h
  cases hfiber : ft.fiber with
  | none =>
    rw [hfiber] at h
    cases h
  | some f =>
    rw [hfiber] at h
    exact ⟨f, beq_iff_eq.mp h⟩

/-- A scan. When it finds nothing, an item that is left for any thread is one whose fiber another worker is
executing. -/
theorem Draining.scan {tid : W → ℤ} {pool : Pool W C} {active : ℤ} (h : s.Draining)
    (hphase : s.pool.phase w = .scanning) (hw : s.entered w = true ∧ s.returned w = false)
    (hok : s.pool.scan tid w = .ok pool) :
    Draining { s with pool, activeThreadCount := active } := by
  have hspec := pick_spec s.pool.states (tid w) s.pool.fibers
  have hexec : ∀ f callback, s.pool.phase w ≠ .executing f callback := by
    intro f callback heq
    cases hphase.symm.trans heq
  unfold Pool.scan at hok
  split at hok
  · cases hok
  · rename_i hpick
    cases hok
    rw [hpick] at hspec
    refine h.move (w := w) rfl rfl rfl rfl rfl hw (fun f hf => Or.inr ⟨hf, hexec f⟩) ?_
    · intro ft hft hthread
      rcases hspec ft hft with hforeign | hexecuting
      · rw [Pool.runsOn_iff.mpr (Or.inl hthread)] at hforeign
        cases hforeign
      · obtain ⟨f, hf⟩ := exists_exec_of_executing hexecuting
        obtain ⟨u, callback, hu⟩ := h.exec f hf
        have huw : u ≠ w := by
          intro heq
          rw [heq] at hu
          exact hexec f callback hu
        refine ⟨u, (h.live_of_executing hu).1, fun _ => ?_⟩
        simp only [Pool.move, Function.update_of_ne huw, hu]
        rfl
  · rename_i taken rest hpick
    cases hok
    rw [hpick] at hspec
    obtain ⟨before, after, hq, rfl, -⟩ := hspec
    refine h.move (w := w) rfl rfl rfl rfl rfl hw (fun f hf => Or.inr ⟨hf, hexec f⟩) ?_
    refine h.live_move (w := w) rfl rfl rfl (fun hp => by cases hp) ?_
    intro ft hft
    rw [hq]
    rcases List.mem_append.mp hft with hbefore | hafter
    · exact List.mem_append_left _ hbefore
    · exact List.mem_append_right _ (List.mem_cons_of_mem taken hafter)

/-- A worker switches to its task, or drops it. -/
theorem Draining.swapIn {ft : FiberAndThread C} {cbFiber : ℕ} {pool : Pool W C} {active : ℤ} (h : s.Draining)
    (hphase : s.pool.phase w = .taken ft) (hok : s.pool.swapIn w ft cbFiber = .ok pool) :
    Draining { s with pool, activeThreadCount := active } := by
  have hw := h.running_of_phase hphase nofun nofun
  have hold : ∀ f callback, s.pool.phase w ≠ .executing f callback := by
    intro f callback heq
    cases hphase.symm.trans heq
  have hback : Draining { s with pool := s.pool.move w .scanning, activeThreadCount := active } := by
    refine h.move (w := w) rfl rfl rfl rfl rfl hw (fun f hf => Or.inr ⟨hf, hold f⟩) ?_
    exact h.live_move (w := w) rfl rfl rfl (fun hp => by cases hp) fun _ hft => hft
  have henter : ∀ {f callback}, s.pool.enter w f callback = .ok pool →
      Draining { s with pool, activeThreadCount := active } := by
    intro f callback henter
    unfold Pool.enter at henter
    split at henter
    · cases henter
    · cases henter
      refine h.move (w := w) (p := .executing f callback) rfl rfl rfl rfl rfl hw (fun g hg => ?_) ?_
      · by_cases hgf : g = f
        · subst hgf
          exact Or.inl ⟨callback, rfl⟩
        · simp only [Pool.move, Pool.setState, Function.update_of_ne hgf] at hg
          exact Or.inr ⟨hg, hold g⟩
      · exact h.live_move (w := w) rfl rfl rfl (fun hp => by cases hp) fun _ hft => hft
  unfold Pool.swapIn at hok
  split at hok
  · split at hok
    · exact henter hok
    · split at hok
      · exact henter hok
      · cases hok
        exact hback
  · split at hok
    · exact henter hok
    · cases hok
      exact hback

/-- What `run` does after a fiber has switched back. A fiber that is ready is queued by a worker that will
scan again. -/
theorem Draining.update {f : ℕ} {callback : Bool} {released : W → Bool} (h : s.Draining)
    (hphase : s.pool.phase w = .leaving f callback) :
    Draining { s with pool := s.pool.update w f callback, released } := by
  have hw := h.running_of_phase hphase nofun nofun
  have hold : ∀ f callback, s.pool.phase w ≠ .executing f callback := by
    intro f callback heq
    cases hphase.symm.trans heq
  have hstate : ∀ {state : FiberState}, state ≠ .exec → ∀ g,
      Function.update s.pool.states f state g = .exec → s.pool.states g = .exec := by
    intro state hstate g hg
    by_cases hgf : g = f
    · subst hgf
      rw [Function.update_self] at hg
      exact absurd hg hstate
    · rwa [Function.update_of_ne hgf] at hg
  have hback : ∀ states, (∀ g, states g = .exec → s.pool.states g = .exec) →
      Draining { s with pool := { s.pool with states }.move w .scanning, released } := by
    intro states hstates
    refine h.move (w := w) rfl rfl rfl rfl rfl hw (fun g hg => Or.inr ⟨hstates g hg, hold g⟩) ?_
    exact h.live_move (w := w) rfl rfl rfl (fun hp => by cases hp) fun _ hft => hft
  unfold Pool.update
  split
  · refine h.move (w := w) rfl rfl rfl rfl rfl hw (fun g hg => Or.inr ⟨hg, hold g⟩) fun ft hft hthread => ?_
    exact ⟨w, live_of_mover (s := s) hw.2 rfl rfl⟩
  · split
    · exact hback _ (hstate (by decide))
    · split
      · exact hback _ (hstate (by decide))
      · exact hback _ fun _ hg => hg

/-- Tasks are queued while some worker will scan again. -/
theorem Draining.schedule {tasks : List (FiberOrCb C × ℤ)} {tid : W → ℤ} {pool : Pool W C} (h : s.Draining)
    (hlive : ∃ u, s.Live u) (hok : s.pool.step tid (.schedule tasks) = .ok pool) :
    Draining { s with pool } := by
  cases hok
  exact ⟨h.exec, h.fresh, h.gone, h.requested, fun _ _ _ => hlive⟩

variable [Fintype W]

/-- Every step keeps the invariant. -/
theorem Draining.step [Nonempty W] {tid : W → ℤ} {root : Option W} {i : StoppingStep W C} (h : s.Draining)
    (hpermitted : s.Permitted root i) (hok : s.step tid root i = .ok s') : s'.Draining := by
  cases stepsTo_of_step hok with
  | stay => exact h
  | start => exact ⟨h.exec, h.fresh, h.gone, h.requested, h.live⟩
  | requestStop => exact ⟨h.exec, h.fresh, h.gone, fun _ _ => rfl, h.live⟩
  | tickles stopping hfibers hphase hstates =>
    constructor
    · intro f hf
      dsimp only at hf
      rw [hstates] at hf
      simpa only [hphase] using h.exec f hf
    · simpa only [hphase] using h.fresh
    · simpa only [hphase] using h.gone
    · exact h.requested
    · intro ft hft hthread
      dsimp only at hft
      rw [hfibers] at hft
      simpa only [Live, hphase] using h.live ft hft hthread
  | @skipRun w _ hentered hstopping =>
    obtain ⟨hautoStop, -, hfibers, -⟩ := isStopping_iff.mp hstopping
    refine ⟨h.exec, h.fresh, fun u hu => ?_, fun _ _ => hautoStop, fun ft hft => ?_⟩
    · by_cases huw : u = w
      · subst huw
        exact Or.inr (h.fresh u hentered)
      · simp only [Function.update_of_ne huw] at hu
        exact h.gone u hu
    · dsimp only at hft
      rw [hfibers] at hft
      cases hft
  | @enterRun w _ hreturned =>
    refine ⟨h.exec, fun u hu => ?_, h.gone, h.requested, h.live⟩
    by_cases huw : u = w
    · subst huw
      simp only [Function.update_self] at hu
      cases hu
    · simp only [Function.update_of_ne huw] at hu
      exact h.fresh u hu
  | @endIdle w _ hphase hstopping =>
    obtain ⟨hautoStop, -, hfibers, -⟩ := isStopping_iff.mp hstopping
    have hw := h.running_of_phase hphase nofun nofun
    have hmoved : Draining { s with pool := s.pool.move w (.woken false) } := by
      refine h.move (w := w) rfl rfl rfl rfl rfl hw (fun f hf => Or.inr ⟨hf, fun callback heq => ?_⟩) ?_
      · cases hphase.symm.trans heq
      · exact h.live_move (w := w) rfl rfl rfl (fun hp => by cases hp) fun _ hft => hft
    refine ⟨hmoved.exec, hmoved.fresh, fun u hu => ?_, fun _ _ => hautoStop, fun ft hft => ?_⟩
    · have huw : u ≠ w := by
        intro heq
        rw [heq] at hu
        cases hw.2.symm.trans hu
      simpa only [Function.update_of_ne huw] using hmoved.gone u hu
    · dsimp only [Pool.move] at hft
      rw [hfibers] at hft
      cases hft
  | release _ _ => exact ⟨h.exec, h.fresh, h.gone, h.requested, h.live⟩
  | scheduleFrom w tasks hschedule =>
    apply h.schedule ?_ hschedule
    rcases hpermitted with ⟨f, callback, hphase⟩ | ⟨⟨tickled, hphase⟩, hended⟩
    · exact ⟨w, h.live_of_executing hphase⟩
    · refine ⟨w, (h.running_of_phase hphase nofun nofun).2, fun _ => ?_⟩
      rw [hphase]
      rfl
  | schedule tasks hschedule =>
    exact h.schedule ⟨_, h.live_of_running hpermitted (Classical.arbitrary W)⟩ hschedule
  | scan hphase hrunning hscan => exact h.scan hphase hrunning hscan
  | swapIn hphase hswap => exact h.swapIn hphase hswap
  | update hphase _ => exact h.update hphase
  | @returnFromRun w hphase hended =>
    have hautoStop := h.requested w (Or.inl hended)
    refine ⟨h.exec, h.fresh, fun u hu => ?_, fun _ _ => hautoStop, fun ft hft hthread => ?_⟩
    · by_cases huw : u = w
      · subst huw
        exact Or.inl ⟨hphase, hended⟩
      · simp only [Function.update_of_ne huw] at hu
        exact h.gone u hu
    · obtain ⟨u, hu⟩ := h.live ft hft hthread
      have huw : u ≠ w := by
        intro heq
        subst heq
        have huncounted := hu.2 hended
        rw [hphase] at huncounted
        cases huncounted
      refine ⟨u, ?_, hu.2⟩
      simp only [Function.update_of_ne huw]
      exact hu.1
  | pass hpassed hended =>
    refine h.move rfl rfl rfl hpassed.phase rfl (h.running hended hpassed.scanning)
      (fun f hf => Or.inr (hpassed.exec f hf)) ?_
    refine h.live_move rfl rfl hpassed.phase hpassed.uncounted fun ft hft => ?_
    rw [← hpassed.fibers]
    exact hft

end Draining

/-- A worker that has scanned the queue. -/
theorem scan_phase [DecidableEq W] {tid : W → ℤ} {s pool : Pool W C} {w : W} (hok : s.scan tid w = .ok pool) :
    ∃ ft need, pool.phase = Function.update s.phase w (.scanned ft need) := by
  unfold Pool.scan at hok
  split at hok
  · cases hok
  · cases hok
    exact ⟨_, _, rfl⟩
  · cases hok
    exact ⟨_, _, rfl⟩

/-- A worker that has dealt with the item it had taken as far as the switch. -/
theorem swapIn_phase [DecidableEq W] {s pool : Pool W C} {w : W} {ft : FiberAndThread C} {cbFiber : ℕ}
    (hok : s.swapIn w ft cbFiber = .ok pool) : ∃ p, pool.phase = Function.update s.phase w p := by
  obtain ⟨-, ⟨f, -, hphase⟩ | ⟨-, hphase⟩ | hphase⟩ := Pool.swapIn_cases hok
  · exact ⟨_, hphase⟩
  · exact ⟨_, hphase⟩
  · exact ⟨_, hphase⟩

/-- A worker that has dealt with its fiber is active no longer. -/
theorem update_phase [DecidableEq W] (s : Pool W C) (w : W) (f : ℕ) (callback : Bool) :
    ∃ p, (s.update w f callback).phase = Function.update s.phase w p ∧ p.active false = 0 := by
  unfold Pool.update
  split_ifs
  · exact ⟨_, rfl, rfl⟩
  · exact ⟨.scanning, rfl, rfl⟩
  · exact ⟨.scanning, rfl, rfl⟩
  · exact ⟨.scanning, rfl, rfl⟩

section Counted

variable [Fintype W] {s s' : StoppingPool W C} {w : W}

/-- The active count is that of the phases, and only a worker whose fiber has switched back is off the count
before its turn. -/
structure Counted (s : StoppingPool W C) : Prop where
  count : s.activeThreadCount = ∑ w, ((s.pool.phase w).active (s.released w) : ℕ)
  released : ∀ w, s.released w = true → ∃ f callback, s.pool.phase w = .leaving f callback

/-- At the start nobody is active. -/
theorem Counted.init : Counted (StoppingPool.init : StoppingPool W C) where
  count := by simp [StoppingPool.init, Pool.init, WorkerPhase.active]
  released w hw := by cases hw

/-- A worker that no fiber has switched back to is on the count as its phase says. -/
theorem Counted.released_eq_false (h : s.Counted) (hleaving : ∀ f callback, s.pool.phase w ≠ .leaving f callback) :
    s.released w = false := by
  apply Bool.eq_false_of_not_eq_true
  intro hreleased
  obtain ⟨f, callback, hphase⟩ := h.released w hreleased
  exact hleaving f callback hphase

variable [DecidableEq W]

/-- A worker moves on, and the count with it. -/
theorem Counted.move (h : s.Counted) {p : WorkerPhase C} {r : Bool}
    (hphase : s'.pool.phase = Function.update s.pool.phase w p)
    (hreleased : s'.released = Function.update s.released w r)
    (hr : r = true → ∃ f callback, p = .leaving f callback)
    (hcount : s'.activeThreadCount + (s.pool.phase w).active (s.released w) = s.activeThreadCount + p.active r) :
    s'.Counted where
  count := by
    have hplace : (fun u => (s'.pool.phase u).active (s'.released u)) = fun u =>
        (Function.update (fun u => (s.pool.phase u, s.released u)) w (p, r) u).1.active
          (Function.update (fun u => (s.pool.phase u, s.released u)) w (p, r) u).2 := by
      funext u
      rw [hphase, hreleased]
      by_cases huw : u = w
      · subst huw
        simp only [Function.update_self]
      · simp only [Function.update_of_ne huw]
    have hsum := Runs.sum_update (fun u => (s.pool.phase u, s.released u)) (fun x => x.1.active x.2) w (p, r)
    dsimp only at hsum
    have hold := h.count
    rw [show (∑ u, ((s'.pool.phase u).active (s'.released u) : ℕ)) = _ from Finset.sum_congr rfl fun u _ =>
      congrFun hplace u]
    omega
  released u hu := by
    rw [hreleased] at hu
    rw [hphase]
    by_cases huw : u = w
    · subst huw
      rw [Function.update_self] at hu
      obtain ⟨f, callback, rfl⟩ := hr hu
      exact ⟨f, callback, Function.update_self _ _ _⟩
    · rw [Function.update_of_ne huw] at hu
      rw [Function.update_of_ne huw]
      exact h.released u hu

/-- A worker that no fiber has switched back to moves on. -/
theorem Counted.move_counted (h : s.Counted) {p : WorkerPhase C}
    (hphase : s'.pool.phase = Function.update s.pool.phase w p) (hreleased : s'.released = s.released)
    (hleaving : ∀ f callback, s.pool.phase w ≠ .leaving f callback)
    (hcount : s'.activeThreadCount + (s.pool.phase w).active false = s.activeThreadCount + p.active false) :
    s'.Counted := by
  have hfalse := h.released_eq_false hleaving
  apply h.move (r := false) hphase
  · rw [hreleased, ← hfalse, Function.update_eq_self]
  · intro htrue
    cases htrue
  · rw [hfalse]
    exact hcount

/-- Every step keeps the count. -/
theorem Counted.step {tid : W → ℤ} {root : Option W} {i : StoppingStep W C} (h : s.Counted)
    (hok : s.step tid root i = .ok s') : s'.Counted := by
  cases stepsTo_of_step hok with
  | stay => exact h
  | start => exact ⟨h.count, h.released⟩
  | requestStop => exact ⟨h.count, h.released⟩
  | tickles stopping hfibers hphase hstates =>
    exact ⟨by simpa only [hphase] using h.count, by simpa only [hphase] using h.released⟩
  | skipRun _ _ => exact ⟨h.count, h.released⟩
  | enterRun _ => exact ⟨h.count, h.released⟩
  | endIdle hphase _ =>
    refine h.move_counted (p := .woken false) rfl rfl (fun f callback heq => ?_) ?_
    · cases hphase.symm.trans heq
    · rw [hphase]
      rfl
  | @release w f callback hphase hreleased =>
    refine h.move (w := w) (r := true) (p := .leaving f callback) ?_ rfl (fun _ => ⟨f, callback, rfl⟩) ?_
    · rw [← hphase, Function.update_eq_self]
    · rw [hphase, hreleased]
      simp [WorkerPhase.active]
  | scheduleFrom w tasks hschedule =>
    cases hschedule
    exact ⟨h.count, h.released⟩
  | schedule tasks hschedule =>
    cases hschedule
    exact ⟨h.count, h.released⟩
  | scan hphase _ hscan =>
    obtain ⟨ft, need, hnext⟩ := scan_phase hscan
    refine h.move_counted hnext rfl (fun f callback heq => ?_) ?_
    · cases hphase.symm.trans heq
    · rw [hphase, hnext, Function.update_self]
      simp [WorkerPhase.active]
  | @swapIn w cbFiber ft pool hphase hswap =>
    obtain ⟨p, hnext⟩ := swapIn_phase hswap
    have hone : (WorkerPhase.taken ft).active false = 1 := rfl
    refine h.move_counted hnext rfl (fun f callback heq => ?_) ?_
    · cases hphase.symm.trans heq
    · rw [hphase, hnext, Function.update_self, hone]
      dsimp only
      omega
  | @update w f callback hphase hreleased =>
    obtain ⟨p, hnext, hactive⟩ := update_phase s.pool w f callback
    refine h.move hnext rfl (fun htrue => ?_) ?_
    · cases htrue
    · rw [hphase, hreleased, hactive]
      rfl
  | returnFromRun _ _ => exact ⟨h.count, h.released⟩
  | pass hpassed _ =>
    refine h.move_counted hpassed.phase rfl hpassed.leaving ?_
    rw [hpassed.active]

end Counted

/-! ## What holds when the workers are gone -/

/-- `schedule` takes nothing out of the queue. -/
theorem mem_scheduleRange_of_mem {q : List (FiberAndThread C)} {tasks : List (FiberOrCb C × ℤ)}
    {ft : FiberAndThread C} (h : ft ∈ q) : ft ∈ (scheduleRange q tasks).1 := by
  have happend : ∀ (tasks : List (FiberOrCb C × ℤ)) (acc : List (FiberAndThread C) × Bool), ft ∈ acc.1 →
      ft ∈ (tasks.foldl (fun acc task =>
        let r := scheduleNoLock acc.1 task.1 task.2
        (r.1, r.2 || acc.2)) acc).1 := by
    intro tasks
    induction tasks with
    | nil => exact fun acc hacc => hacc
    | cons task tasks ih =>
      intro acc hacc
      rw [List.foldl_cons]
      apply ih
      dsimp only [scheduleNoLock]
      split
      · exact List.mem_append_left _ hacc
      · exact hacc
  exact happend tasks (q, false) h

/-- A scan leaves the items of other workers in the queue. -/
theorem scan_mem [DecidableEq W] {tid : W → ℤ} {s pool : Pool W C} {w : W} {ft : FiberAndThread C}
    (hok : s.scan tid w = .ok pool) (hft : ft ∈ s.fibers) (hforeign : ft.runsOn (tid w) = false) :
    ft ∈ pool.fibers := by
  have hspec := pick_spec s.states (tid w) s.fibers
  unfold Pool.scan at hok
  split at hok
  · cases hok
  · cases hok
    exact hft
  · rename_i taken rest hpick
    cases hok
    rw [hpick] at hspec
    obtain ⟨before, after, hq, rfl, -, hruns, -⟩ := hspec
    rw [hq] at hft
    rcases List.mem_append.mp hft with hbefore | hrest
    · exact List.mem_append_left _ hbefore
    · rcases List.mem_cons.mp hrest with rfl | hafter
      · rw [hruns] at hforeign
        cases hforeign
      · exact List.mem_append_right _ hafter

/-- A fiber that has switched back takes nothing out of the queue. -/
theorem update_mem [DecidableEq W] {s : Pool W C} {w : W} {f : ℕ} {callback : Bool} {ft : FiberAndThread C}
    (hft : ft ∈ s.fibers) : ft ∈ (s.update w f callback).fibers := by
  unfold Pool.update
  split_ifs
  · exact List.mem_append_left _ hft
  · exact hft
  · exact hft
  · exact hft

section Runs

variable [DecidableEq W] [Fintype W] {tid : W → ℤ} {root : Option W} {s s' : StoppingPool W C}

/-- Both invariants hold in every reachable state. -/
theorem invariants [Nonempty W] (h : Runs.Reaches (step tid root) (Permitted root) (init : StoppingPool W C) s) :
    s.Draining ∧ s.Counted := by
  refine h.invariant (fun s => s.Draining ∧ s.Counted) ⟨.init, .init⟩ fun s i s' hs hpermitted hok => ?_
  exact ⟨hs.1.step hpermitted hok, hs.2.step hok⟩

/-- When every worker has returned, `stop` was called, nothing is queued that any thread might have run, and
no fiber is executing. -/
theorem drained [Nonempty W] (tid : W → ℤ) (root : Option W)
    (h : Runs.Reaches (step tid root) (Permitted root) (init : StoppingPool W C) s)
    (hreturned : ∀ w, s.returned w = true) :
    s.autoStop = true ∧ (∀ ft ∈ s.pool.fibers, ft.thread ≠ -1) ∧ ∀ f, s.pool.states f ≠ .exec := by
  obtain ⟨hdraining, -⟩ := invariants h
  refine ⟨hdraining.requested (Classical.arbitrary W) (Or.inr (hreturned _)), fun ft hft hthread => ?_,
    fun f hf => ?_⟩
  · obtain ⟨w, hlive, -⟩ := hdraining.live ft hft hthread
    rw [hreturned w] at hlive
    cases hlive
  · obtain ⟨w, callback, hphase⟩ := hdraining.exec f hf
    have hlive := (hdraining.live_of_executing hphase).1
    rw [hreturned w] at hlive
    cases hlive

/-- Two workers. The fiber that one of them runs yields ready, and while nobody holds it the other one finds the
scheduler stopping and returns. The first worker then schedules the fiber again, runs it to its end, finds nothing
more, goes idle and returns too. -/
theorem reaches_returned :
    ∃ s s₁ s₂ : StoppingPool Bool Unit,
      Runs.Reaches (step PinnedPool.twoThreads none) (Permitted none) (init : StoppingPool Bool Unit) s ∧
        s.step PinnedPool.twoThreads none (.checkStopping false true) = .ok s₁ ∧ s.idleEnded false = false ∧
        s₁.idleEnded false = true ∧
        Runs.Reaches (step PinnedPool.twoThreads none) (Permitted none) (init : StoppingPool Bool Unit) s₂ ∧
        (∀ w, s₂.returned w = true) ∧ s₂.pool.states 0 = .term := by
  have hqueued : Runs.Reaches (step PinnedPool.twoThreads none) (Permitted none) (init : StoppingPool Bool Unit) _ :=
    .next .start (.pool (.schedule [(.fiber (some 0), -1)])) rfl rfl
  have hstarted := ((hqueued.next .start rfl rfl).next (.enterRun false true) nofun rfl).next
    (.enterRun true true) nofun rfl
  have htaken := (hstarted.next (.pool (.scan false)) trivial rfl).next (.pool (.tickleMe false)) trivial rfl
  have hleaving := (htaken.next (.pool (.swapIn false 1)) trivial rfl).next
    (.pool (.publish false .yieldToReady)) trivial rfl
  have hreleased := hleaving.next (.release false) trivial rfl
  have hstopped := (hreleased.next .requestStop trivial rfl).next .stop rfl rfl
  have hempty := (hstopped.next (.pool (.scan true)) trivial rfl).next (.pool (.tickleMe true)) trivial rfl
  have hended := (hempty.next (.pool (.enterIdle true)) trivial rfl).next (.checkStopping true true) trivial rfl
  have hback := (hended.next (.pool (.leaveIdle true)) trivial rfl).next (.pool (.scan true)) trivial rfl
  have hfirst := (hback.next (.pool (.tickleMe true)) trivial rfl).next (.pool (.enterIdle true)) trivial rfl
  have hrequeued := (hfirst.next (.pool (.update false)) trivial rfl).next
    (.pool (.requeueTickle false)) trivial rfl
  have hagain := (hrequeued.next (.pool (.scan false)) trivial rfl).next (.pool (.tickleMe false)) trivial rfl
  have hfinished := (hagain.next (.pool (.swapIn false 1)) trivial rfl).next
    (.pool (.publish false .finish)) trivial rfl
  have hdone := (hfinished.next (.release false) trivial rfl).next (.pool (.update false)) trivial rfl
  have hnothing := (hdone.next (.pool (.scan false)) trivial rfl).next (.pool (.tickleMe false)) trivial rfl
  have hpolling := hnothing.next (.pool (.enterIdle false)) trivial rfl
  have hlast := hpolling.next (.checkStopping false true) trivial rfl
  have hout := (hlast.next (.pool (.leaveIdle false)) trivial rfl).next (.pool (.scan false)) trivial rfl
  have hreturned := (hout.next (.pool (.tickleMe false)) trivial rfl).next (.pool (.enterIdle false)) trivial rfl
  refine ⟨_, _, _, hpolling, rfl, rfl, rfl, hreturned, fun w => ?_, rfl⟩
  cases w <;> rfl

/-- Both workers return after the fiber that yielded has ended. -/
theorem drained_twoWorkers :
    ∃ s : StoppingPool Bool Unit, (∀ w, s.returned w = true) ∧ s.pool.states 0 = .term ∧ s.autoStop = true ∧
      (∀ ft ∈ s.pool.fibers, ft.thread ≠ -1) ∧ ∀ f, s.pool.states f ≠ .exec := by
  obtain ⟨-, -, s, -, -, -, -, hreached, hreturned, hended⟩ := reaches_returned
  exact ⟨s, hreturned, hended, drained PinnedPool.twoThreads none hreached hreturned⟩

/-- Only a check that finds the scheduler stopping ends an idle fiber. -/
theorem idleEnded_of_step {i : StoppingStep W C} (hok : s.step tid root i = .ok s') :
    s'.idleEnded = s.idleEnded ∨ s.isStopping = true := by
  cases stepsTo_of_step hok with
  | endIdle _ hstopping => exact Or.inr hstopping
  | _ => exact Or.inl rfl

/-- A worker whose phase adds nothing to the active count holds no item. -/
theorem held_of_active {p : WorkerPhase C} {released : Bool} (h : p.active released = 0) : p.held = none := by
  cases p with
  | scanned ft need =>
    cases ft with
    | none => rfl
    | some ft => cases h
  | taken ft => cases h
  | _ => rfl

/-- A worker that holds an item, or executes one until its unit is taken off the count. -/
def Busy (s : StoppingPool W C) (w : W) : Prop :=
  (s.pool.phase w).held ≠ none ∨ (∃ f callback, s.pool.phase w = .executing f callback) ∨
    (∃ f callback, s.pool.phase w = .leaving f callback) ∧ s.released w = false

omit [DecidableEq W] [Fintype W] in
/-- What a worker contributes to the active count says whether it is busy. -/
theorem active_eq (s : StoppingPool W C) (w : W) [Decidable (s.Busy w)] :
    (s.pool.phase w).active (s.released w) = if s.Busy w then 1 else 0 := by
  have hiff : (s.pool.phase w).active (s.released w) = 1 ∧ s.Busy w ∨
      (s.pool.phase w).active (s.released w) = 0 ∧ ¬s.Busy w := by
    unfold Busy
    cases hphase : s.pool.phase w with
    | scanned ft need => cases ft <;> simp [WorkerPhase.active, WorkerPhase.held]
    | leaving f callback => cases hreleased : s.released w <;> simp [WorkerPhase.active, WorkerPhase.held]
    | _ => simp [WorkerPhase.active, WorkerPhase.held]
  rcases hiff with ⟨hactive, hbusy⟩ | ⟨hactive, hbusy⟩
  · rw [hactive, if_pos hbusy]
  · rw [hactive, if_neg hbusy]

omit [DecidableEq W] in
/-- The active count is the number of busy workers. -/
theorem Counted.activeThreadCount_eq (h : s.Counted) : s.activeThreadCount = ({w | s.Busy w}.ncard : ℤ) := by
  classical
  rw [h.count, Set.ncard_eq_toFinset_card']
  simp only [active_eq, Finset.sum_boole, Set.toFinset_ofPred, Nat.cast_id]

/-- In every state that is reached the active count is the number of workers that hold an item or execute one. So a
worker's idle fiber ends only after `stop` was called and while nothing is queued, nothing is in the hands of a
worker, and no fiber is executing. -/
theorem idle_ends_at_rest [Nonempty W] (tid : W → ℤ) (root : Option W)
    (h : Runs.Reaches (step tid root) (Permitted root) (init : StoppingPool W C) s) :
    s.activeThreadCount = ({w | s.Busy w}.ncard : ℤ) ∧
      ∀ (w : W) (i : StoppingStep W C) (s' : StoppingPool W C), s.step tid root i = .ok s' →
        s.idleEnded w = false → s'.idleEnded w = true →
          s.autoStop = true ∧ s.pool.fibers = [] ∧ (∀ u, (s.pool.phase u).held = none) ∧
            ∀ f, s.pool.states f ≠ .exec := by
  obtain ⟨hdraining, hcounted⟩ := invariants h
  refine ⟨hcounted.activeThreadCount_eq, fun w i s' hok hold hnew => ?_⟩
  have hstopping : s.isStopping = true := by
    rcases idleEnded_of_step hok with hsame | hstopping
    · rw [hsame, hold] at hnew
      cases hnew
    · exact hstopping
  obtain ⟨hautoStop, -, hfibers, hzero⟩ := isStopping_iff.mp hstopping
  have hactive : ∀ u, (s.pool.phase u).active (s.released u) = 0 := by
    have hsum : (∑ u, (s.pool.phase u).active (s.released u)) = 0 := by
      have hcount := hcounted.count
      rw [hzero] at hcount
      exact_mod_cast hcount.symm
    exact fun u => Finset.sum_eq_zero_iff.mp hsum u (Finset.mem_univ u)
  refine ⟨hautoStop, hfibers, fun u => held_of_active (hactive u), fun f hf => ?_⟩
  obtain ⟨u, callback, hphase⟩ := hdraining.exec f hf
  have hu := hactive u
  rw [hphase] at hu
  cases hu

/-- The last check of the worker that has run the fiber to its end. -/
theorem idle_ends_at_rest_twoWorkers :
    ∃ s s' : StoppingPool Bool Unit, s.step PinnedPool.twoThreads none (.checkStopping false true) = .ok s' ∧
      s'.idleEnded false = true ∧ s.activeThreadCount = ({w | s.Busy w}.ncard : ℤ) ∧ s.pool.fibers = [] ∧
        ∀ f, s.pool.states f ≠ .exec := by
  obtain ⟨s, s', -, hreached, hok, hold, hnew, -⟩ := reaches_returned
  obtain ⟨hcount, hends⟩ := idle_ends_at_rest PinnedPool.twoThreads none hreached
  obtain ⟨-, hfibers, -, hrest⟩ := hends false _ s' hok hold hnew
  exact ⟨s, s', hok, hnew, hcount, hfibers, hrest⟩

/-- An item of a worker that has returned, as seen by the others. -/
structure LeftBehind (tid : W → ℤ) (s₀ : StoppingPool W C) (w : W) (ft : FiberAndThread C)
    (s : StoppingPool W C) : Prop where
  returned : s.returned w = true
  queued : ft ∈ s.pool.fibers
  waiting : ∀ u, s₀.idleEnded u = false → s₀.returned u = false → s.idleEnded u = false ∧ s.returned u = false

/-- No step takes the item, and nobody stops. -/
theorem LeftBehind.step {s₀ : StoppingPool W C} {w : W} {ft : FiberAndThread C} {i : StoppingStep W C}
    (htid : Function.Injective tid) (hthread : ft.thread = tid w) (hpinned : ft.thread ≠ -1)
    (h : LeftBehind tid s₀ w ft s) (hok : s.step tid root i = .ok s') : LeftBehind tid s₀ w ft s' := by
  have hbusy : s.isStopping ≠ true := by
    intro hstopping
    have hqueued := h.queued
    rw [(isStopping_iff.mp hstopping).2.2.1] at hqueued
    cases hqueued
  cases stepsTo_of_step hok with
  | stay => exact h
  | start => exact ⟨h.returned, h.queued, h.waiting⟩
  | requestStop => exact ⟨h.returned, h.queued, h.waiting⟩
  | tickles stopping hfibers _ _ =>
    refine ⟨h.returned, ?_, h.waiting⟩
    dsimp only
    rw [hfibers]
    exact h.queued
  | skipRun _ hstopping => exact absurd hstopping hbusy
  | enterRun _ => exact ⟨h.returned, h.queued, h.waiting⟩
  | endIdle _ hstopping => exact absurd hstopping hbusy
  | release _ _ => exact ⟨h.returned, h.queued, h.waiting⟩
  | scheduleFrom u tasks hschedule =>
    cases hschedule
    exact ⟨h.returned, mem_scheduleRange_of_mem h.queued, h.waiting⟩
  | schedule tasks hschedule =>
    cases hschedule
    exact ⟨h.returned, mem_scheduleRange_of_mem h.queued, h.waiting⟩
  | @scan u pool _ hrunning hscan =>
    refine ⟨h.returned, ?_, h.waiting⟩
    have huw : u ≠ w := by
      intro heq
      rw [heq, h.returned] at hrunning
      cases hrunning.2
    have hforeign : ft.runsOn (tid u) = false := by
      apply Bool.eq_false_of_not_eq_true
      intro hruns
      rcases Pool.runsOn_iff.mp hruns with hany | hown
      · exact hpinned hany
      · exact huw (htid (hown.symm.trans hthread))
    exact scan_mem hscan h.queued hforeign
  | swapIn _ hswap =>
    refine ⟨h.returned, ?_, h.waiting⟩
    dsimp only
    rw [(Pool.swapIn_cases hswap).1]
    exact h.queued
  | update _ _ => exact ⟨h.returned, update_mem h.queued, h.waiting⟩
  | @returnFromRun u _ hended =>
    refine ⟨?_, h.queued, fun v hv hv' => ?_⟩
    · by_cases hwu : w = u
      · subst hwu
        exact Function.update_self _ _ _
      · dsimp only
        rw [Function.update_of_ne hwu]
        exact h.returned
    · obtain ⟨hwaiting, hinside⟩ := h.waiting v hv hv'
      have hvu : v ≠ u := by
        intro heq
        rw [heq, hended] at hwaiting
        cases hwaiting
      refine ⟨hwaiting, ?_⟩
      dsimp only
      rw [Function.update_of_ne hvu]
      exact hinside
  | pass hpassed _ =>
    refine ⟨h.returned, ?_, h.waiting⟩
    dsimp only
    rw [hpassed.fibers]
    exact h.queued

/-- An item bound to a worker that has returned stays in the queue whatever happens, and no worker whose idle
fiber has not ended by then ever returns, so that `stop` waits for it for ever. -/
theorem left_behind (tid : W → ℤ) (root : Option W) (htid : Function.Injective tid) {w : W}
    (ft : FiberAndThread C) (hreturned : s.returned w = true) (hft : ft ∈ s.pool.fibers)
    (hthread : ft.thread = tid w) (hpinned : ft.thread ≠ -1)
    (h : Runs.Reaches (step tid root) (fun _ _ => True) s s') :
    ft ∈ s'.pool.fibers ∧
      ∀ u, s.idleEnded u = false → s.returned u = false → s'.idleEnded u = false ∧ s'.returned u = false := by
  have hleft : LeftBehind tid s w ft s' := by
    refine h.invariant (LeftBehind tid s w ft) ⟨hreturned, hft, fun u hu hu' => ⟨hu, hu'⟩⟩ ?_
    exact fun t i t' ht _ hok => ht.step htid hthread hpinned hok
  exact ⟨hleft.queued, hleft.waiting⟩

/-- A fiber yields ready on thread 1, and while nobody holds it the worker of thread 2 finds the scheduler
stopping and returns. The fiber goes on and schedules a callback for thread 2. -/
theorem left_behind_yieldToReady :
    ∃ s : StoppingPool Bool Unit,
      Runs.Reaches (step PinnedPool.twoThreads none) (Permitted none) (init : StoppingPool Bool Unit) s ∧
        ∀ s', Runs.Reaches (step PinnedPool.twoThreads none) (fun _ _ => True) s s' →
          ⟨none, some (), 2⟩ ∈ s'.pool.fibers ∧ s'.returned false = false := by
  have hqueued : Runs.Reaches (step PinnedPool.twoThreads none) (Permitted none) (init : StoppingPool Bool Unit) _ :=
    .next .start (.pool (.schedule [(.fiber (some 0), -1)])) rfl rfl
  have hstarted := ((hqueued.next .start rfl rfl).next (.enterRun false true) nofun rfl).next
    (.enterRun true true) nofun rfl
  have htaken := (hstarted.next (.pool (.scan false)) trivial rfl).next (.pool (.tickleMe false)) trivial rfl
  have hleaving := (htaken.next (.pool (.swapIn false 1)) trivial rfl).next
    (.pool (.publish false .yieldToReady)) trivial rfl
  have hreleased := hleaving.next (.release false) trivial rfl
  have hstopped := (hreleased.next .requestStop trivial rfl).next .stop rfl rfl
  have hempty := (hstopped.next (.pool (.scan true)) trivial rfl).next (.pool (.tickleMe true)) trivial rfl
  have hended := (hempty.next (.pool (.enterIdle true)) trivial rfl).next (.checkStopping true true) trivial rfl
  have hback := (hended.next (.pool (.leaveIdle true)) trivial rfl).next (.pool (.scan true)) trivial rfl
  have hreturned := (hback.next (.pool (.tickleMe true)) trivial rfl).next (.pool (.enterIdle true)) trivial rfl
  have hrequeued := (hreturned.next (.pool (.update false)) trivial rfl).next
    (.pool (.requeueTickle false)) trivial rfl
  have hagain := (hrequeued.next (.pool (.scan false)) trivial rfl).next (.pool (.tickleMe false)) trivial rfl
  have hresumed := hagain.next (.pool (.swapIn false 1)) trivial rfl
  have hpinned := hresumed.next (.scheduleFrom false [(.cb (some ()), 2)]) (Or.inl ⟨0, false, rfl⟩) rfl
  have htid : Function.Injective PinnedPool.twoThreads := by
    intro a b hab
    cases a with
    | false =>
      cases b with
      | false => rfl
      | true => cases hab
    | true =>
      cases b with
      | false => cases hab
      | true => rfl
  refine ⟨_, hpinned, fun s' hs' => ?_⟩
  have hleft := left_behind PinnedPool.twoThreads none htid (w := true) ⟨none, some (), 2⟩ rfl
    List.mem_cons_self rfl (by decide) hs'
  exact ⟨hleft.1, (hleft.2 false rfl rfl).2⟩

end Runs

end StoppingPool

end Bobliew
