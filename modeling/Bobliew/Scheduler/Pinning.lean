import Bobliew.IOManager.Wakeup

/-!
# Tasks bound to a thread

`schedule(fc, t)` binds a task to the thread `t` through the `thread` field of its queue entry, which
`run` compares with its own id and drops with the entry. The workers of `Wakeup` are watched: which
thread each fiber was last explicitly scheduled for, and on which thread it was resumed. A callback is
bound through the fiber that runs it, and which fiber that is is left open. A fiber that ends is bound
no longer.
-/

namespace Bobliew

variable {W C : Type*}

/-- The queue entry a worker has taken and not yet switched to. -/
def WorkerPhase.held : WorkerPhase C → Option (FiberAndThread C)
  | .scanned ft _ => ft
  | .taken ft => some ft
  | _ => none

namespace Pool

/-- A worker may yet resume a fiber: an entry of the fiber is queued that the worker may take, or is in
its hands. -/
def MayRun (tid : W → ℤ) (s : Pool W C) (w : W) (f : ℕ) : Prop :=
  ∃ ft : FiberAndThread C, ft.fiber = some f ∧
    (ft ∈ s.fibers ∧ ft.runsOn (tid w) = true ∨ (s.phase w).held = some ft)

/-- The workers that may resume a fiber because of a step: `schedule` was called, or `run` has scheduled
a fiber again that has yielded ready. -/
def Adds (tid : W → ℤ) (s : Pool W C) (i : PoolStep W C) (w : W) (f : ℕ) : Prop :=
  match i with
  | .schedule tasks => ∃ t, (FiberOrCb.fiber (some f), t) ∈ tasks ∧ (t = -1 ∨ t = tid w)
  | .update u => (∃ callback, s.phase u = .leaving f callback) ∧ s.states f = .ready
  | _ => False

/-- A worker resumes only what it could before or what has been added, and has taken only entries it is
allowed to run. -/
structure Carried (tid : W → ℤ) (adds : W → ℕ → Prop) (s s' : Pool W C) : Prop where
  mayRun : ∀ w f, s'.MayRun tid w f → s.MayRun tid w f ∨ adds w f
  held : ∀ w ft, (s'.phase w).held = some ft → (s.phase w).held = some ft ∨ ft.runsOn (tid w) = true

/-- A fiber with an entry for every thread or for this one. -/
theorem runsOn_iff {tid : ℤ} {ft : FiberAndThread C} :
    ft.runsOn tid = true ↔ ft.thread = -1 ∨ ft.thread = tid := by
  simp [FiberAndThread.runsOn]

/-- A tickle leaves the queue alone. -/
theorem tickleIf_fibers (s : Pool W C) (need : Bool) : (s.tickleIf need).fibers = s.fibers := by
  unfold tickleIf tickle
  split_ifs <;> rfl

/-- `schedule` appends entries of the tasks it is given. -/
theorem mem_scheduleRange {q : List (FiberAndThread C)} {tasks : List (FiberOrCb C × ℤ)}
    {ft : FiberAndThread C} (h : ft ∈ (scheduleRange q tasks).1) :
    ft ∈ q ∨ ∃ task ∈ tasks, ft = task.1.item task.2 := by
  have happend : ∀ (tasks : List (FiberOrCb C × ℤ)) (acc : List (FiberAndThread C) × Bool),
      ft ∈ (tasks.foldl (fun acc task =>
        let r := scheduleNoLock acc.1 task.1 task.2
        (r.1, r.2 || acc.2)) acc).1 → ft ∈ acc.1 ∨ ∃ task ∈ tasks, ft = task.1.item task.2 := by
    intro tasks
    induction tasks with
    | nil => exact fun _ hft => Or.inl hft
    | cons task tasks ih =>
      intro acc hft
      rw [List.foldl_cons] at hft
      rcases ih _ hft with hold | ⟨task', htask', heq⟩
      · simp only [scheduleNoLock] at hold
        split at hold
        · rcases List.mem_append.mp hold with hq | hnew
          · exact Or.inl hq
          · exact Or.inr ⟨task, List.mem_cons_self, List.mem_singleton.mp hnew⟩
        · exact Or.inl hold
      · exact Or.inr ⟨task', List.mem_cons_of_mem task htask', heq⟩
  exact happend tasks (q, false) h

section Carried

variable {tid : W → ℤ} {adds : W → ℕ → Prop} {s s' : Pool W C} {w : W}

/-- Neither the queue nor a phase has changed. -/
theorem carried_of_same (hfibers : s'.fibers = s.fibers) (hphase : s'.phase = s.phase) :
    Carried tid adds s s' where
  mayRun w f h := by
    unfold MayRun at h
    rw [hfibers, hphase] at h
    exact Or.inl h
  held w ft h := by
    rw [hphase] at h
    exact Or.inl h

variable [DecidableEq W]

/-- A worker moves on without another entry. -/
theorem carried_of_move {p : WorkerPhase C} (hfibers : s'.fibers = s.fibers)
    (hphase : s'.phase = Function.update s.phase w p)
    (hheld : ∀ ft, p.held = some ft → (s.phase w).held = some ft) : Carried tid adds s s' := by
  have hkeep : ∀ u ft, (s'.phase u).held = some ft → (s.phase u).held = some ft := by
    intro u ft hu
    rw [hphase] at hu
    by_cases huw : u = w
    · subst huw
      rw [Function.update_self] at hu
      exact hheld ft hu
    · rw [Function.update_of_ne huw] at hu
      exact hu
  constructor
  · rintro u f ⟨ft, hfiber, ⟨hft, hruns⟩ | hu⟩
    · rw [hfibers] at hft
      exact Or.inl ⟨ft, hfiber, Or.inl ⟨hft, hruns⟩⟩
    · exact Or.inl ⟨ft, hfiber, Or.inr (hkeep u ft hu)⟩
  · intro u ft hu
    exact Or.inl (hkeep u ft hu)

/-- A worker moves on empty-handed. -/
theorem carried_of_drop {p : WorkerPhase C} (hfibers : s'.fibers = s.fibers)
    (hphase : s'.phase = Function.update s.phase w p) (hnone : p.held = none) : Carried tid adds s s' := by
  refine carried_of_move hfibers hphase fun ft hft => ?_
  rw [hnone] at hft
  cases hft

/-- A scan takes an entry that the worker is allowed to run. -/
theorem carried_scan (hok : s.scan tid w = .ok s') : Carried tid adds s s' := by
  have hspec := pick_spec s.states (tid w) s.fibers
  unfold Pool.scan at hok
  split at hok
  · cases hok
  · cases hok
    exact carried_of_drop rfl rfl rfl
  · rename_i taken rest hpick
    cases hok
    rw [hpick] at hspec
    obtain ⟨before, after, hq, rfl, -, hruns, -⟩ := hspec
    have hheld : ∀ u ft, ((Function.update s.phase w
        (.scanned (some taken) (Bobliew.tickleMe s.states (tid w) s.fibers))) u).held = some ft →
        (s.phase u).held = some ft ∨ u = w ∧ ft = taken := by
      intro u ft hu
      by_cases huw : u = w
      · subst huw
        rw [Function.update_self] at hu
        exact Or.inr ⟨rfl, (Option.some.inj hu).symm⟩
      · rw [Function.update_of_ne huw] at hu
        exact Or.inl hu
    constructor
    · rintro u f ⟨ft, hfiber, ⟨hft, hfree⟩ | hu⟩
      · have hmem : ft ∈ s.fibers := by
          rw [hq]
          rcases List.mem_append.mp hft with hbefore | hafter
          · exact List.mem_append_left _ hbefore
          · exact List.mem_append_right _ (List.mem_cons_of_mem taken hafter)
        exact Or.inl ⟨ft, hfiber, Or.inl ⟨hmem, hfree⟩⟩
      · rcases hheld u ft hu with hold | ⟨rfl, rfl⟩
        · exact Or.inl ⟨ft, hfiber, Or.inr hold⟩
        · have hmem : ft ∈ s.fibers := by
            rw [hq]
            exact List.mem_append_right _ List.mem_cons_self
          exact Or.inl ⟨ft, hfiber, Or.inl ⟨hmem, hruns⟩⟩
    · intro u ft hu
      rcases hheld u ft hu with hold | ⟨rfl, rfl⟩
      · exact Or.inl hold
      · exact Or.inr hruns

/-- What `swapIn` does with the entry a worker has taken. -/
theorem swapIn_cases {ft : FiberAndThread C} {cbFiber : ℕ} (hok : s.swapIn w ft cbFiber = .ok s') :
    s'.fibers = s.fibers ∧
      ((∃ f, ft.fiber = some f ∧ s'.phase = Function.update s.phase w (.executing f false)) ∨
        (ft.cb.isSome = true ∧ s'.phase = Function.update s.phase w (.executing cbFiber true)) ∨
        s'.phase = Function.update s.phase w .scanning) := by
  have henter : ∀ {f callback}, s.enter w f callback = .ok s' →
      s'.fibers = s.fibers ∧ s'.phase = Function.update s.phase w (.executing f callback) := by
    intro f callback hok
    unfold enter at hok
    split at hok
    · cases hok
    · cases hok
      exact ⟨rfl, rfl⟩
  unfold swapIn at hok
  split at hok
  · rename_i f hfiber
    split at hok
    · obtain ⟨hfibers, hphase⟩ := henter hok
      exact ⟨hfibers, Or.inl ⟨f, hfiber, hphase⟩⟩
    · split at hok
      · rename_i hcb
        obtain ⟨hfibers, hphase⟩ := henter hok
        exact ⟨hfibers, Or.inr (Or.inl ⟨hcb, hphase⟩)⟩
      · cases hok
        exact ⟨rfl, Or.inr (Or.inr rfl)⟩
  · split at hok
    · rename_i hcb
      obtain ⟨hfibers, hphase⟩ := henter hok
      exact ⟨hfibers, Or.inr (Or.inl ⟨hcb, hphase⟩)⟩
    · cases hok
      exact ⟨rfl, Or.inr (Or.inr rfl)⟩

/-- A worker switches to its task, or drops it. -/
theorem carried_swapIn {ft : FiberAndThread C} {cbFiber : ℕ} (hok : s.swapIn w ft cbFiber = .ok s') :
    Carried tid adds s s' := by
  obtain ⟨hfibers, ⟨f, -, hphase⟩ | ⟨-, hphase⟩ | hphase⟩ := swapIn_cases hok
  · exact carried_of_drop hfibers hphase rfl
  · exact carried_of_drop hfibers hphase rfl
  · exact carried_of_drop hfibers hphase rfl

/-- A fiber that has yielded ready is queued again, for any worker. -/
theorem carried_update {f : ℕ} {callback : Bool} (hphase : s.phase w = .leaving f callback) :
    Carried tid (s.Adds tid (.update w)) s (s.update w f callback) := by
  unfold Pool.update
  split
  · rename_i hready
    have hmove : Carried tid (s.Adds tid (.update w)) s
        (s.move w (.requeued (scheduleNoLock s.fibers (.fiber (some f)) (-1)).2)) :=
      carried_of_drop rfl rfl rfl
    refine ⟨?_, hmove.held⟩
    rintro u g ⟨ft, hfiber, ⟨hft, hruns⟩ | hu⟩
    · rcases List.mem_append.mp hft with hold | hnew
      · exact Or.inl ⟨ft, hfiber, Or.inl ⟨hold, hruns⟩⟩
      · cases List.mem_singleton.mp hnew
        cases hfiber
        exact Or.inr ⟨⟨callback, hphase⟩, hready⟩
    · exact hmove.mayRun u g ⟨ft, hfiber, Or.inr hu⟩
  · split
    · exact carried_of_drop (p := .scanning) rfl rfl rfl
    · split
      · exact carried_of_drop (p := .scanning) rfl rfl rfl
      · exact carried_of_drop (p := .scanning) rfl rfl rfl

/-- Entries come from `schedule` and from fibers that have yielded ready only. -/
theorem step_carried {i : PoolStep W C} (hok : s.step tid i = .ok s') :
    Carried tid (s.Adds tid i) s s' := by
  cases stepsTo_of_step hok with
  | stay => exact carried_of_same rfl rfl
  | schedule tasks =>
    refine ⟨?_, fun u ft hu => Or.inl hu⟩
    rintro u f ⟨ft, hfiber, ⟨hft, hruns⟩ | hu⟩
    · rcases mem_scheduleRange hft with hold | ⟨⟨fc, t⟩, htask, rfl⟩
      · exact Or.inl ⟨ft, hfiber, Or.inl ⟨hold, hruns⟩⟩
      · cases fc with
        | fiber g =>
          cases hfiber
          exact Or.inr ⟨t, htask, runsOn_iff.mp hruns⟩
        | cb c => cases hfiber
    · exact Or.inl ⟨ft, hfiber, Or.inr hu⟩
  | notify _ =>
    rcases tickle_cases { s with notifying := s.notifying - 1 } with ⟨-, heq⟩ | ⟨-, heq⟩
    · rw [heq]
      exact carried_of_same rfl rfl
    · rw [heq]
      exact carried_of_same rfl rfl
  | scan _ hscan => exact carried_scan hscan
  | @take w ft need hphase =>
    refine carried_of_move (w := w) (p := .taken ft) (tickleIf_fibers s need) ?_ fun ft' hft' => ?_
    · rw [move, (tickleIf_rest s need).1]
    · rw [hphase]
      exact hft'
  | @giveUp w need _ =>
    refine carried_of_drop (w := w) (p := .idling) (tickleIf_fibers s need) ?_ rfl
    rw [move, (tickleIf_rest s need).1]
  | swapIn _ hswap => exact carried_swapIn hswap
  | @publish w f callback _ _ => exact carried_of_drop (p := .leaving f callback) rfl rfl rfl
  | update hphase => exact carried_update hphase
  | @requeueTickle w need _ =>
    refine carried_of_drop (w := w) (p := .scanning) (tickleIf_fibers s need) ?_ rfl
    rw [move, (tickleIf_rest s need).1]
  | enterIdle _ => exact carried_of_drop (p := .polling) rfl rfl rfl
  | epollWait _ => exact carried_of_drop (p := .blocked) rfl rfl rfl
  | wakeOther _ => exact carried_of_drop (p := .woken false) rfl rfl rfl
  | wakeTickled _ _ => exact carried_of_drop (p := .woken true) rfl rfl rfl
  | drain _ => exact carried_of_drop (p := .woken false) rfl rfl rfl
  | leaveIdle _ => exact carried_of_drop (p := .scanning) rfl rfl rfl

end Carried

end Pool

/-- A resumption: the fiber, the thread it is bound to, and the thread it was resumed on. -/
structure Resumption where
  fiber : ℕ
  pin : Option ℤ
  thread : ℤ

/-- The workers, the thread each fiber is bound to, and the resumptions so far. -/
structure PinnedPool (W C : Type*) where
  pool : Pool W C
  pin : ℕ → Option ℤ
  resumed : List Resumption

/-- The thread that the `thread` argument of `schedule` binds a task to. -/
def pinOf (thread : ℤ) : Option ℤ := if thread = -1 then none else some thread

/-- The threads the fibers are bound to after a range of tasks is scheduled. -/
def repin : List (FiberOrCb C × ℤ) → (ℕ → Option ℤ) → ℕ → Option ℤ
  | [], pin => pin
  | (.fiber (some f), thread) :: tasks, pin => repin tasks (Function.update pin f (pinOf thread))
  | _ :: tasks, pin => repin tasks pin

namespace PinnedPool

/-- Nothing is scheduled yet. -/
def init : PinnedPool W C := ⟨.init, fun _ => none, []⟩

/-- What a step of the workers does to the record. -/
def observe (tid : W → ℤ) (s : PinnedPool W C) (i : PoolStep W C) (pool : Pool W C) : PinnedPool W C :=
  match i with
  | .schedule tasks => ⟨pool, repin tasks s.pin, s.resumed⟩
  | .swapIn w _ =>
    match s.pool.phase w, pool.phase w with
    | .taken ft, .executing f callback =>
      let pin := if callback then Function.update s.pin f (pinOf ft.thread) else s.pin
      ⟨pool, pin, s.resumed ++ [⟨f, pin f, tid w⟩]⟩
    | _, _ => ⟨pool, s.pin, s.resumed⟩
  | .publish w departure =>
    match s.pool.phase w, departure.state with
    | .executing f _, .term => ⟨pool, Function.update s.pin f none, s.resumed⟩
    | .executing f _, .except => ⟨pool, Function.update s.pin f none, s.resumed⟩
    | _, _ => ⟨pool, s.pin, s.resumed⟩
  | _ => ⟨pool, s.pin, s.resumed⟩

/-- Perform one step. -/
def step [DecidableEq W] (tid : W → ℤ) (s : PinnedPool W C) (i : PoolStep W C) :
    Except SchedulerFault (PinnedPool W C) :=
  (s.pool.step tid i).map (s.observe tid i)

/-- Every resumption of a fiber that was bound to a thread took place on that thread. -/
def PinsRespected (s : PinnedPool W C) : Prop := ∀ r ∈ s.resumed, ∀ t, r.pin = some t → r.thread = t

/-- The steps after which no worker may resume a fiber that is bound to another thread: a fiber is
scheduled for a thread when no entry is left that a worker on another thread may take, a callback bound
to a thread is started on such a fiber, and a fiber that is bound does not yield ready unless all workers
are on its thread. -/
def Binding (tid : W → ℤ) (s : PinnedPool W C) : PoolStep W C → Prop
  | .schedule tasks => ∀ f t, (FiberOrCb.fiber (some f), t) ∈ tasks → repin tasks s.pin f = some t →
      ∀ w, s.pool.MayRun tid w f ∨ s.pool.Adds tid (.schedule tasks) w f → tid w = t
  | .swapIn w cbFiber => ∀ ft, s.pool.phase w = .taken ft → ft.cb.isSome = true → ft.thread ≠ -1 →
      ∀ u, s.pool.MayRun tid u cbFiber → tid u = ft.thread
  | .update w => ∀ f callback, s.pool.phase w = .leaving f callback → s.pool.states f = .ready →
      ∀ t, s.pin f = some t → ∀ u, tid u = t
  | _ => True

/-- The invariant: whoever may resume a bound fiber is on its thread, and workers have taken only entries
they are allowed to run. -/
structure Bound (tid : W → ℤ) (s : PinnedPool W C) : Prop where
  mayRun : ∀ w f t, s.pool.MayRun tid w f → s.pin f = some t → tid w = t
  held : ∀ w ft, (s.pool.phase w).held = some ft → ft.runsOn (tid w) = true
  respected : s.PinsRespected

/-- A task is bound to the thread given, unless that is `-1`. -/
theorem pinOf_eq_some {thread t : ℤ} (h : pinOf thread = some t) : thread = t ∧ thread ≠ -1 := by
  unfold pinOf at h
  split at h
  · cases h
  · rename_i hthread
    exact ⟨Option.some.inj h, hthread⟩

/-- A fiber that is bound after a range of tasks is bound by one of them, or was before and is in none. -/
theorem repin_eq_some {tasks : List (FiberOrCb C × ℤ)} {pin : ℕ → Option ℤ} {f : ℕ} {t : ℤ}
    (h : repin tasks pin f = some t) :
    (FiberOrCb.fiber (some f), t) ∈ tasks ∨
      pin f = some t ∧ ∀ thread, (FiberOrCb.fiber (some f), thread) ∉ tasks := by
  induction tasks generalizing pin with
  | nil => exact Or.inr ⟨h, fun _ => List.not_mem_nil⟩
  | cons task tasks ih =>
    have hother : ∀ pin' : ℕ → Option ℤ, pin' f = pin f → repin tasks pin' f = some t →
        (∀ thread, task ≠ (FiberOrCb.fiber (some f), thread)) →
        (FiberOrCb.fiber (some f), t) ∈ task :: tasks ∨
          pin f = some t ∧ ∀ thread, (FiberOrCb.fiber (some f), thread) ∉ task :: tasks := by
      intro pin' hpin hrest htask
      rcases ih hrest with hmem | ⟨hkept, hnone⟩
      · exact Or.inl (List.mem_cons_of_mem task hmem)
      · refine Or.inr ⟨hpin.symm.trans hkept, fun thread hmem => ?_⟩
        rcases List.mem_cons.mp hmem with heq | htail
        · exact htask thread heq.symm
        · exact hnone thread htail
    match task with
    | (.fiber (some g), thread) =>
      by_cases hfg : f = g
      · subst hfg
        rcases ih h with hmem | ⟨hnow, -⟩
        · exact Or.inl (List.mem_cons_of_mem _ hmem)
        · rw [Function.update_self] at hnow
          rw [(pinOf_eq_some hnow).1]
          exact Or.inl List.mem_cons_self
      · refine hother _ (Function.update_of_ne hfg _ _) h fun thread' heq => ?_
        cases heq
        exact hfg rfl
    | (.fiber none, thread) => exact hother pin rfl h fun thread' heq => by cases heq
    | (.cb c, thread) => exact hother pin rfl h fun thread' heq => by cases heq

/-- At the start nothing is queued. -/
theorem Bound.init (tid : W → ℤ) : Bound tid (PinnedPool.init : PinnedPool W C) where
  mayRun w f t h hpin := by cases hpin
  held w ft h := by cases h
  respected := List.forall_mem_nil _

section Invariant

variable {tid : W → ℤ} {s s' : PinnedPool W C} {pool : Pool W C} {w : W}

/-- The workers move on, and whoever may then resume a bound fiber is on its thread. -/
theorem Bound.carry (h : Bound tid s) {adds : W → ℕ → Prop} (hcarried : Pool.Carried tid adds s.pool pool)
    {pin : ℕ → Option ℤ} {resumed : List Resumption}
    (hpin : ∀ w f t, s.pool.MayRun tid w f ∨ adds w f → pin f = some t → tid w = t)
    (hresumed : ∀ r ∈ resumed, ∀ t, r.pin = some t → r.thread = t) : Bound tid ⟨pool, pin, resumed⟩ where
  mayRun w f t hmay := hpin w f t (hcarried.mayRun w f hmay)
  held w ft hheld := by
    rcases hcarried.held w ft hheld with hold | hruns
    · exact h.held w ft hold
    · exact hruns
  respected := hresumed

/-- A step that adds no entry, binds no fiber and resumes none. -/
theorem Bound.carry_same (h : Bound tid s) {adds : W → ℕ → Prop}
    (hcarried : Pool.Carried tid adds s.pool pool) (hnone : ∀ w f, ¬ adds w f) :
    Bound tid ⟨pool, s.pin, s.resumed⟩ := by
  refine h.carry hcarried (fun w f t hmay hpin => ?_) h.respected
  rcases hmay with hmay | hadds
  · exact h.mayRun w f t hmay hpin
  · exact absurd hadds (hnone w f)

/-- One more resumption, of a fiber that is bound to the worker's thread if to any. -/
theorem Bound.respected_append (h : Bound tid s) {f : ℕ} {pin : Option ℤ}
    (hpin : ∀ t, pin = some t → tid w = t) :
    ∀ r ∈ s.resumed ++ [⟨f, pin, tid w⟩], ∀ t, r.pin = some t → r.thread = t := by
  intro r hr t ht
  rcases List.mem_append.mp hr with hold | hnew
  · exact h.respected r hold t ht
  · cases List.mem_singleton.mp hnew
    exact hpin t ht

variable [DecidableEq W]

/-- `schedule` binds the fibers it is given. -/
theorem Bound.schedule (h : Bound tid s) {tasks : List (FiberOrCb C × ℤ)}
    (hbinding : s.Binding tid (.schedule tasks)) (hok : s.pool.step tid (.schedule tasks) = .ok pool) :
    Bound tid (s.observe tid (.schedule tasks) pool) := by
  refine h.carry (Pool.step_carried hok) (fun w f t hmay hpin => ?_) h.respected
  rcases repin_eq_some hpin with hmem | ⟨hkept, hnone⟩
  · exact hbinding f t hmem hpin w hmay
  · rcases hmay with hmay | ⟨thread, hmem, -⟩
    · exact h.mayRun w f t hmay hkept
    · exact absurd hmem (hnone thread)

/-- A worker resumes the fiber of the entry it holds, or starts the entry's callback. -/
theorem Bound.swapIn (h : Bound tid s) {cbFiber : ℕ} (hbinding : s.Binding tid (.swapIn w cbFiber))
    (hok : s.pool.step tid (.swapIn w cbFiber) = .ok pool) :
    Bound tid (s.observe tid (.swapIn w cbFiber) pool) := by
  have hcarried := Pool.step_carried hok
  simp only [Pool.step] at hok
  split at hok
  · rename_i ft hphase
    obtain ⟨-, hcases⟩ := Pool.swapIn_cases hok
    simp only [observe, hphase]
    rcases hcases with ⟨f, hfiber, hnext⟩ | ⟨hcb, hnext⟩ | hnext
    · have hmay : s.pool.MayRun tid w f := ⟨ft, hfiber, Or.inr (by rw [hphase]; rfl)⟩
      simp only [hnext, Function.update_self]
      refine h.carry hcarried (fun u g t hu hpin => ?_)
        (h.respected_append fun t hpin => h.mayRun w f t hmay hpin)
      rcases hu with hu | hadds
      · exact h.mayRun u g t hu hpin
      · cases hadds
    · have hruns := h.held w ft (by rw [hphase]; rfl)
      simp only [hnext, Function.update_self]
      refine h.carry hcarried (fun u g t hu hpin => ?_) (h.respected_append fun t hpin => ?_)
      · rcases hu with hu | hadds
        · simp only [if_true] at hpin
          by_cases hg : g = cbFiber
          · subst hg
            rw [Function.update_self] at hpin
            obtain ⟨rfl, hthread⟩ := pinOf_eq_some hpin
            exact hbinding ft hphase hcb hthread u hu
          · rw [Function.update_of_ne hg] at hpin
            exact h.mayRun u g t hu hpin
        · cases hadds
      · simp only [if_true, Function.update_self] at hpin
        obtain ⟨rfl, hthread⟩ := pinOf_eq_some hpin
        rcases Pool.runsOn_iff.mp hruns with hany | hown
        · exact absurd hany hthread
        · exact hown.symm
    · simp only [hnext, Function.update_self]
      exact h.carry_same hcarried fun _ _ hadds => hadds
  · rename_i hother
    cases hok
    unfold observe
    dsimp only
    split
    · rename_i ft f callback htaken _
      exact absurd htaken (hother ft)
    · exact h

/-- A fiber that has ended is bound no longer. -/
theorem Bound.publish (h : Bound tid s) {departure : Workers.Departure}
    (hok : s.pool.step tid (.publish w departure) = .ok pool) :
    Bound tid (s.observe tid (.publish w departure) pool) := by
  have hcarried := Pool.step_carried hok
  have hunbind : ∀ f, Bound tid ⟨pool, Function.update s.pin f none, s.resumed⟩ := by
    intro f
    refine h.carry hcarried (fun u g t hu hpin => ?_) h.respected
    rcases hu with hu | hadds
    · by_cases hg : g = f
      · subst hg
        rw [Function.update_self] at hpin
        cases hpin
      · rw [Function.update_of_ne hg] at hpin
        exact h.mayRun u g t hu hpin
    · cases hadds
  unfold observe
  dsimp only
  split
  · exact hunbind _
  · exact hunbind _
  · exact h.carry_same hcarried fun _ _ hadds => hadds

/-- A bound fiber that has yielded ready is queued again only where all workers are on its thread. -/
theorem Bound.update (h : Bound tid s) (hbinding : s.Binding tid (.update w))
    (hok : s.pool.step tid (.update w) = .ok pool) : Bound tid (s.observe tid (.update w) pool) := by
  refine h.carry (Pool.step_carried hok) (fun u f t hu hpin => ?_) h.respected
  rcases hu with hu | ⟨⟨callback, hphase⟩, hready⟩
  · exact h.mayRun u f t hu hpin
  · exact hbinding f callback hphase hready t hpin u

/-- Every step that keeps the bindings keeps the invariant. -/
theorem Bound.step (h : Bound tid s) {i : PoolStep W C} (hbinding : s.Binding tid i)
    (hok : s.step tid i = .ok s') : Bound tid s' := by
  unfold PinnedPool.step at hok
  match hpool : s.pool.step tid i with
  | .error fault =>
    rw [hpool] at hok
    cases hok
  | .ok pool =>
    rw [hpool] at hok
    cases hok
    have hcarried := Pool.step_carried hpool
    cases i with
    | schedule tasks => exact h.schedule hbinding hpool
    | swapIn w cbFiber => exact h.swapIn hbinding hpool
    | publish w departure => exact h.publish hpool
    | update w => exact h.update hbinding hpool
    | _ => exact h.carry_same hcarried fun _ _ hadds => hadds

end Invariant

/-- In every run whose steps keep the bindings, a task that was scheduled for a thread is resumed on that
thread, until it ends or is scheduled again with another thread. -/
theorem resumed_where_bound [DecidableEq W] (tid : W → ℤ) {s : PinnedPool W C}
    (h : Runs.Reaches (PinnedPool.step tid) (Binding tid) (PinnedPool.init : PinnedPool W C) s) :
    s.PinsRespected := by
  have hbound : Bound tid s := by
    refine h.invariant (Bound tid) (Bound.init tid) fun s i s' hs hbinding hok => ?_
    exact hs.step hbinding hok
  exact hbound.respected

/-- Two workers, on the threads 1 and 2. -/
def twoThreads (w : Bool) : ℤ := if w then 2 else 1

/-- A fiber is scheduled for thread 1, runs there and yields on hold, and is then scheduled for thread 2. -/
theorem resumed_where_bound_moved :
    ∃ s : PinnedPool Bool Unit,
      Runs.Reaches (PinnedPool.step twoThreads) (Binding twoThreads) PinnedPool.init s ∧
        s.resumed = [⟨0, some 1, 1⟩, ⟨0, some 2, 2⟩] ∧ s.PinsRespected := by
  have hbind : ∀ (s : PinnedPool Bool Unit) (w : Bool), s.pool.fibers = [] →
      (∀ u, (s.pool.phase u).held = none) →
      s.Binding twoThreads (.schedule [(.fiber (some 0), twoThreads w)]) := by
    rintro s w hempty hidle f t hmem - u (⟨ft, hfiber, ⟨hft, -⟩ | hheld⟩ | ⟨thread, hmem', hthread⟩)
    · rw [hempty] at hft
      cases hft
    · rw [hidle u] at hheld
      cases hheld
    · cases List.mem_singleton.mp hmem
      cases List.mem_singleton.mp hmem'
      rcases hthread with hany | hown
      · cases w <;> exact absurd hany (by decide)
      · exact hown.symm
  have hqueued : Runs.Reaches (PinnedPool.step twoThreads) (Binding twoThreads)
      (PinnedPool.init : PinnedPool Bool Unit) _ :=
    .next .start (.schedule [(.fiber (some 0), twoThreads false)]) (hbind _ false rfl fun _ => rfl) rfl
  have htaken := (hqueued.next (.scan false) trivial rfl).next (.tickleMe false) trivial rfl
  have hexecuting := htaken.next (.swapIn false 1) (fun ft hphase hcb => by cases hphase; cases hcb) rfl
  have hleaving := hexecuting.next (.publish false .yieldToHold) trivial rfl
  have hheld := hleaving.next (.update false)
    (fun f callback hphase hready => by cases hphase; cases hready) rfl
  have hmoved := hheld.next (.schedule [(.fiber (some 0), twoThreads true)])
    (hbind _ true rfl fun u => by cases u <;> rfl) rfl
  have htaken' := (hmoved.next (.scan true) trivial rfl).next (.tickleMe true) trivial rfl
  have hresumed := htaken'.next (.swapIn true 1) (fun ft hphase hcb => by cases hphase; cases hcb) rfl
  exact ⟨_, hresumed, rfl, resumed_where_bound twoThreads hresumed⟩

/-- A fiber scheduled for thread 1 yields ready there: `run` schedules it again without the thread, and the
other worker resumes it on thread 2. -/
theorem resumed_on_other_thread :
    ∃ s : PinnedPool Bool Unit,
      Runs.Reaches (PinnedPool.step twoThreads) (fun _ _ => True) PinnedPool.init s ∧
        s.resumed = [⟨0, some 1, 1⟩, ⟨0, some 1, 2⟩] ∧ ¬ s.PinsRespected := by
  have hqueued : Runs.Reaches (PinnedPool.step twoThreads) (fun _ _ => True)
      (PinnedPool.init : PinnedPool Bool Unit) _ :=
    .next .start (.schedule [(.fiber (some 0), 1)]) trivial rfl
  have htaken := (hqueued.next (.scan false) trivial rfl).next (.tickleMe false) trivial rfl
  have hleaving := (htaken.next (.swapIn false 1) trivial rfl).next (.publish false .yieldToReady) trivial rfl
  have hagain := hleaving.next (.update false) trivial rfl
  have htaken' := (hagain.next (.scan true) trivial rfl).next (.tickleMe true) trivial rfl
  have hresumed := htaken'.next (.swapIn true 1) trivial rfl
  refine ⟨_, hresumed, rfl, fun hrespected => ?_⟩
  have hthread : (2 : ℤ) = 1 := hrespected ⟨0, some 1, 2⟩ (List.mem_cons_of_mem _ List.mem_cons_self) 1 rfl
  exact absurd hthread (by decide)

end PinnedPool

end Bobliew
