import Bobliew.Sync.FiberSemaphore

/-!
# Worker groups

`WorkerGroup::schedule` takes a permit of the group's semaphore before it hands a callback to the scheduler,
`doWork` gives the permit back once the callback has returned, and `waitAll` takes every permit there is.
Any number of fibers make these calls in any order, also from within callbacks; the scheduler runs each
callback that it was handed once.

The permits are in the hands of accepted callbacks, of callers on their way and of `waitAll`. When
`waitAll` has them all, no callback is left that was accepted and has not completed.
-/

namespace Bobliew

/-- Where a fiber is with respect to the group: in the `wait` of `schedule`, behind it, in `waitAll` with a
number of permits before or in the next `wait`, behind `waitAll`, or elsewhere. -/
inductive GroupPlace where
  | outside
  | scheduling
  | admitted
  | collecting (i : ℕ)
  | waiting (i : ℕ)
  | waited
deriving DecidableEq

/-- The permits in the hands of a fiber at a place. -/
def GroupPlace.permits (batchSize : ℕ) : GroupPlace → ℕ
  | .outside => 0
  | .scheduling => 0
  | .admitted => 1
  | .collecting i => i
  | .waiting i => i
  | .waited => batchSize

/-- The fiber is in the `wait` of the semaphore. -/
def GroupPlace.inWait : GroupPlace → Bool
  | .scheduling => true
  | .waiting _ => true
  | _ => false

/-- The permits `waitAll` has at a place do not exceed those there are. -/
def GroupPlace.Within (batchSize : ℕ) : GroupPlace → Prop
  | .collecting i => i ≤ batchSize
  | .waiting i => i < batchSize
  | _ => True

/-- A group with the fibers around it. Callbacks are numbered in the order of their acceptance: those the
scheduler has yet to run, those that `doWork` is running, and those that have completed. The fibers in
`notifying` have yet to give the permit of theirs back. -/
structure WorkerGroup (S F : Type*) where
  batchSize : ℕ
  finish : Bool
  sem : SemaphoreUse S F
  place : F → GroupPlace
  accepted : ℕ
  scheduled : List ℕ
  working : List (F × ℕ)
  notifying : List F
  completed : List ℕ

/-- One atomic step. -/
inductive GroupStep (S F : Type*) where
  | schedule (scheduler : Option S) (f : F)
  | submit (f : F)
  | waitAll (f : F)
  | collect (scheduler : Option S) (f : F)
  | yieldToHold (f : F)
  | resume (waiter : S × F)
  | start (f : F) (k : ℕ)
  | complete (f : F) (k : ℕ)
  | notify (f : F)

namespace WorkerGroup

variable {S F : Type*}

/-- The constructor. -/
def new (batchSize : ℕ) : WorkerGroup S F :=
  ⟨batchSize, false, .init batchSize, fun _ => .outside, 0, [], [], [], []⟩

section Step

variable [DecidableEq S] [DecidableEq F]

/-- Change the place of a fiber. -/
def move (g : WorkerGroup S F) (f : F) (place : GroupPlace) : WorkerGroup S F :=
  { g with place := Function.update g.place f place }

/-- `m_sem.wait()` up to the end of its locked part; a fiber that need not queue itself has passed. -/
def wait (g : WorkerGroup S F) (scheduler : Option S) (f : F) (inside passed : GroupPlace) :
    Except SemaphoreFault (WorkerGroup S F) :=
  match g.sem.step (.wait scheduler f) with
  | .error fault => .error fault
  | .ok sem => .ok ({ g with sem }.move f (if sem.phase f = WaitPhase.running then passed else inside))

/-- Perform one step. A step that does not fit the place of its fiber changes nothing. -/
def step (g : WorkerGroup S F) : GroupStep S F → Except SemaphoreFault (WorkerGroup S F)
  | .schedule scheduler f =>
    if g.place f = .outside ∧ f ∉ g.notifying then g.wait scheduler f .scheduling .admitted else .ok g
  | .submit f =>
    if g.place f = .admitted then
      .ok ({ g with scheduled := g.scheduled ++ [g.accepted], accepted := g.accepted + 1 }.move f .outside)
    else .ok g
  | .waitAll f =>
    if g.place f = .outside ∧ f ∉ g.notifying ∧ g.finish = false then
      .ok ({ g with finish := true }.move f (.collecting 0))
    else .ok g
  | .collect scheduler f =>
    match g.place f with
    | .collecting i =>
      if i < g.batchSize then g.wait scheduler f (.waiting i) (.collecting (i + 1))
      else .ok (g.move f .waited)
    | _ => .ok g
  | .yieldToHold f =>
    if g.sem.phase f = .queued then .ok { g with sem := g.sem.move f .held } else .ok g
  | .resume waiter =>
    if g.sem.Resumable waiter then
      let resumed := { g with sem := g.sem.resume waiter }
      match g.place waiter.2 with
      | .scheduling => .ok (resumed.move waiter.2 .admitted)
      | .waiting i => .ok (resumed.move waiter.2 (.collecting (i + 1)))
      | _ => .ok resumed
    else .ok g
  | .start f k =>
    if k ∈ g.scheduled ∧ g.place f = .outside ∧ f ∉ g.working.map Prod.fst ∧ f ∉ g.notifying then
      .ok { g with scheduled := g.scheduled.erase k, working := (f, k) :: g.working }
    else .ok g
  | .complete f k =>
    if (f, k) ∈ g.working ∧ (g.place f = .outside ∨ g.place f = .waited) then
      .ok { g with
        working := g.working.erase (f, k)
        completed := g.completed ++ [k]
        notifying := f :: g.notifying }
    else .ok g
  | .notify f =>
    if f ∈ g.notifying then
      .ok { g with sem := g.sem.notify, notifying := g.notifying.erase f }
    else .ok g

end Step

/-- The batch size bounds the callbacks that were accepted and have not completed, and behind `waitAll`
every accepted callback has completed exactly once. -/
structure Drains (batchSize : ℕ) (g : WorkerGroup S F) : Prop where
  atMost : g.accepted ≤ g.completed.length + batchSize
  allDone : ∀ f, g.place f = .waited → g.completed.Perm (List.range g.accepted)

section Invariant

variable [Fintype F] {g g' : WorkerGroup S F} {batchSize : ℕ}

/-- The invariant: every granted wait is on its way to its fiber, in the hands of one, or that of an
accepted callback, and a callback that has completed gives its permit back. -/
structure Inv (batchSize : ℕ) (g : WorkerGroup S F) : Prop where
  size : g.batchSize = batchSize
  sem : SemaphoreUse.Inv g.batchSize g.sem
  permits : g.sem.granted =
    g.sem.scheduled.length + (∑ f, (g.place f).permits g.batchSize) + g.accepted
  notified : g.sem.notifies + g.notifying.length = g.completed.length
  tasks : (g.scheduled ++ g.working.map Prod.snd ++ g.completed).Perm (List.range g.accepted)
  inside : ∀ f, g.sem.phase f ≠ .running ↔ (g.place f).inWait = true
  within : ∀ f, (g.place f).Within g.batchSize

/-- At the start every permit is counted by the semaphore. -/
theorem Inv.new (batchSize : ℕ) : Inv batchSize (new batchSize : WorkerGroup S F) where
  size := rfl
  sem := SemaphoreUse.Inv.init batchSize
  permits := by
    have hsum : ∑ f : F, (GroupPlace.outside).permits batchSize = 0 := Finset.sum_eq_zero fun _ _ => rfl
    simp only [WorkerGroup.new]
    rw [hsum]
    rfl
  notified := rfl
  tasks := List.Perm.refl _
  inside f := by simp [WorkerGroup.new, SemaphoreUse.init, GroupPlace.inWait]
  within _ := trivial

/-- Each callback that was accepted waits for the scheduler, is being run, or has completed. -/
theorem Inv.accepted_eq (h : Inv batchSize g) :
    g.accepted = g.scheduled.length + g.working.length + g.completed.length := by
  have hlength := h.tasks.length_eq
  simp only [List.length_append, List.length_map, List.length_range] at hlength
  exact hlength.symm

/-- When `waitAll` has every permit, the permits given back account for every accepted callback. -/
theorem Inv.drains (h : Inv batchSize g) : Drains batchSize g := by
  have hsize := h.size
  have hcounted := h.sem.counted
  have hpermits := h.permits
  have hnotified := h.notified
  have haccepted := h.accepted_eq
  refine ⟨by omega, fun f hwaited => ?_⟩
  have hall : g.batchSize ≤ ∑ u, (g.place u).permits g.batchSize := by
    have hsingle := Finset.single_le_sum (f := fun u => (g.place u).permits g.batchSize)
      (fun _ _ => Nat.zero_le _) (Finset.mem_univ f)
    rw [hwaited] at hsingle
    exact hsingle
  have hscheduled : g.scheduled = [] := List.eq_nil_of_length_eq_zero (by omega)
  have hworking : g.working = [] := List.eq_nil_of_length_eq_zero (by omega)
  have htasks := h.tasks
  rw [hscheduled, hworking] at htasks
  exact htasks

/-- The scheduler runs a callback it was handed. -/
theorem Inv.start (h : Inv batchSize g) {f : F} {k : ℕ} (hmem : k ∈ g.scheduled) :
    Inv batchSize { g with scheduled := g.scheduled.erase k, working := (f, k) :: g.working } where
  size := h.size
  sem := h.sem
  permits := h.permits
  notified := h.notified
  tasks := by
    have hmoved : (g.scheduled.erase k ++ k :: g.working.map Prod.snd).Perm
        (g.scheduled ++ g.working.map Prod.snd) :=
      List.perm_middle.trans ((List.perm_cons_erase hmem).symm.append_right _)
    exact (hmoved.append_right g.completed).trans h.tasks
  inside := h.inside
  within := h.within

variable [DecidableEq F]

/-- A callback returns: it has completed, and its permit is still to be given back. -/
theorem Inv.complete (h : Inv batchSize g) {f : F} {k : ℕ} (hmem : (f, k) ∈ g.working) :
    Inv batchSize { g with
      working := g.working.erase (f, k)
      completed := g.completed ++ [k]
      notifying := f :: g.notifying } where
  size := h.size
  sem := h.sem
  permits := h.permits
  notified := by
    have hnotified := h.notified
    simp only [List.length_cons, List.length_append, List.length_nil]
    omega
  tasks := by
    have hworking : (k :: (g.working.erase (f, k)).map Prod.snd).Perm (g.working.map Prod.snd) :=
      (List.perm_cons_erase hmem).symm.map Prod.snd
    have hlast : ((g.working.erase (f, k)).map Prod.snd ++ (g.completed ++ [k])).Perm
        (k :: ((g.working.erase (f, k)).map Prod.snd ++ g.completed)) := by
      rw [← List.append_assoc]
      exact List.perm_append_singleton k _
    rw [List.append_assoc]
    refine (hlast.append_left g.scheduled).trans ?_
    have hmoved := (hworking.append_right g.completed).append_left g.scheduled
    have htasks := h.tasks
    rw [List.append_assoc] at htasks
    exact hmoved.trans htasks
  inside := h.inside
  within := h.within

/-- A callback's permit is given back, and the semaphore counts it or grants it again. -/
theorem Inv.notify (h : Inv batchSize g) {f : F} (hmem : f ∈ g.notifying) :
    Inv batchSize { g with sem := g.sem.notify, notifying := g.notifying.erase f } := by
  obtain ⟨hphase, hnotifies, hgranted⟩ := g.sem.notify_spec
  have hlength := List.length_erase_add_one hmem
  have hpermits := h.permits
  have hnotified := h.notified
  exact
    { size := h.size
      sem := h.sem.notify
      permits := by
        change g.sem.notify.granted =
          g.sem.notify.scheduled.length + (∑ u, (g.place u).permits g.batchSize) + g.accepted
        omega
      notified := by
        change g.sem.notify.notifies + (g.notifying.erase f).length = g.completed.length
        omega
      tasks := h.tasks
      inside := fun u => by
        rw [← h.inside u]
        change g.sem.notify.phase u ≠ .running ↔ _
        rw [hphase]
      within := h.within }

/-- A fiber moves, and the semaphore grants what it now has more in its hands. -/
theorem Inv.moved (h : Inv batchSize g) {sem : SemaphoreUse S F} {f : F} {place : GroupPlace}
    (hsem : SemaphoreUse.Inv g.batchSize sem) (hnotifies : sem.notifies = g.sem.notifies)
    (hpermits : sem.granted + g.sem.scheduled.length + (g.place f).permits g.batchSize =
      g.sem.granted + sem.scheduled.length + place.permits g.batchSize)
    (hothers : ∀ u, u ≠ f → sem.phase u = g.sem.phase u)
    (hself : sem.phase f ≠ .running ↔ place.inWait = true) (hwithin : place.Within g.batchSize) :
    Inv batchSize ({ g with sem }.move f place) where
  size := h.size
  sem := hsem
  permits := by
    have hsum := Runs.sum_update g.place (GroupPlace.permits g.batchSize) f place
    have hbefore := h.permits
    simp only [move]
    omega
  notified := by
    have hnotified := h.notified
    simp only [move]
    omega
  tasks := h.tasks
  inside u := by
    simp only [move]
    by_cases hu : u = f
    · rw [hu, Function.update_self]
      exact hself
    · rw [Function.update_of_ne hu, hothers u hu]
      exact h.inside u
  within u := by
    simp only [move]
    by_cases hu : u = f
    · rw [hu, Function.update_self]
      exact hwithin
    · rw [Function.update_of_ne hu]
      exact h.within u

/-- A callback is handed to the scheduler with the permit of the fiber that schedules it. -/
theorem Inv.submit (h : Inv batchSize g) {f : F} (hadmitted : g.place f = .admitted) :
    Inv batchSize
      ({ g with scheduled := g.scheduled ++ [g.accepted], accepted := g.accepted + 1 }.move f .outside) where
  size := h.size
  sem := h.sem
  permits := by
    have hsum := Runs.sum_update g.place (GroupPlace.permits g.batchSize) f .outside
    have hbefore := h.permits
    have hone : (g.place f).permits g.batchSize = 1 := by rw [hadmitted]; rfl
    have hzero : GroupPlace.outside.permits g.batchSize = 0 := rfl
    simp only [move]
    omega
  notified := h.notified
  tasks := by
    simp only [move]
    rw [List.range_succ, List.append_assoc, List.append_assoc]
    have hlast : ([g.accepted] ++ (g.working.map Prod.snd ++ g.completed)).Perm
        ((g.working.map Prod.snd ++ g.completed) ++ [g.accepted]) := List.perm_append_comm
    have hall := (hlast.append_left g.scheduled).trans (List.Perm.of_eq (List.append_assoc _ _ _).symm)
    refine hall.trans (List.Perm.append_right _ ?_)
    rw [← List.append_assoc]
    exact h.tasks
  inside u := by
    simp only [move]
    rw [h.inside u, Function.update_apply]
    by_cases hu : u = f
    · rw [hu, hadmitted, if_pos rfl]
      rfl
    · rw [if_neg hu]
  within u := by
    simp only [move]
    rw [Function.update_apply]
    by_cases hu : u = f
    · rw [if_pos hu]
      trivial
    · rw [if_neg hu]
      exact h.within u

/-- A fiber in `wait` that yields is still in `wait`. -/
theorem Inv.yieldToHold (h : Inv batchSize g) {f : F} (hqueued : g.sem.phase f = .queued) :
    Inv batchSize { g with sem := g.sem.move f .held } where
  size := h.size
  sem := h.sem.yieldToHold hqueued
  permits := h.permits
  notified := h.notified
  tasks := h.tasks
  inside u := by
    rw [← h.inside u]
    simp only [SemaphoreUse.move]
    rw [Function.update_apply]
    by_cases hu : u = f
    · simp [hu, hqueued]
    · rw [if_neg hu]
  within := h.within

/-- `waitAll` begins without a permit. -/
theorem Inv.waitAll (h : Inv batchSize g) {f : F} (houtside : g.place f = .outside) :
    Inv batchSize ({ g with finish := true }.move f (.collecting 0)) := by
  have hphase := h.inside f
  rw [houtside] at hphase
  have hbegun : Inv batchSize (({ g with finish := true } : WorkerGroup S F)) :=
    ⟨h.size, h.sem, h.permits, h.notified, h.tasks, h.inside, h.within⟩
  refine hbegun.moved h.sem rfl ?_ (fun _ _ => rfl) hphase (Nat.zero_le _)
  change _ + (g.place f).permits g.batchSize = _
  rw [houtside]
  rfl

/-- `waitAll` returns with every permit. -/
theorem Inv.collected (h : Inv batchSize g) {f : F} {i : ℕ} (hcollecting : g.place f = .collecting i)
    (hlast : ¬ i < g.batchSize) : Inv batchSize (g.move f .waited) := by
  have hphase := h.inside f
  have hwithin := h.within f
  rw [hcollecting] at hphase hwithin
  have hall : i = g.batchSize := Nat.le_antisymm hwithin (Nat.le_of_not_lt hlast)
  refine h.moved h.sem rfl ?_ (fun _ _ => rfl) hphase trivial
  rw [hcollecting, hall]
  rfl

variable [DecidableEq S]

/-- A `wait` of the semaphore, made from outside of one. -/
theorem Inv.wait (h : Inv batchSize g) {scheduler : Option S} {f : F} {inside passed : GroupPlace}
    (hok : g.wait scheduler f inside passed = .ok g') (hrunning : (g.place f).inWait = false)
    (hinside : inside.inWait = true) (hpassed : passed.inWait = false)
    (hkeeps : inside.permits g.batchSize = (g.place f).permits g.batchSize)
    (hgains : passed.permits g.batchSize = (g.place f).permits g.batchSize + 1)
    (hin : inside.Within g.batchSize) (hbehind : passed.Within g.batchSize) : Inv batchSize g' := by
  have hphase : g.sem.phase f = .running := by
    by_contra hne
    have hinWait := (h.inside f).mp hne
    rw [hrunning] at hinWait
    cases hinWait
  unfold WorkerGroup.wait at hok
  cases scheduler with
  | none =>
    simp only [SemaphoreUse.step, hphase, ne_eq, not_true_eq_false, if_false] at hok
    cases hok
  | some scheduler =>
    have hstep : g.sem.step (.wait (some scheduler) f) = .ok (g.sem.wait (scheduler, f)) := by
      simp [SemaphoreUse.step, hphase]
    rw [hstep] at hok
    cases hok
    have hsem : SemaphoreUse.Inv g.batchSize (g.sem.wait (scheduler, f)) := h.sem.step hstep
    obtain ⟨hscheduled, hnotifies, ⟨hsame, hgranted⟩ | ⟨hqueued, hgranted⟩⟩ := g.sem.wait_spec (scheduler, f)
    · have hstill : (g.sem.wait (scheduler, f)).phase f = .running := by rw [hsame, hphase]
      rw [if_pos hstill]
      refine h.moved hsem hnotifies (by rw [hscheduled]; omega) (fun u _ => by rw [hsame]) ?_ hbehind
      rw [hpassed]
      exact ⟨fun hne => absurd hstill hne, fun hfalse => by cases hfalse⟩
    · have hnow : (g.sem.wait (scheduler, f)).phase f = .queued := by rw [hqueued, Function.update_self]
      rw [if_neg (by rw [hnow]; exact WaitPhase.noConfusion)]
      refine h.moved hsem hnotifies (by rw [hscheduled]; omega) (fun u hu => ?_) ?_ hin
      · rw [hqueued, Function.update_of_ne hu]
      · rw [hnow, hinside]
        exact ⟨fun _ => rfl, fun _ => WaitPhase.noConfusion⟩

/-- A fiber whose `wait` returns has the permit in its hands. -/
theorem Inv.resume (h : Inv batchSize g) {waiter : S × F} {place : GroupPlace} (hmem : waiter ∈ g.sem.scheduled)
    (hpermits : place.permits g.batchSize = (g.place waiter.2).permits g.batchSize + 1)
    (houtside : place.inWait = false) (hwithin : place.Within g.batchSize) :
    Inv batchSize ({ g with sem := g.sem.resume waiter }.move waiter.2 place) := by
  have hlength := List.length_erase_add_one hmem
  refine h.moved (h.sem.resume hmem) rfl ?_ (fun u hu => ?_) ?_ hwithin
  · simp only [SemaphoreUse.resume, SemaphoreUse.move, SemaphoreUse.granted, SemaphoreUse.served]
    omega
  · simp only [SemaphoreUse.resume, SemaphoreUse.move]
    rw [Function.update_of_ne hu]
  · simp only [SemaphoreUse.resume, SemaphoreUse.move]
    rw [Function.update_self, houtside]
    exact ⟨fun hne => absurd rfl hne, fun hfalse => by cases hfalse⟩

/-- Every step keeps the invariant. -/
theorem Inv.step (h : Inv batchSize g) {i : GroupStep S F} (hok : g.step i = .ok g') : Inv batchSize g' := by
  cases i with
  | schedule scheduler f =>
    simp only [WorkerGroup.step] at hok
    split_ifs at hok with hfree
    · have hplace := hfree.1
      exact h.wait hok (by rw [hplace]; rfl) rfl rfl (by rw [hplace]; rfl) (by rw [hplace]; rfl) trivial trivial
    · cases hok; exact h
  | submit f =>
    simp only [WorkerGroup.step] at hok
    split_ifs at hok with hadmitted
    · cases hok; exact h.submit hadmitted
    · cases hok; exact h
  | waitAll f =>
    simp only [WorkerGroup.step] at hok
    split_ifs at hok with hfree
    · cases hok
      exact h.waitAll hfree.1
    · cases hok; exact h
  | collect scheduler f =>
    simp only [WorkerGroup.step] at hok
    have hwithin := h.within f
    cases hplace : g.place f with
    | collecting i =>
      rw [hplace] at hok hwithin
      dsimp only at hok
      split_ifs at hok with hmore
      · exact h.wait hok (by rw [hplace]; rfl) rfl rfl (by rw [hplace]; rfl) (by rw [hplace]; rfl) hmore hmore
      · cases hok
        exact h.collected hplace hmore
    | _ => rw [hplace] at hok; cases hok; exact h
  | yieldToHold f =>
    simp only [WorkerGroup.step] at hok
    split_ifs at hok with hqueued
    · cases hok; exact h.yieldToHold hqueued
    · cases hok; exact h
  | resume waiter =>
    simp only [WorkerGroup.step] at hok
    split_ifs at hok with hheld
    · have hinWait : (g.place waiter.2).inWait = true :=
        (h.inside waiter.2).mp (by rw [hheld.1]; exact WaitPhase.noConfusion)
      have hwithin := h.within waiter.2
      cases hplace : g.place waiter.2 with
      | scheduling =>
        rw [hplace] at hok
        cases hok
        exact h.resume hheld.2 (by rw [hplace]; rfl) rfl trivial
      | waiting i =>
        rw [hplace] at hok hwithin
        cases hok
        exact h.resume hheld.2 (by rw [hplace]; rfl) rfl hwithin
      | _ => rw [hplace] at hinWait; cases hinWait
    · cases hok; exact h
  | start f k =>
    simp only [WorkerGroup.step] at hok
    split_ifs at hok with hready
    · cases hok; exact h.start hready.1
    · cases hok; exact h
  | complete f k =>
    simp only [WorkerGroup.step] at hok
    split_ifs at hok with hworking
    · cases hok; exact h.complete hworking.1
    · cases hok; exact h
  | notify f =>
    simp only [WorkerGroup.step] at hok
    split_ifs at hok with hnotifying
    · cases hok; exact h.notify hnotifying
    · cases hok; exact h

/-- In every state of every run at most `batchSize` callbacks were accepted and have not completed, and once
`waitAll` has returned, every accepted callback has completed exactly once. -/
theorem wait_all_drains (h : Runs.Reaches WorkerGroup.step (fun _ _ => True) (new batchSize : WorkerGroup S F) g) :
    Drains batchSize g := by
  have hinv : Inv batchSize g := by
    refine h.invariant (Inv batchSize) (Inv.new batchSize) fun g i g' hg _ hok => ?_
    exact hg.step hok
  exact hinv.drains

end Invariant

/-- One callback in a group of one: `waitAll` queues itself behind it and returns once it has completed. -/
theorem wait_all_drains_oneCallback :
    ∃ g : WorkerGroup Unit Bool, Runs.Reaches step (fun _ _ => True) (new 1) g ∧ g.place false = .waited ∧
      g.accepted = 1 ∧ Drains 1 g := by
  have hadmitted : Runs.Reaches step (fun _ _ => True) (new 1 : WorkerGroup Unit Bool) _ :=
    .next .start (.schedule (some ()) false) trivial rfl
  have hworking := (hadmitted.next (.submit false) trivial rfl).next (.start true 0) trivial rfl
  have hqueued := (hworking.next (.waitAll false) trivial rfl).next (.collect (some ()) false) trivial rfl
  have hdone := (hqueued.next (.complete true 0) trivial rfl).next (.notify true) trivial rfl
  have hresumed := (hdone.next (.yieldToHold false) trivial rfl).next (.resume ((), false)) trivial rfl
  have hwaited := hresumed.next (.collect (some ()) false) trivial rfl
  exact ⟨_, hwaited, rfl, rfl, wait_all_drains hwaited⟩

end WorkerGroup

end Bobliew
