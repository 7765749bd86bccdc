import Bobliew.Lib.Fifo
import Bobliew.Lib.Runs

/-!
# The fiber semaphore

`FiberSemaphore` counts permits and keeps the fibers that wait for one. The sections under `m_mutex` are
functions on the semaphore; around them any number of fibers enter `tryWait`, `wait` and `notify` in any
order, and a fiber that has queued itself yields some time later. `notify` either hands the permit to the
first waiter, by scheduling its fiber, or counts it.

No permit is lost or duplicated, and waiters are served in the order in which they arrived.
-/

namespace Bobliew

variable {S F : Type*}

/-- The semaphore: permits that are counted, and the waiters with the scheduler of each. -/
structure FiberSemaphore (S F : Type*) where
  concurrency : ℕ
  waiters : List (S × F)

namespace FiberSemaphore

/-- The constructor. -/
def new (initialConcurrency : ℕ) : FiberSemaphore S F := ⟨initialConcurrency, []⟩

/-- The locked part of `tryWait`. -/
def tryWait (s : FiberSemaphore S F) : Bool × FiberSemaphore S F :=
  if s.concurrency > 0 then (true, { s with concurrency := s.concurrency - 1 })
  else (false, s)

/-- The locked part of `wait`: whether the caller returns at once, or has queued itself and is to yield. -/
def wait (s : FiberSemaphore S F) (waiter : S × F) : Bool × FiberSemaphore S F :=
  if s.concurrency > 0 then (true, { s with concurrency := s.concurrency - 1 })
  else (false, { s with waiters := s.waiters ++ [waiter] })

/-- `notify`, with the waiter it schedules. -/
def notify (s : FiberSemaphore S F) : Option (S × F) × FiberSemaphore S F :=
  match s.waiters with
  | next :: rest => (some next, { s with waiters := rest })
  | [] => (none, { s with concurrency := s.concurrency + 1 })

end FiberSemaphore

/-- Where a fiber is with respect to `wait`: elsewhere, queued but still executing, or yielded. -/
inductive WaitPhase where
  | running
  | queued
  | held
deriving DecidableEq

/-- What a call outside of a scheduler runs into. -/
inductive SemaphoreFault where
  | notInScheduler

/-- A semaphore with the fibers around it: the schedules of `notify` that no fiber has been resumed by
yet, and the history (the waiters that were queued and served, the waits granted at once, the notifies). -/
structure SemaphoreUse (S F : Type*) where
  semaphore : FiberSemaphore S F
  phase : F → WaitPhase
  scheduled : List (S × F)
  queueing : List (Fifo.Action (S × F))
  immediate : ℕ
  notifies : ℕ

/-- One atomic step. -/
inductive SemaphoreStep (S F : Type*) where
  | tryWait (scheduler : Option S) (f : F)
  | wait (scheduler : Option S) (f : F)
  | yieldToHold (f : F)
  | notify
  | resume (waiter : S × F)

namespace SemaphoreUse

/-- A new semaphore that no fiber has used. -/
def init (initialConcurrency : ℕ) : SemaphoreUse S F :=
  ⟨.new initialConcurrency, fun _ => .running, [], [], 0, 0⟩

/-- The waiters in the order of their arrival. -/
def arrivals (s : SemaphoreUse S F) : List (S × F) := s.queueing.filterMap Fifo.Action.pushed?

/-- The waiters a permit was handed to, in that order. -/
def served (s : SemaphoreUse S F) : List (S × F) := s.queueing.filterMap Fifo.Action.popped?

/-- The number of granted waits. -/
def granted (s : SemaphoreUse S F) : ℕ := s.immediate + s.served.length

/-- `notify`, called from anywhere. -/
def notify (s : SemaphoreUse S F) : SemaphoreUse S F :=
  match s.semaphore.notify with
  | (some next, semaphore) =>
    { s with
      semaphore
      scheduled := s.scheduled ++ [next]
      queueing := s.queueing ++ [Fifo.Action.pop next]
      notifies := s.notifies + 1 }
  | (none, semaphore) => { s with semaphore, notifies := s.notifies + 1 }

section Step

variable [DecidableEq S] [DecidableEq F]

/-- Change the phase of a fiber. -/
def move (s : SemaphoreUse S F) (f : F) (phase : WaitPhase) : SemaphoreUse S F :=
  { s with phase := Function.update s.phase f phase }

/-- `tryWait` in a fiber of a scheduler. -/
def tryWait (s : SemaphoreUse S F) : SemaphoreUse S F :=
  match s.semaphore.tryWait with
  | (true, semaphore) => { s with semaphore, immediate := s.immediate + 1 }
  | (false, semaphore) => { s with semaphore }

/-- `wait` up to the end of the locked part. -/
def wait (s : SemaphoreUse S F) (waiter : S × F) : SemaphoreUse S F :=
  match s.semaphore.wait waiter with
  | (true, semaphore) => { s with semaphore, immediate := s.immediate + 1 }
  | (false, semaphore) =>
    { s with semaphore, queueing := s.queueing ++ [Fifo.Action.push waiter] }.move waiter.2 .queued

/-- The scheduler runs a fiber that a `notify` scheduled: its `wait` returns. -/
def resume (s : SemaphoreUse S F) (waiter : S × F) : SemaphoreUse S F :=
  { s with scheduled := s.scheduled.erase waiter }.move waiter.2 .running

/-- A fiber may be resumed: it has yielded, and a `notify` has scheduled it. -/
def Resumable (s : SemaphoreUse S F) (waiter : S × F) : Prop :=
  s.phase waiter.2 = .held ∧ waiter ∈ s.scheduled

instance (s : SemaphoreUse S F) (waiter : S × F) : Decidable (s.Resumable waiter) :=
  inferInstanceAs (Decidable (_ ∧ _))

/-- Perform one step. A step that does not fit the phase of its fiber changes nothing: a fiber in `wait`
calls nothing, and only a fiber that has yielded is resumed, by a schedule of `notify`. -/
def step (s : SemaphoreUse S F) : SemaphoreStep S F → Except SemaphoreFault (SemaphoreUse S F)
  | .tryWait scheduler f =>
    if s.phase f ≠ .running then .ok s
    else if scheduler.isSome then .ok s.tryWait
    else .error .notInScheduler
  | .wait scheduler f =>
    if s.phase f ≠ .running then .ok s
    else match scheduler with
    | some scheduler => .ok (s.wait (scheduler, f))
    | none => .error .notInScheduler
  | .yieldToHold f => if s.phase f = .queued then .ok (s.move f .held) else .ok s
  | .notify => .ok s.notify
  | .resume waiter =>
    if s.Resumable waiter then .ok (s.resume waiter) else .ok s

end Step

/-- Permits are conserved: a fiber waits only when none is counted, every permit put in is counted or was
granted, those served are the first to have arrived, and each fiber in `wait` has one entry, either among
the waiters or among the schedules of `notify`. -/
structure Conserves (initialConcurrency : ℕ) (s : SemaphoreUse S F) : Prop where
  starved : s.semaphore.waiters ≠ [] → s.semaphore.concurrency = 0
  counted : initialConcurrency + s.notifies = s.semaphore.concurrency + s.granted
  inOrder : s.arrivals = s.served ++ s.semaphore.waiters
  once : ((s.scheduled ++ s.semaphore.waiters).map Prod.snd).Nodup
  placed : ∀ f, f ∈ (s.scheduled ++ s.semaphore.waiters).map Prod.snd ↔ s.phase f ≠ .running

/-- The invariant: permits are conserved, and the history is a run of a queue. -/
structure Inv (initialConcurrency : ℕ) (s : SemaphoreUse S F) : Prop where
  starved : s.semaphore.waiters ≠ [] → s.semaphore.concurrency = 0
  counted : initialConcurrency + s.notifies = s.semaphore.concurrency + s.granted
  queue : Fifo.Run s.queueing s.semaphore.waiters
  once : ((s.scheduled ++ s.semaphore.waiters).map Prod.snd).Nodup
  placed : ∀ f, f ∈ (s.scheduled ++ s.semaphore.waiters).map Prod.snd ↔ s.phase f ≠ .running

section Invariant

variable {initialConcurrency : ℕ} {s s' : SemaphoreUse S F}

/-- At the start every permit is counted. -/
theorem Inv.init (initialConcurrency : ℕ) :
    Inv initialConcurrency (init initialConcurrency : SemaphoreUse S F) where
  starved h := absurd rfl h
  counted := rfl
  queue := .nil
  once := List.nodup_nil
  placed f := by simp [SemaphoreUse.init, FiberSemaphore.new]

/-- The history gives the order of service. -/
theorem Inv.conserves (h : Inv initialConcurrency s) : Conserves initialConcurrency s where
  starved := h.starved
  counted := h.counted
  inOrder := h.queue.pushed_eq
  once := h.once
  placed := h.placed

/-- A waiter that is pushed is not served. -/
theorem served_push (s : SemaphoreUse S F) (waiter : S × F) :
    (s.queueing ++ [Fifo.Action.push waiter]).filterMap Fifo.Action.popped? = s.served := by
  simp [served, Fifo.Action.popped?]

/-- A waiter that is popped is served. -/
theorem served_pop (s : SemaphoreUse S F) (waiter : S × F) :
    (s.queueing ++ [Fifo.Action.pop waiter]).filterMap Fifo.Action.popped? = s.served ++ [waiter] := by
  simp [served, Fifo.Action.popped?]

/-- `notify` schedules a fiber for each wait it grants. -/
theorem notify_spec (s : SemaphoreUse S F) :
    s.notify.phase = s.phase ∧ s.notify.notifies = s.notifies + 1 ∧
      s.notify.granted + s.scheduled.length = s.granted + s.notify.scheduled.length := by
  unfold notify FiberSemaphore.notify
  cases s.semaphore.waiters with
  | nil => exact ⟨rfl, rfl, rfl⟩
  | cons next rest =>
    refine ⟨rfl, rfl, ?_⟩
    simp only [granted]
    rw [served, served_pop, List.length_append, List.length_append, List.length_singleton]
    omega

/-- `notify` hands its permit to the first waiter, or counts it when there is none. -/
theorem Inv.notify (h : Inv initialConcurrency s) : Inv initialConcurrency s.notify := by
  unfold SemaphoreUse.notify FiberSemaphore.notify
  have hcounted := h.counted
  have hqueue := h.queue
  have honce := h.once
  have hplaced := h.placed
  cases hwaiters : s.semaphore.waiters with
  | nil =>
    rw [hwaiters] at hqueue honce hplaced
    exact
      { starved := fun hsome => absurd rfl hsome
        counted := by simp only [granted, served] at hcounted ⊢; omega
        queue := hqueue
        once := honce
        placed := hplaced }
  | cons next rest =>
    have hzero : s.semaphore.concurrency = 0 := h.starved (by rw [hwaiters]; exact List.cons_ne_nil _ _)
    rw [hwaiters] at hqueue honce hplaced
    have hsplit : s.scheduled ++ next :: rest = (s.scheduled ++ [next]) ++ rest := by simp
    rw [hsplit] at honce hplaced
    exact
      { starved := fun _ => hzero
        counted := by
          simp only [granted] at hcounted ⊢
          rw [SemaphoreUse.served, served_pop, List.length_append, List.length_singleton]
          omega
        queue := hqueue.pop
        once := honce
        placed := hplaced }

/-- A wait that is granted at once takes a counted permit, so that nobody was waiting. -/
theorem Inv.acquire (h : Inv initialConcurrency s) (hpositive : s.semaphore.concurrency > 0) :
    Inv initialConcurrency
      { s with
        semaphore := { s.semaphore with concurrency := s.semaphore.concurrency - 1 }
        immediate := s.immediate + 1 } where
  starved hsome := absurd (h.starved hsome) (Nat.ne_of_gt hpositive)
  counted := by
    have hcounted := h.counted
    simp only [granted, served] at hcounted ⊢
    omega
  queue := h.queue
  once := h.once
  placed := h.placed

/-- `tryWait` takes a counted permit or leaves everything as it is. -/
theorem Inv.tryWait (h : Inv initialConcurrency s) : Inv initialConcurrency s.tryWait := by
  unfold SemaphoreUse.tryWait FiberSemaphore.tryWait
  by_cases hpositive : s.semaphore.concurrency > 0
  · rw [if_pos hpositive]
    exact h.acquire hpositive
  · rw [if_neg hpositive]
    exact h

variable [DecidableEq F]

/-- `wait` takes a counted permit or queues its fiber, which was running and so had no entry. -/
theorem Inv.wait (h : Inv initialConcurrency s) {waiter : S × F} (hrunning : s.phase waiter.2 = .running) :
    Inv initialConcurrency (s.wait waiter) := by
  unfold SemaphoreUse.wait FiberSemaphore.wait
  by_cases hpositive : s.semaphore.concurrency > 0
  · rw [if_pos hpositive]
    exact h.acquire hpositive
  · rw [if_neg hpositive]
    have hzero : s.semaphore.concurrency = 0 := Nat.eq_zero_of_not_pos hpositive
    have habsent : waiter.2 ∉ (s.scheduled ++ s.semaphore.waiters).map Prod.snd := fun hmem =>
      (h.placed waiter.2).mp hmem hrunning
    have hentries : (s.scheduled ++ (s.semaphore.waiters ++ [waiter])).map Prod.snd =
        (s.scheduled ++ s.semaphore.waiters).map Prod.snd ++ [waiter.2] := by simp
    exact
      { starved := fun _ => hzero
        counted := by
          have hcounted := h.counted
          simp only [move, granted] at hcounted ⊢
          rw [SemaphoreUse.served, served_push]
          exact hcounted
        queue := h.queue.push waiter
        once := by
          simp only [move]
          rw [hentries]
          exact h.once.append (List.nodup_singleton _) (by simpa using habsent)
        placed := by
          intro f
          simp only [move]
          rw [hentries, List.mem_append, h.placed f, List.mem_singleton, Function.update_apply]
          by_cases hf : f = waiter.2
          · simp [hf]
          · simp [hf] }

/-- `wait` is granted at once and leaves the phases alone, or its fiber is queued. -/
theorem wait_spec (s : SemaphoreUse S F) (waiter : S × F) :
    (s.wait waiter).scheduled = s.scheduled ∧ (s.wait waiter).notifies = s.notifies ∧
      ((s.wait waiter).phase = s.phase ∧ (s.wait waiter).granted = s.granted + 1 ∨
        (s.wait waiter).phase = Function.update s.phase waiter.2 .queued ∧
          (s.wait waiter).granted = s.granted) := by
  unfold wait FiberSemaphore.wait
  by_cases hpositive : s.semaphore.concurrency > 0
  · rw [if_pos hpositive]
    refine ⟨rfl, rfl, Or.inl ⟨rfl, ?_⟩⟩
    simp only [granted, served]
    omega
  · rw [if_neg hpositive]
    refine ⟨rfl, rfl, Or.inr ⟨rfl, ?_⟩⟩
    simp only [granted, move]
    rw [served, served_push]

/-- A fiber that yields keeps its entry. -/
theorem Inv.yieldToHold (h : Inv initialConcurrency s) {f : F} (hqueued : s.phase f = .queued) :
    Inv initialConcurrency (s.move f .held) where
  starved := h.starved
  counted := h.counted
  queue := h.queue
  once := h.once
  placed g := by
    simp only [move]
    rw [h.placed g, Function.update_apply]
    by_cases hg : g = f
    · simp [hg, hqueued]
    · simp [hg]

variable [DecidableEq S]

/-- A fiber that is resumed gives up its only entry. -/
theorem Inv.resume (h : Inv initialConcurrency s) {waiter : S × F} (hmem : waiter ∈ s.scheduled) :
    Inv initialConcurrency (s.resume waiter) where
  starved := h.starved
  counted := h.counted
  queue := h.queue
  once := by
    have hsub : (s.scheduled.erase waiter ++ s.semaphore.waiters).Sublist
        (s.scheduled ++ s.semaphore.waiters) := List.erase_sublist.append (List.Sublist.refl _)
    exact h.once.sublist (hsub.map Prod.snd)
  placed g := by
    have hperm : ((s.scheduled ++ s.semaphore.waiters).map Prod.snd).Perm
        (waiter.2 :: (s.scheduled.erase waiter ++ s.semaphore.waiters).map Prod.snd) :=
      ((List.perm_cons_erase hmem).append_right s.semaphore.waiters).map Prod.snd
    have habsent : waiter.2 ∉ (s.scheduled.erase waiter ++ s.semaphore.waiters).map Prod.snd :=
      (List.nodup_cons.mp (hperm.nodup h.once)).1
    have hbefore := h.placed g
    rw [hperm.mem_iff, List.mem_cons] at hbefore
    simp only [SemaphoreUse.resume, move]
    rw [Function.update_apply]
    by_cases hg : g = waiter.2
    · rw [if_pos hg, hg]
      exact ⟨fun hin => absurd hin habsent, fun hne => absurd rfl hne⟩
    · rw [if_neg hg, ← hbefore]
      exact ⟨Or.inr, fun hin => hin.resolve_left hg⟩

/-- Every step keeps the invariant. -/
theorem Inv.step (h : Inv initialConcurrency s) {i : SemaphoreStep S F} (hok : s.step i = .ok s') :
    Inv initialConcurrency s' := by
  cases i with
  | tryWait scheduler f =>
    simp only [SemaphoreUse.step] at hok
    split_ifs at hok
    · cases hok; exact h
    · cases hok; exact h.tryWait
  | wait scheduler f =>
    simp only [SemaphoreUse.step] at hok
    by_cases hrunning : s.phase f = .running
    · rw [if_neg (not_not_intro hrunning)] at hok
      cases scheduler with
      | none => cases hok
      | some scheduler => cases hok; exact h.wait hrunning
    · rw [if_pos hrunning] at hok
      cases hok
      exact h
  | yieldToHold f =>
    simp only [SemaphoreUse.step] at hok
    split_ifs at hok with hqueued
    · cases hok; exact h.yieldToHold hqueued
    · cases hok; exact h
  | notify => cases hok; exact h.notify
  | resume waiter =>
    simp only [SemaphoreUse.step] at hok
    split_ifs at hok with hheld
    · cases hok; exact h.resume hheld.2
    · cases hok; exact h

/-- The invariant holds in every reached state. -/
theorem Inv.reached
    (h : Runs.Reaches SemaphoreUse.step (fun _ _ => True)
      (SemaphoreUse.init initialConcurrency : SemaphoreUse S F) s) :
    Inv initialConcurrency s := by
  refine h.invariant (Inv initialConcurrency) (Inv.init initialConcurrency) fun s i s' hs _ hok => ?_
  exact hs.step hok

/-- Over any use of the semaphore no permit is lost or duplicated, a fiber waits only when no permit is
counted, and waiters are granted once each, in the order of their arrival. -/
theorem permits_conserved
    (h : Runs.Reaches step (fun _ _ => True) (SemaphoreUse.init initialConcurrency : SemaphoreUse S F) s) :
    Conserves initialConcurrency s := by
  have hinv : Inv initialConcurrency s := Inv.reached h
  exact hinv.conserves

end Invariant

/-- With one permit, a second fiber queues itself and is granted the permit before it has yielded. -/
theorem permits_conserved_earlyNotify :
    ∃ s : SemaphoreUse Unit Bool, Runs.Reaches step (fun _ _ => True) (SemaphoreUse.init 1) s ∧
      s.phase true = .queued ∧ s.served = [((), true)] ∧ Conserves 1 s := by
  have htaken : Runs.Reaches step (fun _ _ => True) (SemaphoreUse.init 1 : SemaphoreUse Unit Bool) _ :=
    .next .start (.wait (some ()) false) trivial rfl
  have hqueued := htaken.next (.wait (some ()) true) trivial rfl
  have hserved := hqueued.next .notify trivial rfl
  exact ⟨_, hserved, rfl, rfl, permits_conserved hserved⟩

end SemaphoreUse

end Bobliew
