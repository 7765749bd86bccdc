import Bobliew.Scheduler.Run

/-!
# Switching fibers on several threads

A model of the switch in and out of a fiber at the grain at which threads can interleave. `swapIn`
sets the state to `EXEC` and then switches to the saved context; a yield publishes the new state,
then saves the context and switches to the thread's main fiber, and `run` then updates the state once
more. A context is numbered by the switch-out that saved it, and a fiber counts the switch-outs it has
begun, so a context is the latest one when the two numbers agree.

The state alone does not protect a fiber: between the publication and the end of the update another
thread may already take it. When no `swapIn` falls into that window, at most one thread executes a
fiber and every switch resumes the latest context.
-/

namespace Bobliew

/-- A fiber as the threads see it: its state, the number of the context in `m_ctx`, and the number of
switch-outs begun. -/
structure SwitchFiber where
  state : FiberState
  ctx : ℕ
  turn : ℕ

/-- Where a thread is with respect to the fiber it has in hand; while executing it knows the number of
the context it resumed. -/
inductive Phase where
  | main
  | taken (f : ℕ)
  | entering (f : ℕ)
  | executing (f ctx : ℕ)
  | yielding (f ctx : ℕ)
  | returned (f : ℕ)
  deriving DecidableEq

/-- The fiber a thread has switched to or is about to switch to, until `run` has updated its state. -/
def Phase.owned : Phase → Option ℕ
  | .main => none
  | .taken _ => none
  | .entering f => some f
  | .executing f _ => some f
  | .yielding f _ => some f
  | .returned f => some f

/-- The fiber whose code a thread executes. -/
def Phase.executed : Phase → Option ℕ
  | .executing f _ => some f
  | .yielding f _ => some f
  | _ => none

/-- The fiber a thread has published a new state of, and not yet updated. -/
def Phase.published : Phase → Option ℕ
  | .yielding f _ => some f
  | .returned f => some f
  | _ => none

/-- The fibers, the shared queue and the phase of every thread. -/
structure Workers where
  heap : ℕ → SwitchFiber
  fibers : List (FiberAndThread Empty)
  phase : ℤ → Phase

namespace Workers

/-- Every fiber has the context made by its constructor, and every thread is in its main fiber. -/
def init : Workers where
  heap := fun _ => ⟨.init, 0, 0⟩
  fibers := []
  phase := fun _ => .main

/-- Change the phase of a thread and one fiber. -/
def move (s : Workers) (t : ℤ) (phase : Phase) (f : ℕ) (fiber : SwitchFiber) : Workers :=
  { s with heap := Function.update s.heap f fiber, phase := Function.update s.phase t phase }

/-- Dequeue in `run`: the first item that may run on the thread and is not in state `EXEC`. -/
def dequeue (s : Workers) (t : ℤ) : Except SchedulerFault Workers := do
  match ← pick (fun f => (s.heap f).state) t s.fibers with
  | some (⟨some f, _, _⟩, rest) =>
    .ok { s with fibers := rest, phase := Function.update s.phase t (.taken f) }
  | some (⟨none, _, _⟩, rest) => .ok { s with fibers := rest }
  | none => .ok s

/-- `swapIn` up to the switch; `run` passes over a fiber that has ended. -/
def swapIn (s : Workers) (t : ℤ) : Except SchedulerFault Workers :=
  match s.phase t with
  | .taken f =>
    let fiber := s.heap f
    if fiber.state = .term ∨ fiber.state = .except then
      .ok { s with phase := Function.update s.phase t .main }
    else if fiber.state = .exec then .error .swapInAssert
    else .ok (s.move t (.entering f) f { fiber with state := .exec })
  | _ => .ok s

/-- The switch in `swapIn`. -/
def enter (s : Workers) (t : ℤ) : Workers :=
  match s.phase t with
  | .entering f => s.move t (.executing f (s.heap f).ctx) f (s.heap f)
  | _ => s

/-- The fiber's code publishes a new state before it switches out. -/
def publish (s : Workers) (t : ℤ) (state : FiberState) : Workers :=
  match s.phase t with
  | .executing f ctx =>
    s.move t (.yielding f ctx) f { s.heap f with state := state, turn := (s.heap f).turn + 1 }
  | _ => s

/-- The switch in `swapOut`, which saves the context. -/
def save (s : Workers) (t : ℤ) : Workers :=
  match s.phase t with
  | .yielding f ctx => s.move t (.returned f) f { s.heap f with ctx := ctx + 1 }
  | _ => s

/-- The update `run` makes after the switch. -/
def update (s : Workers) (t : ℤ) : Workers :=
  match s.phase t with
  | .returned f =>
    let fiber := s.heap f
    if fiber.state = .ready then
      { s.move t .main f fiber with fibers := s.fibers ++ [⟨some f, none, -1⟩] }
    else if fiber.state ≠ .term ∧ fiber.state ≠ .except then
      s.move t .main f { fiber with state := .hold }
    else s.move t .main f fiber
  | _ => s

/-- What a yield, a return or an exception publishes. -/
inductive Departure where
  | yieldToHold
  | yieldToReady
  | finish
  | throw

/-- The published state. -/
def Departure.state : Departure → FiberState
  | .yieldToHold => .hold
  | .yieldToReady => .ready
  | .finish => .term
  | .throw => .except

/-- One atomic step; anyone may enqueue a fiber at any time. -/
inductive Op where
  | enqueue (f : ℕ) (thread : ℤ)
  | dequeue (t : ℤ)
  | swapIn (t : ℤ)
  | enter (t : ℤ)
  | publish (t : ℤ) (departure : Departure)
  | save (t : ℤ)
  | update (t : ℤ)

/-- Perform one step. -/
def step (s : Workers) : Op → Except SchedulerFault Workers
  | .enqueue f thread => .ok { s with fibers := s.fibers ++ [⟨some f, none, thread⟩] }
  | .dequeue t => s.dequeue t
  | .swapIn t => s.swapIn t
  | .enter t => .ok (s.enter t)
  | .publish t departure => .ok (s.publish t departure.state)
  | .save t => .ok (s.save t)
  | .update t => .ok (s.update t)

/-- A thread dequeues only from its main fiber. -/
def Permitted (s : Workers) : Op → Prop
  | .dequeue t => s.phase t = .main
  | _ => True

/-- A `swapIn` does not fall between the publication of the fiber's state by another thread and that
thread's update of it. A fiber that has ended is passed over, which does not matter. -/
def Undisturbed (s : Workers) : Op → Prop
  | .swapIn t => ∀ f, s.phase t = .taken f → (s.heap f).state ≠ .term → (s.heap f).state ≠ .except →
      ∀ t', (s.phase t').published ≠ some f
  | _ => True

/-- At most one thread executes a fiber. -/
def Exclusive (s : Workers) : Prop :=
  ∀ t t' f, (s.phase t).executed = some f → (s.phase t').executed = some f → t = t'

/-- A thread about to switch to a fiber finds the context saved by the latest switch-out, and no
thread executes the fiber. -/
def Current (s : Workers) : Prop :=
  ∀ t f, s.phase t = .entering f →
    (s.heap f).ctx = (s.heap f).turn ∧ ∀ t', (s.phase t').executed ≠ some f

/-- A fiber agrees with the phase of the thread that owns it. -/
def Agrees (fiber : SwitchFiber) : Phase → Prop
  | .main => True
  | .taken _ => True
  | .entering _ => fiber.state = .exec ∧ fiber.ctx = fiber.turn
  | .executing _ ctx => fiber.state = .exec ∧ fiber.ctx = fiber.turn ∧ ctx = fiber.turn
  | .yielding _ ctx => ctx + 1 = fiber.turn
  | .returned _ => fiber.ctx = fiber.turn

/-- The invariant: a fiber has one owner, agrees with its phase, and otherwise has its latest context
saved. -/
structure Inv (s : Workers) : Prop where
  unique : ∀ t t' f, (s.phase t).owned = some f → (s.phase t').owned = some f → t = t'
  agrees : ∀ t f, (s.phase t).owned = some f → Agrees (s.heap f) (s.phase t)
  saved : ∀ f, (∀ t, (s.phase t).owned ≠ some f) → (s.heap f).ctx = (s.heap f).turn

variable {s s' : Workers} {t : ℤ} {f : ℕ}

/-- The phase of a thread after one is changed. -/
theorem phase_update (s : Workers) (t : ℤ) (phase : Phase) (t' : ℤ) :
    Function.update s.phase t phase t' = if t' = t then phase else s.phase t' := by
  by_cases ht : t' = t
  · simp [ht]
  · simp [ht]

/-- A thread that owns nothing before and after does not matter. -/
theorem Inv.idle (h : Inv s) (hold : (s.phase t).owned = none) {phase : Phase}
    (hnew : phase.owned = none) (fibers : List (FiberAndThread Empty)) :
    Inv { s with fibers := fibers, phase := Function.update s.phase t phase } := by
  have howned (t' : ℤ) : (Function.update s.phase t phase t').owned = (s.phase t').owned := by
    rw [phase_update]
    split
    · rename_i ht
      rw [hnew, ht, hold]
    · rfl
  refine ⟨fun t₁ t₂ f h₁ h₂ => ?_, fun t' f ht' => ?_, fun f hfree => ?_⟩
  · exact h.unique t₁ t₂ f ((howned t₁).symm.trans h₁) ((howned t₂).symm.trans h₂)
  · have hmine := (howned t').symm.trans ht'
    have hagrees := h.agrees t' f hmine
    change Agrees (s.heap f) (Function.update s.phase t phase t')
    rw [phase_update]
    split
    · rename_i ht
      rw [ht, hold] at hmine
      cases hmine
    · exact hagrees
  · exact h.saved f fun t' ht' => hfree t' ((howned t').trans ht')

/-- A thread that owns a fiber, or acquires one nobody owns, may change it as its new phase says. -/
theorem Inv.move (h : Inv s) {phase : Phase} {fiber : SwitchFiber}
    (hbefore : (s.phase t).owned = some f ∨
      ((s.phase t).owned = none ∧ ∀ t', (s.phase t').owned ≠ some f))
    (hafter : phase.owned = some f ∨ (phase.owned = none ∧ fiber.ctx = fiber.turn))
    (hagrees : Agrees fiber phase) : Inv (s.move t phase f fiber) := by
  have hother (t' : ℤ) (ht : t' ≠ t) : (s.phase t').owned ≠ some f := by
    rcases hbefore with howner | ⟨_, hfree⟩
    · exact fun hmine => ht (h.unique t' t f hmine howner)
    · exact hfree t'
  have hphase (t' : ℤ) : (s.move t phase f fiber).phase t' = if t' = t then phase else s.phase t' :=
    phase_update s t phase t'
  have hheap (g : ℕ) : (s.move t phase f fiber).heap g = if g = f then fiber else s.heap g := by
    by_cases hg : g = f
    · simp [Workers.move, hg]
    · simp [Workers.move, hg]
  have hnew (g : ℕ) (hg : phase.owned = some g) : g = f := by
    rcases hafter with howner | ⟨hnone, _⟩
    · rw [howner] at hg
      exact (Option.some.inj hg).symm
    · rw [hnone] at hg
      cases hg
  refine ⟨fun t₁ t₂ g h₁ h₂ => ?_, fun t' g ht' => ?_, fun g hfree => ?_⟩
  · rw [hphase] at h₁ h₂
    split at h₁ <;> split at h₂
    · rename_i ht₁ ht₂
      rw [ht₁, ht₂]
    · rename_i ht₂
      exact absurd ((hnew g h₁) ▸ h₂) (hother t₂ ht₂)
    · rename_i ht₁ _
      exact absurd ((hnew g h₂) ▸ h₁) (hother t₁ ht₁)
    · exact h.unique t₁ t₂ g h₁ h₂
  · rw [hphase] at ht' ⊢
    rw [hheap]
    split at ht'
    · rename_i ht
      rw [if_pos ht, if_pos (hnew g ht')]
      exact hagrees
    · rename_i ht
      rw [if_neg ht, if_neg fun hg : g = f => hother t' ht (hg ▸ ht')]
      exact h.agrees t' g ht'
  · rw [hheap]
    split
    · rename_i hg
      rcases hafter with howner | ⟨_, hsaved⟩
      · refine absurd howner ?_
        have hmine := hfree t
        rwa [hphase, if_pos rfl, hg] at hmine
      · exact hsaved
    · rename_i hg
      refine h.saved g fun t' ht' => ?_
      by_cases ht : t' = t
      · rw [ht] at ht'
        rcases hbefore with howner | ⟨hnone, _⟩
        · rw [howner] at ht'
          exact hg (Option.some.inj ht').symm
        · rw [hnone] at ht'
          cases ht'
      · have hmine := hfree t'
        rw [hphase, if_neg ht] at hmine
        exact hmine ht'

/-- The initial state satisfies the invariant. -/
theorem Inv.init : Inv Workers.init where
  unique := fun _ _ _ h => nomatch h
  agrees := fun _ _ h => nomatch h
  saved := fun _ _ => rfl

/-- The invariant does not mention the queue. -/
theorem Inv.withFibers (h : Inv s) (fibers : List (FiberAndThread Empty)) :
    Inv { s with fibers := fibers } :=
  ⟨h.unique, h.agrees, h.saved⟩

/-- A fiber that is not executing and not published has no owner. -/
theorem Inv.not_owned (h : Inv s) (hexec : (s.heap f).state ≠ .exec)
    (hpublished : ∀ t', (s.phase t').published ≠ some f) (t' : ℤ) : (s.phase t').owned ≠ some f := by
  intro howned
  have hagrees := h.agrees t' f howned
  have hunpublished := hpublished t'
  cases hphase : s.phase t' with
  | main =>
    rw [hphase] at howned
    cases howned
  | taken g =>
    rw [hphase] at howned
    cases howned
  | entering g =>
    rw [hphase] at hagrees
    exact hexec hagrees.1
  | executing g ctx =>
    rw [hphase] at hagrees
    exact hexec hagrees.1
  | yielding g ctx =>
    rw [hphase] at hunpublished howned
    exact hunpublished howned
  | returned g =>
    rw [hphase] at hunpublished howned
    exact hunpublished howned

/-- `swapIn` outside the window acquires a fiber nobody owns. -/
theorem Inv.swapIn (h : Inv s) (hundisturbed : Undisturbed s (.swapIn t)) (hok : s.swapIn t = .ok s') :
    Inv s' := by
  unfold Workers.swapIn at hok
  split at hok
  · rename_i f hphase
    have hnone : (s.phase t).owned = none := by
      rw [hphase]
      rfl
    dsimp only at hok
    split at hok
    · cases hok
      exact h.idle hnone rfl s.fibers
    · split at hok
      · cases hok
      · rename_i hended hexec
        cases hok
        rw [not_or] at hended
        have hfree := h.not_owned hexec (hundisturbed f hphase hended.1 hended.2)
        exact h.move (Or.inr ⟨hnone, hfree⟩) (Or.inl rfl) ⟨rfl, h.saved f hfree⟩
  · cases hok
    exact h

/-- Dequeueing gives a thread nothing to own yet. -/
theorem Inv.dequeue (h : Inv s) (hmain : s.phase t = .main) (hok : s.dequeue t = .ok s') : Inv s' := by
  obtain ⟨picked, _, hpicked⟩ := Except.exists_of_bind_eq_ok hok
  match picked with
  | none =>
    cases hpicked
    exact h
  | some (⟨some f, _, _⟩, rest) =>
    cases hpicked
    exact h.idle (by rw [hmain]; rfl) rfl rest
  | some (⟨none, _, _⟩, rest) =>
    cases hpicked
    exact h.withFibers rest

/-- The switch into a fiber keeps the invariant. -/
theorem Inv.enter (h : Inv s) (t : ℤ) : Inv (s.enter t) := by
  unfold Workers.enter
  split
  · rename_i f hphase
    have howned : (s.phase t).owned = some f := by rw [hphase]; rfl
    have hagrees := h.agrees t f howned
    rw [hphase] at hagrees
    exact h.move (Or.inl howned) (Or.inl rfl) ⟨hagrees.1, hagrees.2, hagrees.2⟩
  · exact h

/-- Publishing a state keeps the invariant. -/
theorem Inv.publish (h : Inv s) (t : ℤ) (state : FiberState) : Inv (s.publish t state) := by
  unfold Workers.publish
  split
  · rename_i f ctx hphase
    have howned : (s.phase t).owned = some f := by rw [hphase]; rfl
    have hagrees := h.agrees t f howned
    rw [hphase] at hagrees
    exact h.move (Or.inl howned) (Or.inl rfl) (congrArg Nat.succ hagrees.2.2)
  · exact h

/-- Saving the context keeps the invariant. -/
theorem Inv.save (h : Inv s) (t : ℤ) : Inv (s.save t) := by
  unfold Workers.save
  split
  · rename_i f ctx hphase
    have howned : (s.phase t).owned = some f := by rw [hphase]; rfl
    have hagrees := h.agrees t f howned
    rw [hphase] at hagrees
    exact h.move (Or.inl howned) (Or.inl rfl) hagrees
  · exact h

/-- The update after the switch gives the fiber up. -/
theorem Inv.update (h : Inv s) (t : ℤ) : Inv (s.update t) := by
  unfold Workers.update
  split
  · rename_i f hphase
    have howned : (s.phase t).owned = some f := by rw [hphase]; rfl
    have hagrees : (s.heap f).ctx = (s.heap f).turn := by
      have hagrees := h.agrees t f howned
      rwa [hphase] at hagrees
    have hgive (fiber : SwitchFiber) (hsaved : fiber.ctx = fiber.turn) :
        Inv (s.move t .main f fiber) :=
      h.move (Or.inl howned) (Or.inr ⟨rfl, hsaved⟩) trivial
    dsimp only
    split
    · exact (hgive (s.heap f) hagrees).withFibers _
    · split
      · exact hgive _ hagrees
      · exact hgive _ hagrees
  · exact h

/-- Every step outside the window keeps the invariant. -/
theorem Inv.step (h : Inv s) {op : Op} (hop : Permitted s op ∧ Undisturbed s op)
    (hok : s.step op = .ok s') : Inv s' := by
  cases op with
  | enqueue f thread =>
    cases hok
    exact h.withFibers _
  | dequeue t => exact h.dequeue hop.1 hok
  | swapIn t => exact h.swapIn hop.2 hok
  | enter t =>
    cases hok
    exact h.enter t
  | publish t departure =>
    cases hok
    exact h.publish t departure.state
  | save t =>
    cases hok
    exact h.save t
  | update t =>
    cases hok
    exact h.update t

/-- What a thread executes, it owns. -/
theorem owned_of_executed {phase : Phase} (h : phase.executed = some f) : phase.owned = some f := by
  cases phase <;> first | exact h | cases h

/-- In every run in which no `swapIn` falls between the publication of the fiber's state by a thread
and that thread's update, at most one thread executes a fiber at any time and every switch into a
fiber finds the context saved by its latest switch-out. -/
theorem switches_exclusive
    (h : Runs.Reaches step (fun s op => Permitted s op ∧ Undisturbed s op) init s) :
    s.Exclusive ∧ s.Current := by
  have hs : Inv s := h.invariant Inv Inv.init fun _ _ _ hs hop hok => hs.step hop hok
  refine ⟨fun t t' f ht ht' => ?_, fun t f ht => ?_⟩
  · exact hs.unique t t' f (owned_of_executed ht) (owned_of_executed ht')
  · have howned : (s.phase t).owned = some f := by rw [ht]; rfl
    have hagrees := hs.agrees t f howned
    rw [ht] at hagrees
    refine ⟨hagrees.2, fun t' ht' => ?_⟩
    rw [hs.unique t' t f (owned_of_executed ht') howned, ht] at ht'
    cases ht'

/-- Thread 1 takes fiber 0 and switches to it. -/
theorem switches_exclusive_oneThread :
    ∃ s, Runs.Reaches step (fun s op => Permitted s op ∧ Undisturbed s op) init s ∧
      s.phase 1 = .executing 0 0 ∧ s.Exclusive ∧ s.Current := by
  have hqueued : Runs.Reaches step (fun s op => Permitted s op ∧ Undisturbed s op) init _ :=
    .next .start (.enqueue 0 (-1)) ⟨trivial, trivial⟩ rfl
  have htaken := hqueued.next (.dequeue 1) ⟨rfl, trivial⟩ rfl
  have hwindow (f : ℕ) (t' : ℤ) : (Function.update init.phase 1 (.taken 0) t').published ≠ some f := by
    rw [phase_update]
    split <;> exact fun hpublished => nomatch hpublished
  have hin := htaken.next (.swapIn 1) ⟨trivial, fun f _ _ _ => hwindow f⟩ rfl
  have hrunning := hin.next (.enter 1) ⟨trivial, trivial⟩ rfl
  exact ⟨_, hrunning, rfl, switches_exclusive hrunning⟩

/-- Thread 0 executes fiber 0 and publishes `HOLD`; the fiber is woken and thread 1 switches to it
before its context is saved. Both threads execute the fiber, thread 1 in the context thread 0 had
resumed. -/
theorem woken_before_saved :
    ∃ s, Runs.Reaches step Permitted init s ∧ s.phase 0 = .yielding 0 0 ∧
      s.phase 1 = .executing 0 0 ∧ (s.heap 0).turn = 1 ∧ ¬ s.Exclusive := by
  have hqueued : Runs.Reaches step Permitted init _ := .next .start (.enqueue 0 (-1)) trivial rfl
  have htaken := hqueued.next (.dequeue 0) rfl rfl
  have hin := htaken.next (.swapIn 0) trivial rfl
  have hrunning := hin.next (.enter 0) trivial rfl
  have hpublished := hrunning.next (.publish 0 .yieldToHold) trivial rfl
  have hwoken := hpublished.next (.enqueue 0 (-1)) trivial rfl
  have htaken' := hwoken.next (.dequeue 1) rfl rfl
  have hin' := htaken'.next (.swapIn 1) trivial rfl
  have hboth := hin'.next (.enter 1) trivial rfl
  refine ⟨_, hboth, rfl, rfl, rfl, fun hexclusive => ?_⟩
  exact absurd (hexclusive 0 1 0 rfl rfl) (by decide)

end Workers

end Bobliew
