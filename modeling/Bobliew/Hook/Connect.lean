import Bobliew.Hook.Descriptors
import Bobliew.Hook.DoIo

/-!
# The result of a hooked connect

`connect_with_timeout` as a state machine that runs beside its timer and the kernel's attempt to connect.
When the attempt is still in progress after `connect_f`, the call arms a condition timer, registers an
event and yields, until the socket is writable or the callback of the timer cancels the event. What has
become of the attempt is then asked for with `getsockopt`: the pending error of a socket is 0 both when it
is connected and when it is still connecting.

A call that has waited knows that the attempt is over. A call whose `addEvent` has failed has not waited,
and asks all the same.
-/

namespace Bobliew.Hook

/-- The value of `EBADF`. -/
def ebadf : ℕ := 9

/-- The value of `EINPROGRESS`. -/
def einprogress : ℕ := 115

/-- The kernel's attempt to connect: there is none of this call, or it is in progress, established, or has
failed with an `errno`. -/
inductive Attempt where
  | none
  | inProgress
  | established
  | failed (errno : ℕ)
  deriving DecidableEq

/-- `SO_ERROR` of the socket. -/
def Attempt.soError : Attempt → ℕ
  | .failed errno => errno
  | _ => 0

/-- What can fail in the course of a call. -/
inductive ConnectFailure where
  | badDescriptor
  | connect (errno : ℕ)
  | timeout
  | getsockopt (errno : ℕ)
  | attempt (errno : ℕ)

/-- The `errno` of a failure. -/
def ConnectFailure.errno : ConnectFailure → ℕ
  | .badDescriptor => ebadf
  | .timeout => etimedout
  | .connect errno | .getsockopt errno | .attempt errno => errno

/-- The condition timer: not armed, armed, taken out with its callback in the queue, or gone. -/
inductive ConnectTimer where
  | none
  | armed
  | expired
  | gone
  deriving DecidableEq

/-- Where the call is: at its beginning, about to call `connect_f`, behind the arming of its timer, yielded
with its event registered, triggered and about to cancel its timer, about to look at `cancelled`, about
to cancel its timer without an event, about to call `getsockopt`, or returned. -/
inductive ConnectPhase where
  | starting
  | connecting (hooked : Bool)
  | armed
  | waiting
  | woken
  | checking
  | unregistered
  | asking (waited : Bool)
  | finished (result : IoResult) (attempt : Attempt)
  deriving DecidableEq

/-- The phases between the beginning of the attempt and the return. -/
def ConnectPhase.begun : ConnectPhase → Bool
  | .armed | .waiting | .woken | .checking | .unregistered | .asking _ => true
  | _ => false

/-- The call, with the failures so far; `cancelled` is the field of its `timer_info`. A call that has
returned keeps what the attempt was at that time. -/
structure ConnectCall where
  phase : ConnectPhase
  attempt : Attempt
  timer : ConnectTimer
  cancelled : ℕ
  failures : List ConnectFailure

/-- A step of the call, of its timer, or of the kernel. -/
inductive ConnectStep where
  | enter
  | connectF (result : IoResult)
  | addEvent (errno : Option ℕ)
  | cancelTimer
  | check
  | getsockopt (errno : Option ℕ)
  | expire
  | fire (ctl : Bool)
  | ready
  | settle (errno : Option ℕ)

namespace ConnectCall

/-- A call that has just begun. -/
def start : ConnectCall := ⟨.starting, .none, .none, 0, []⟩

/-- Return. -/
def finish (s : ConnectCall) (result : IoResult) : ConnectCall := { s with phase := .finished result s.attempt }

/-- Return `-1` because of a failure. -/
def fail (s : ConnectCall) (failure : ConnectFailure) : ConnectCall :=
  { s with failures := failure :: s.failures }.finish (.failed failure.errno)

/-- The preamble: the context of the descriptor decides how `connect_f` is called. -/
def enter (hookEnable : Bool) (ctx : Option FdCtx) (s : ConnectCall) : ConnectCall :=
  if !hookEnable then { s with phase := .connecting false } else
  match ctx with
  | none => s.fail .badDescriptor
  | some ctx =>
    if ctx.isClosed then s.fail .badDescriptor
    else if !ctx.isSocket then { s with phase := .connecting false }
    else if ctx.userNonblock then { s with phase := .connecting false }
    else { s with phase := .connecting true }

/-- The result of `connect_f`. An attempt in progress is waited for when the call is hooked. -/
def connectF (timeout : ℕ) (s : ConnectCall) (hooked : Bool) : IoResult → ConnectCall
  | .value n => { s with attempt := .established }.finish (.value n)
  | .failed errno =>
    if errno = einprogress then
      if hooked then
        { s with
          attempt := .inProgress
          timer := if timeout = u64 - 1 then .none else .armed
          phase := .armed }
      else { s with attempt := .inProgress }.fail (.connect errno)
    else s.fail (.connect errno)

/-- `if(timer) timer->cancel()`, and go on: a callback that is already queued stays there. -/
def dropTimer (s : ConnectCall) (phase : ConnectPhase) : ConnectCall :=
  { s with
    timer := if s.timer = .armed then .gone else s.timer
    phase := phase }

/-- The event is triggered and the fiber scheduled. -/
def trigger (s : ConnectCall) : ConnectCall :=
  if s.phase = .waiting then { s with phase := .woken } else s

/-- The queued callback is executed: it finds the `timer_info` alive and not cancelled, marks it and cancels
the event; `ctl` is the success of `epoll_ctl`. -/
def fire (s : ConnectCall) (ctl : Bool) : ConnectCall :=
  match s.phase with
  | .finished _ _ => { s with timer := .gone }
  | _ =>
    if s.cancelled ≠ 0 then { s with timer := .gone } else
    let marked := { s with timer := .gone, cancelled := etimedout, failures := .timeout :: s.failures }
    if ctl then marked.trigger else marked

/-- The steps. A step that does not fit the phase changes nothing. -/
def step (hookEnable : Bool) (ctx : Option FdCtx) (timeout : ℕ) (s : ConnectCall) : ConnectStep → ConnectCall
  | .enter => if s.phase = .starting then s.enter hookEnable ctx else s
  | .connectF result =>
    match s.phase with
    | .connecting hooked => s.connectF timeout hooked result
    | _ => s
  | .addEvent errno =>
    match s.phase, errno with
    | .armed, none => { s with phase := .waiting }
    | .armed, some _ => { s with phase := .unregistered }
    | _, _ => s
  | .cancelTimer =>
    match s.phase with
    | .woken => s.dropTimer .checking
    | .unregistered => s.dropTimer (.asking false)
    | _ => s
  | .check =>
    if s.phase = .checking then
      if s.cancelled ≠ 0 then s.finish (.failed s.cancelled) else { s with phase := .asking true }
    else s
  | .getsockopt errno =>
    match s.phase, errno with
    | .asking _, some errno => s.fail (.getsockopt errno)
    | .asking _, none =>
      if s.attempt.soError = 0 then s.finish (.value 0) else s.finish (.failed s.attempt.soError)
    | _, _ => s
  | .expire => if s.timer = .armed then { s with timer := .expired } else s
  | .fire ctl => if s.timer = .expired then s.fire ctl else s
  | .ready => s.trigger
  | .settle none => if s.attempt = .inProgress then { s with attempt := .established } else s
  | .settle (some errno) =>
    if s.attempt = .inProgress ∨ s.attempt = .established then
      { s with attempt := .failed errno, failures := .attempt errno :: s.failures }
    else s

/-- What the kernel answers: `connect_f` returns 0 or fails, whatever fails has an `errno`, and a socket
that is still connecting is not writable. -/
def Permitted (s : ConnectCall) : ConnectStep → Prop
  | .connectF (.value n) => n = 0
  | .connectF (.failed errno) => errno ≠ 0
  | .getsockopt (some errno) => errno ≠ 0
  | .settle (some errno) => errno ≠ 0
  | .ready => s.attempt ≠ .inProgress
  | _ => True

/-- A call that returns 0 is connected, and any other one has a failure to name. -/
def Truthful (s : ConnectCall) : Prop :=
  ∀ result attempt, s.phase = .finished result attempt →
    match result with
    | .value n => n = 0 ∧ attempt = .established
    | .failed errno => errno ≠ 0 ∧ ∃ failure ∈ s.failures, failure.errno = errno

/-- A call that could not wait does not ask while the attempt is still in progress. -/
def Sound (s : ConnectCall) : ConnectStep → Prop
  | .getsockopt none => s.phase = .asking false → s.attempt ≠ .inProgress
  | _ => True

variable {hookEnable : Bool} {ctx : Option FdCtx} {timeout : ℕ} {s : ConnectCall}

/-- Every failure that shows in the state has been recorded. -/
structure Recorded (s : ConnectCall) : Prop where
  named : ∀ errno, s.attempt = .failed errno → errno ≠ 0 ∧ .attempt errno ∈ s.failures
  marked : s.cancelled ≠ 0 → s.cancelled = etimedout ∧ .timeout ∈ s.failures

/-- The invariant: a call that was woken without a mark has found the attempt over, and so has one that asks
after it has waited. -/
structure Waited (s : ConnectCall) : Prop extends Recorded s where
  begun : s.phase.begun = true → s.attempt ≠ .none
  woken : s.phase = .woken ∨ s.phase = .checking → s.cancelled = 0 → s.attempt ≠ .inProgress
  asking : s.phase = .asking true → s.attempt ≠ .inProgress
  truthful : s.Truthful

/-- A call that has not returned. -/
theorem truthful_of_ne (h : ∀ result attempt, s.phase ≠ .finished result attempt) : s.Truthful :=
  fun result attempt heq => absurd heq (h result attempt)

/-- Nothing has happened yet. -/
theorem Waited.start : start.Waited where
  named _ h := by cases h
  marked h := absurd rfl h
  begun h := by cases h
  woken h := by rcases h with h | h <;> cases h
  asking h := by cases h
  truthful := truthful_of_ne fun _ _ h => by cases h

/-- Returning a value that is right. -/
theorem Recorded.finish (h : s.Recorded) {result : IoResult} (htruthful : (s.finish result).Truthful) :
    (s.finish result).Waited where
  named := h.named
  marked := h.marked
  begun hbegun := by cases hbegun
  woken hphase := by rcases hphase with hphase | hphase <;> cases hphase
  asking hphase := by cases hphase
  truthful := htruthful

/-- Returning because of a failure. -/
theorem Recorded.fail (h : s.Recorded) {failure : ConnectFailure} (hne : failure.errno ≠ 0) :
    (s.fail failure).Waited := by
  have hrecorded : Recorded { s with failures := failure :: s.failures } :=
    { named := fun errno heq => (h.named errno heq).imp_right (List.mem_cons_of_mem _)
      marked := fun hmark => (h.marked hmark).imp_right (List.mem_cons_of_mem _) }
  refine hrecorded.finish fun result attempt heq => ?_
  cases heq
  exact ⟨hne, failure, List.mem_cons_self, rfl⟩

/-- Going on to a phase in which nothing is known of the attempt. -/
theorem Waited.setPhase (h : s.Waited) (phase : ConnectPhase) (hbegun : phase.begun = true → s.phase.begun = true)
    (hopen : phase = .connecting true ∨ phase = .connecting false ∨ phase = .waiting ∨ phase = .unregistered) :
    Waited { s with phase := phase } where
  named := h.named
  marked := h.marked
  begun heq := h.begun (hbegun heq)
  woken hphase := by
    rcases hopen with rfl | rfl | rfl | rfl
    all_goals rcases hphase with hphase | hphase <;> cases hphase
  asking hphase := by
    rcases hopen with rfl | rfl | rfl | rfl
    all_goals cases hphase
  truthful := by
    refine truthful_of_ne fun result attempt heq => ?_
    rcases hopen with rfl | rfl | rfl | rfl
    all_goals cases heq

/-- The preamble. -/
theorem Waited.enter (h : s.Waited) : (s.enter hookEnable ctx).Waited := by
  have hnext : ∀ hooked, Waited { s with phase := .connecting hooked } := by
    intro hooked
    refine h.setPhase _ (fun heq => by cases heq) ?_
    cases hooked
    · exact Or.inr (Or.inl rfl)
    · exact Or.inl rfl
  have hfail : (s.fail .badDescriptor).Waited := h.toRecorded.fail (by decide)
  unfold ConnectCall.enter
  split
  · exact hnext false
  · split
    · exact hfail
    · split
      · exact hfail
      · split
        · exact hnext false
        · split
          · exact hnext false
          · exact hnext true

/-- `connect_f` has returned. -/
theorem Waited.connectF (h : s.Waited) (hooked : Bool) {result : IoResult}
    (hpermitted : s.Permitted (.connectF result)) : (s.connectF timeout hooked result).Waited := by
  have hbegun : Recorded { s with attempt := .inProgress } :=
    { named := fun errno heq => by cases heq
      marked := h.marked }
  unfold ConnectCall.connectF
  split
  · rename_i n
    have hdone : Recorded { s with attempt := .established } :=
      { named := fun errno heq => by cases heq
        marked := h.marked }
    refine hdone.finish fun result attempt heq => ?_
    cases heq
    exact ⟨hpermitted, rfl⟩
  · split
    · split
      · exact
          { named := hbegun.named
            marked := hbegun.marked
            begun := fun _ heq => by cases heq
            woken := fun hphase => by rcases hphase with hphase | hphase <;> cases hphase
            asking := fun hphase => by cases hphase
            truthful := truthful_of_ne fun _ _ heq => by cases heq }
      · exact hbegun.fail hpermitted
    · exact h.toRecorded.fail hpermitted

/-- The event is triggered, when the attempt is over or the call is marked. -/
theorem Waited.trigger (h : s.Waited) (hover : s.cancelled = 0 → s.attempt ≠ .inProgress) : s.trigger.Waited := by
  unfold ConnectCall.trigger
  split
  · rename_i hphase
    exact
      { named := h.named
        marked := h.marked
        begun := fun _ => h.begun (by rw [hphase]; rfl)
        woken := fun _ => hover
        asking := fun heq => by cases heq
        truthful := truthful_of_ne fun _ _ heq => by cases heq }
  · exact h

/-- The callback of the timer is executed. -/
theorem Waited.fire (h : s.Waited) (ctl : Bool) : (s.fire ctl).Waited := by
  have hgone : Waited { s with timer := .gone } := { h with }
  unfold ConnectCall.fire
  split
  · exact hgone
  · rename_i hlive
    split
    · exact hgone
    · have hmarked : Waited
          { s with timer := .gone, cancelled := etimedout, failures := .timeout :: s.failures } :=
        { named := fun errno heq => (h.named errno heq).imp_right (List.mem_cons_of_mem _)
          marked := fun _ => ⟨rfl, List.mem_cons_self⟩
          begun := h.begun
          woken := fun _ hzero => by cases hzero
          asking := h.asking
          truthful := truthful_of_ne hlive }
      dsimp only
      split
      · exact hmarked.trigger fun hzero => by cases hzero
      · exact hmarked

/-- Cancelling the timer of a call that was woken, or that has no event. -/
theorem Waited.cancelTimer (h : s.Waited) : (s.step hookEnable ctx timeout .cancelTimer).Waited := by
  simp only [step]
  split
  · rename_i hphase
    exact
      { named := h.named
        marked := h.marked
        begun := fun _ => h.begun (by rw [hphase]; rfl)
        woken := fun _ => h.woken (Or.inl hphase)
        asking := fun heq => by cases heq
        truthful := truthful_of_ne fun _ _ heq => by cases heq }
  · rename_i hphase
    exact
      { named := h.named
        marked := h.marked
        begun := fun _ => h.begun (by rw [hphase]; rfl)
        woken := fun heq => by rcases heq with heq | heq <;> cases heq
        asking := fun heq => by cases heq
        truthful := truthful_of_ne fun _ _ heq => by cases heq }
  · exact h

/-- The call looks at the mark of its timer. -/
theorem Waited.check (h : s.Waited) : (s.step hookEnable ctx timeout .check).Waited := by
  simp only [step]
  split
  · rename_i hphase
    split
    · rename_i hmark
      obtain ⟨heq, hfailure⟩ := h.marked hmark
      refine h.toRecorded.finish fun result attempt hfinished => ?_
      cases hfinished
      exact ⟨hmark, .timeout, hfailure, heq.symm⟩
    · rename_i hzero
      exact
        { named := h.named
          marked := h.marked
          begun := fun _ => h.begun (by rw [hphase]; rfl)
          woken := fun heq => by rcases heq with heq | heq <;> cases heq
          asking := fun _ => h.woken (Or.inr hphase) (not_not.mp hzero)
          truthful := truthful_of_ne fun _ _ heq => by cases heq }
  · exact h

/-- The kernel's attempt comes to an end. -/
theorem Waited.settle (h : s.Waited) {errno : Option ℕ} (hpermitted : s.Permitted (.settle errno)) :
    (s.step hookEnable ctx timeout (.settle errno)).Waited := by
  cases errno with
  | none =>
    simp only [step]
    split
    · exact
        { named := fun errno heq => by cases heq
          marked := h.marked
          begun := fun _ heq => by cases heq
          woken := fun _ _ heq => by cases heq
          asking := fun _ heq => by cases heq
          truthful := h.truthful }
    · exact h
  | some errno =>
    simp only [step]
    split
    · refine
        { named := fun errno heq => ?_
          marked := fun hmark => (h.marked hmark).imp_right (List.mem_cons_of_mem _)
          begun := fun _ heq => by cases heq
          woken := fun _ _ heq => by cases heq
          asking := fun _ heq => by cases heq
          truthful := fun result attempt heq => ?_ }
      · cases heq
        exact ⟨hpermitted, List.mem_cons_self⟩
      · have htruthful := h.truthful result attempt heq
        cases result with
        | value n => exact htruthful
        | failed errno =>
          obtain ⟨hne, failure, hmem, hfailure⟩ := htruthful
          exact ⟨hne, failure, List.mem_cons_of_mem _ hmem, hfailure⟩
    · exact h

/-- The pending error of an attempt that is over, or of one that has not failed. -/
theorem Waited.soError_cases (h : s.Waited) (hbegun : s.attempt ≠ .none) :
    s.attempt = .inProgress ∧ s.attempt.soError = 0 ∨ s.attempt = .established ∧ s.attempt.soError = 0 ∨
      ∃ errno, s.attempt = .failed errno ∧ s.attempt.soError = errno ∧ errno ≠ 0 := by
  cases hattempt : s.attempt with
  | none => exact absurd hattempt hbegun
  | inProgress => exact Or.inl ⟨rfl, rfl⟩
  | established => exact Or.inr (Or.inl ⟨rfl, rfl⟩)
  | failed errno => exact Or.inr (Or.inr ⟨errno, rfl, rfl, (h.named errno hattempt).1⟩)

/-- What asking makes of an attempt that is over. -/
theorem Waited.getsockopt (h : s.Waited) {errno : Option ℕ} (hpermitted : s.Permitted (.getsockopt errno))
    (hsound : s.Sound (.getsockopt errno)) : (s.step hookEnable ctx timeout (.getsockopt errno)).Waited := by
  simp only [step]
  split
  · exact h.toRecorded.fail hpermitted
  · rename_i waited hphase
    have hover : s.attempt ≠ .inProgress := by
      cases waited with
      | true => exact h.asking hphase
      | false => exact hsound hphase
    rcases h.soError_cases (h.begun (by rw [hphase]; rfl)) with ⟨hattempt, _⟩ | ⟨hattempt, hzero⟩ | hfailed
    · exact absurd hattempt hover
    · rw [if_pos hzero]
      refine h.toRecorded.finish fun result attempt heq => ?_
      cases heq
      exact ⟨rfl, hattempt⟩
    · obtain ⟨errno, hattempt, herror, hne⟩ := hfailed
      rw [herror, if_neg hne]
      refine h.toRecorded.finish fun result attempt heq => ?_
      cases heq
      exact ⟨hne, .attempt errno, (h.named errno hattempt).2, rfl⟩
  · exact h

/-- A call that asks while the attempt is in progress returns 0. -/
theorem not_truthful_asking (hphase : s.phase = .asking false) (hattempt : s.attempt = .inProgress) :
    ¬ (s.step hookEnable ctx timeout (.getsockopt none)).Truthful := by
  intro htruthful
  simp only [step, hphase, hattempt, Attempt.soError, if_true] at htruthful
  have hvalue := (htruthful (.value 0) .inProgress (by rw [finish, hattempt])).2
  cases hvalue

/-- Every step that is sound keeps the invariant. -/
theorem Waited.step (h : s.Waited) {i : ConnectStep} (hpermitted : s.Permitted i) (hsound : s.Sound i) :
    (s.step hookEnable ctx timeout i).Waited := by
  cases i with
  | enter =>
    simp only [ConnectCall.step]
    split
    · exact h.enter
    · exact h
  | connectF result =>
    simp only [ConnectCall.step]
    split
    · rename_i hooked hphase
      exact h.connectF hooked hpermitted
    · exact h
  | addEvent errno =>
    simp only [ConnectCall.step]
    split
    · rename_i hphase
      exact h.setPhase _ (fun _ => by rw [hphase]; rfl) (Or.inr (Or.inr (Or.inl rfl)))
    · rename_i hphase
      exact h.setPhase _ (fun _ => by rw [hphase]; rfl) (Or.inr (Or.inr (Or.inr rfl)))
    · exact h
  | cancelTimer => exact h.cancelTimer
  | check => exact h.check
  | getsockopt errno => exact h.getsockopt hpermitted hsound
  | expire =>
    simp only [ConnectCall.step]
    split
    · exact { h with }
    · exact h
  | fire ctl =>
    simp only [ConnectCall.step]
    split
    · exact h.fire ctl
    · exact h
  | ready => exact h.trigger fun _ => hpermitted
  | settle errno => exact h.settle hpermitted

/-- In every run in which no call asks for the result of an attempt that it could not wait for and that is
still in progress, a call that returns 0 is connected and any other one names what has failed. Any other step
makes the call return 0 while it is connecting. -/
theorem truthful_iff_sound (hookEnable : Bool) (ctx : Option FdCtx) (timeout : ℕ)
    (h : Runs.Reaches (Runs.faultless (step hookEnable ctx timeout)) (fun s i => s.Permitted i ∧ s.Sound i)
      start s) :
    s.Truthful ∧ ∀ i, s.Permitted i → ((s.step hookEnable ctx timeout i).Truthful ↔ s.Sound i) := by
  have hwaited : s.Waited := by
    refine h.invariant Waited Waited.start fun s i s' hs hi hok => ?_
    cases hok
    exact hs.step hi.1 hi.2
  refine ⟨hwaited.truthful, fun i hpermitted => ⟨fun htruthful => ?_, fun hsound => ?_⟩⟩
  · cases i with
    | getsockopt errno =>
      cases errno with
      | none => exact fun hphase hattempt => not_truthful_asking hphase hattempt htruthful
      | some errno => exact trivial
    | _ => exact trivial
  · exact (hwaited.step hpermitted hsound).truthful

/-- A call that waits until its socket is writable. -/
theorem truthful_iff_sound_writable :
    ∃ s, Runs.Reaches (Runs.faultless (step true (some .initial) 1000)) (fun s i => s.Permitted i ∧ s.Sound i)
      start s ∧ s.phase = .finished (.value 0) .established ∧ s.Truthful := by
  have hentered : Runs.Reaches (Runs.faultless (step true (some .initial) 1000))
      (fun s i => s.Permitted i ∧ s.Sound i) start _ := .next .start .enter ⟨trivial, trivial⟩ rfl
  have harmed := hentered.next (.connectF (.failed einprogress))
    ⟨(by decide : einprogress ≠ 0), trivial⟩ rfl
  have hwaiting := harmed.next (.addEvent none) ⟨trivial, trivial⟩ rfl
  have hsettled := hwaiting.next (.settle none) ⟨trivial, trivial⟩ rfl
  have hwoken := hsettled.next .ready ⟨(fun hattempt => by cases hattempt), trivial⟩ rfl
  have hchecking := hwoken.next .cancelTimer ⟨trivial, trivial⟩ rfl
  have hasking := hchecking.next .check ⟨trivial, trivial⟩ rfl
  have hdone := hasking.next (.getsockopt none) ⟨trivial, fun hphase => by cases hphase⟩ rfl
  exact ⟨_, hdone, rfl, (truthful_iff_sound true (some .initial) 1000 hdone).1⟩

/-- `addEvent` fails, and the call returns 0 while it is connecting. -/
theorem not_truthful_unregistered :
    ∃ s, Runs.Reaches (Runs.faultless (step true (some .initial) 1000)) Permitted start s ∧
      s.phase = .finished (.value 0) .inProgress ∧ ¬ s.Truthful := by
  have hentered : Runs.Reaches (Runs.faultless (step true (some .initial) 1000)) Permitted start _ :=
    .next .start .enter trivial rfl
  have harmed := hentered.next (.connectF (.failed einprogress)) (by decide : einprogress ≠ 0) rfl
  have hunregistered := harmed.next (.addEvent (some 28)) trivial rfl
  have hasking := hunregistered.next .cancelTimer trivial rfl
  have hdone := hasking.next (.getsockopt none) trivial rfl
  refine ⟨_, hdone, rfl, fun htruthful => ?_⟩
  have hvalue := (htruthful (.value 0) .inProgress rfl).2
  cases hvalue

end ConnectCall

end Bobliew.Hook
