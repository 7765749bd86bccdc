import Bobliew.Timer.Pending

/-!
# Sleeping on a timer

The hooked `sleep`, `usleep` and `nanosleep` arm a timer that schedules the running fiber again, drop the
pointer to it, and yield. The interval is computed in 32 bits by `sleep`, which wraps around, and converted to
an `int` by `nanosleep`. The division of the nanoseconds rounds towards zero. Where the conversion is exact
and the deadline fits 64 bits, the callback of the timer is not handed out before the requested time has
passed.
-/

namespace Bobliew.Hook

/-- `timespec`. -/
structure Timespec where
  tvSec : Int64
  tvNsec : Int64

/-- A bound call `schedule(fiber, thread)`. -/
structure Resumption (F : Type*) where
  fiber : F
  thread : ℤ

/-- What a sleep function has done when it yields: nothing but call the original function, or armed a timer;
`atFront` says that `onTimerInsertedAtFront` has been called. Or else its arithmetic has overflowed. -/
inductive Sleep (W F : Type*) where
  | original
  | overflow
  | armed (manager : TimerManager W (Resumption F)) (atFront : Bool)

section Functions

variable {W F : Type*} (hookEnable : Bool) (manager : TimerManager W (Resumption F)) (p now : ℕ) (fiber : F)

/-- Arm the timer that schedules the fiber on any thread. -/
def addSleepTimer (ms : UInt64) : Sleep W F :=
  let r := manager.addTimer p now ms.toNat (.plain ⟨fiber, -1⟩) false
  .armed r.1 r.2

/-- `sleep`, where the timer object is allocated at `p` and `now` is the clock reading of its constructor. -/
def sleep (seconds : UInt32) : Sleep W F :=
  if ¬ hookEnable then .original else addSleepTimer manager p now fiber (seconds * 1000).toUInt64

/-- `usleep`. -/
def usleep (usec : UInt32) : Sleep W F :=
  if ¬ hookEnable then .original else addSleepTimer manager p now fiber (usec / 1000).toUInt64

/-- The value of `long` or of `time_t`. -/
abbrev FitsLong (n : ℤ) : Prop := -2 ^ 63 ≤ n ∧ n < 2 ^ 63

/-- `timeout_ms` of `nanosleep`, unless the sum or the product overflows. -/
def timeoutMs (req : Timespec) : Option Int32 :=
  let seconds := req.tvSec.toInt * 1000
  let total := seconds + (req.tvNsec.toInt.tdiv 1000).tdiv 1000
  if FitsLong seconds ∧ FitsLong total then some (Int32.ofInt total) else none

/-- `nanosleep`. -/
def nanosleep (req : Timespec) : Sleep W F :=
  if ¬ hookEnable then .original else
  match timeoutMs req with
  | none => .overflow
  | some timeout => addSleepTimer manager p now fiber timeout.toInt64.toUInt64

end Functions

/-- A call of a sleep function. -/
inductive SleepCall where
  | sleep (seconds : UInt32)
  | usleep (usec : UInt32)
  | nanosleep (req : Timespec)

namespace SleepCall

variable {W F : Type*} {m m' : TimerManager W (Resumption F)} {p now : ℕ}

/-- Perform a call. -/
def perform (hookEnable : Bool) (manager : TimerManager W (Resumption F)) (p now : ℕ) (fiber : F) :
    SleepCall → Sleep W F
  | .sleep seconds => Hook.sleep hookEnable manager p now fiber seconds
  | .usleep usec => Hook.usleep hookEnable manager p now fiber usec
  | .nanosleep req => Hook.nanosleep hookEnable manager p now fiber req

/-- The requested duration in whole milliseconds. -/
def requested : SleepCall → ℤ
  | .sleep seconds => 1000 * seconds.toNat
  | .usleep usec => usec.toNat / 1000
  | .nanosleep req => 1000 * req.tvSec.toInt + req.tvNsec.toInt / 1000000

/-- The conversion of the duration is exact. -/
def Fits : SleepCall → Prop
  | .sleep seconds => 1000 * seconds.toNat < 2 ^ 32
  | .usleep _ => True
  | .nanosleep req => 0 ≤ (nanosleep req).requested ∧ (nanosleep req).requested < 2 ^ 31 ∧
    (0 ≤ req.tvNsec.toInt ∨ 1000000 ∣ req.tvNsec.toInt)

instance (call : SleepCall) : Decidable call.Fits :=
  match call with
  | .sleep seconds => inferInstanceAs (Decidable (1000 * seconds.toNat < 2 ^ 32))
  | .usleep _ => inferInstanceAs (Decidable True)
  | .nanosleep req => inferInstanceAs (Decidable (0 ≤ (nanosleep req).requested ∧
      (nanosleep req).requested < 2 ^ 31 ∧ (0 ≤ req.tvNsec.toInt ∨ 1000000 ∣ req.tvNsec.toInt)))

/-- The interval of the timer a call arms. -/
def interval : SleepCall → Option UInt64
  | .sleep seconds => some (seconds * 1000).toUInt64
  | .usleep usec => some (usec / 1000).toUInt64
  | .nanosleep req => (timeoutMs req).map fun timeout => timeout.toInt64.toUInt64

/-- What a call does when the hooks are on. -/
theorem perform_eq (call : SleepCall) (fiber : F) :
    call.perform true m p now fiber =
      match call.interval with
      | none => .overflow
      | some ms => addSleepTimer m p now fiber ms := by
  cases call with
  | sleep seconds => rfl
  | usleep usec => rfl
  | nanosleep req =>
    simp only [perform, Hook.nanosleep, interval]
    cases timeoutMs req <;> rfl

/-- An `int` converted to `uint64_t`. -/
theorem toNat_widened (timeout : Int32) : (timeout.toInt64.toUInt64.toNat : ℤ) = timeout.toInt % 2 ^ 64 := by
  have hwide : timeout.toInt64.toInt = timeout.toInt := Int32.toInt_toInt64 timeout
  have hcond := BitVec.toInt_eq_toNat_cond timeout.toInt64.toBitVec
  have hlt := timeout.toInt64.toUInt64.toNat_lt
  change timeout.toInt64.toInt = _ at hcond
  rw [Int64.toNat_toBitVec, hwide] at hcond
  split at hcond <;> omega

/-- A `long` converted to `int`. -/
theorem toInt_ofInt_eq (n : ℤ) :
    (Int32.ofInt n).toInt = if n % 2 ^ 32 < 2 ^ 31 then n % 2 ^ 32 else n % 2 ^ 32 - 2 ^ 32 := by
  rw [Int32.toInt_ofInt, Int.bmod_def]
  rfl

/-- Dividing by a thousand twice, and the rounding towards zero. -/
theorem tdiv_thousand_twice (n : ℤ) :
    (n.tdiv 1000).tdiv 1000 = if 0 ≤ n ∨ 1000000 ∣ n then n / 1000000 else n / 1000000 + 1 := by
  have hsign : (1000 : ℤ).sign = 1 := rfl
  simp only [Int.tdiv_eq_ediv, hsign, Int.dvd_iff_emod_eq_zero]
  split_ifs <;> omega

/-- The interval is the requested duration exactly if the conversion is exact. -/
theorem interval_eq_iff (call : SleepCall) :
    (∃ ms, call.interval = some ms ∧ (ms.toNat : ℤ) = call.requested) ↔ call.Fits := by
  cases call with
  | sleep seconds =>
    have hwrap : ((seconds * 1000).toUInt64.toNat : ℤ) = (seconds.toNat * 1000 % 2 ^ 32 : ℕ) := by
      rw [UInt32.toNat_toUInt64, UInt32.toNat_mul]
      rfl
    simp only [interval, Option.some.injEq, exists_eq_left', hwrap, requested, Fits]
    omega
  | usleep usec =>
    have hdiv : ((usec / 1000).toUInt64.toNat : ℤ) = (usec.toNat / 1000 : ℕ) := by
      rw [UInt32.toNat_toUInt64, UInt32.toNat_div]
      rfl
    simp only [interval, Option.some.injEq, exists_eq_left', hdiv, requested, Fits]
    exact iff_true_intro rfl
  | nanosleep req =>
    have hsec := req.tvSec.toInt_lt
    have hnsec := req.tvNsec.toInt_lt
    have hnsec' := req.tvNsec.le_toInt
    simp only [interval, Option.map_eq_some_iff, Fits]
    unfold timeoutMs
    dsimp only
    rw [tdiv_thousand_twice]
    constructor
    · rintro ⟨ms, ⟨timeout, hsome, rfl⟩, heq⟩
      obtain ⟨hfits, hvalue⟩ := Option.ite_none_right_eq_some.mp hsome
      obtain rfl := Option.some.inj hvalue
      rw [toNat_widened, toInt_ofInt_eq] at heq
      simp only [FitsLong, requested] at hfits heq ⊢
      split_ifs at hfits heq <;> omega
    · rintro ⟨hpositive, hsmall, hround⟩
      rw [if_pos hround]
      simp only [requested] at hpositive hsmall ⊢
      rw [if_pos (by omega)]
      refine ⟨_, ⟨_, rfl, rfl⟩, ?_⟩
      rw [toNat_widened, toInt_ofInt_eq, if_pos (by omega)]
      omega

open TimerManager

/-- The timer a call of the manager acts on. -/
def timerOf : TimerCall W (Resumption F) → Option ℕ
  | .op op => op.timer
  | .addEmpty p _ _ _ => some p

/-- What others do while the fiber sleeps: they do not have the pointer to its timer, and the clock is not
found to have been set back. -/
def Undisturbed (p : ℕ) (m : TimerManager W (Resumption F)) (c : TimerCall W (Resumption F)) : Prop :=
  CallAddressed m c ∧ timerOf c ≠ some p ∧
    ∀ now nowPtr, c = .op (.listExpireCb now nowPtr) → (m.detectClockRollover now).2 = false

/-- The timer of a sleeping fiber, until its callback has been handed out. -/
structure Asleep (p deadline : ℕ) (m : TimerManager W (Resumption F)) : Prop where
  shape : Shape m []
  timer : ∃ t, m.heap p = some t ∧ t.recurring = false ∧ (t.cb.isSome = true → t.next = deadline)

/-- A call that acts on another timer leaves this one alone. -/
theorem heap_call_ne {c : TimerCall W (Resumption F)} {r : TimerManager W (Resumption F) × Bool}
    (hr : m.call c = .ok r) (hc : timerOf c ≠ some p)
    (hexpire : ∀ now nowPtr, c ≠ .op (.listExpireCb now nowPtr)) :
    r.1.heap p = m.heap p := by
  have hother : ∀ {q : ℕ} {t : Timer W (Resumption F)}, timerOf c = some q → (m.store q t).heap p = m.heap p := by
    intro q t hq
    refine heap_store_ne ?_
    rintro rfl
    exact hc hq
  cases c with
  | addEmpty q now ms recurring =>
    cases hr
    exact hother rfl
  | op op =>
    cases op with
    | addTimer q now ms cb recurring =>
      cases hr
      exact hother rfl
    | addConditionTimer q now ms cb weakCond recurring =>
      cases hr
      exact hother rfl
    | cancel q =>
      obtain ⟨canceled, hcancel, rfl⟩ := Except.exists_of_map_eq_ok hr
      rcases cancel_cases hcancel with ⟨rfl, _⟩ | ⟨t, it, _, _, _, rfl⟩
      · rfl
      · exact hother rfl
    | refresh q now =>
      cases hr
      rcases m.refresh_cases q now with hsame | ⟨t, it, _, _, _, hmoved⟩
      · rw [hsame]
      · rw [hmoved]
        exact hother rfl
    | reset q now ms fromNow =>
      cases hr
      rcases m.reset_cases q now ms fromNow with ⟨result, hsame⟩ | ⟨t, it, _, _, _, hmoved⟩
      · rw [hsame]
      · rw [hmoved]
        exact hother rfl
    | listExpireCb now nowPtr => exact absurd rfl (hexpire now nowPtr)
    | getNextTimer now =>
      cases hr
      rfl

/-- The timer of a sleeping fiber is kept by what others do. -/
theorem Asleep.step {deadline : ℕ} (h : Asleep p deadline m) {c : TimerCall W (Resumption F)}
    (hc : Undisturbed p m c) (hok : callStep m c = .ok m') : Asleep p deadline m' := by
  obtain ⟨haddr, hother, _⟩ := hc
  obtain ⟨r, hr, rfl⟩ := Except.exists_of_map_eq_ok hok
  obtain ⟨t, ht, hrecurring, hnext⟩ := h.timer
  refine ⟨(h.shape.call haddr hr).1, ?_⟩
  by_cases hexpire : ∃ now nowPtr, c = .op (.listExpireCb now nowPtr)
  · obtain ⟨now, nowPtr, rfl⟩ := hexpire
    cases hr
    obtain ⟨_, hin, hframe⟩ := h.shape.listExpireCb_heap now nowPtr
    by_cases hlate : p ∈ m.late now
    · refine ⟨fired now t, by rw [hin p hlate, ht]; rfl, ?_, ?_⟩
      · rw [(fired_weakens now t).1]
        exact hrecurring
      · intro hcb
        rw [fired, hrecurring] at hcb
        cases hcb
    · exact ⟨t, by rw [hframe p hlate, ht], hrecurring, hnext⟩
  · push Not at hexpire
    exact ⟨t, (heap_call_ne hr hother hexpire).trans ht, hrecurring, hnext⟩

/-- The callback of a sleeping fiber is not handed out before its deadline. -/
theorem Asleep.le_of_delivers {deadline : ℕ} (h : Asleep p deadline m) {now : ℕ}
    (hclock : (m.detectClockRollover now).2 = false) (hp : p ∈ m.delivers now) : deadline ≤ now := by
  obtain ⟨t, ht, _, hnext⟩ := h.timer
  obtain ⟨hlate, hcb⟩ := List.mem_filter.mp hp
  rw [callbackOf, ht] at hcb
  unfold late at hlate
  rw [hclock, if_neg Bool.false_ne_true] at hlate
  have hle := of_decide_eq_true (List.mem_filter.mp hlate).2
  rw [nextOf, ht] at hle
  rw [← hnext hcb]
  exact hle

/-- A call in a reached manager arms a timer that is not recurring for the requested duration, and from then
on the callback of this timer, which schedules the fiber, is not handed out before the requested time has
passed. -/
def Honored (W : Type*) (call : SleepCall) (now : ℕ) (fiber : F) : Prop :=
  ∀ (m : TimerManager W (Resumption F)) (p : ℕ),
    Runs.Reaches callStep CallAddressed TimerManager.empty m → m.heap p = none →
    ∃ armed atFront, call.perform true m p now fiber = .armed armed atFront ∧
      (∃ t, armed.heap p = some t ∧ t.recurring = false ∧ t.cb = some (.plain ⟨fiber, -1⟩) ∧
        (t.ms : ℤ) = call.requested) ∧
      ∀ m', Runs.Reaches callStep (Undisturbed p) armed m' → ∀ now',
        (m'.detectClockRollover now').2 = false → p ∈ m'.delivers now' → now + call.requested ≤ now'

/-- The set of a reached manager is in order. -/
theorem shape_of_reaches (h : Runs.Reaches callStep CallAddressed TimerManager.empty m) : Shape m [] := by
  refine h.invariant (fun m => Shape m []) Shape.empty fun m c m' hm hc hok => ?_
  obtain ⟨r, hr, rfl⟩ := Except.exists_of_map_eq_ok hok
  exact (hm.call hc hr).1

/-- What a call arms in an empty manager. -/
theorem Honored.exists_interval {call : SleepCall} {fiber : F} (h : Honored W call now fiber) :
    ∃ ms, call.interval = some ms ∧ (ms.toNat : ℤ) = call.requested ∧
      (0 ∈ (TimerManager.empty.addTimer 0 now ms.toNat
          (.plain ⟨fiber, -1⟩ : TimerCallback W (Resumption F)) false).1.delivers now →
        now + call.requested ≤ now) := by
  obtain ⟨armed, atFront, heq, ⟨t, ht, _, _, hms⟩, hwait⟩ := h TimerManager.empty 0 Runs.Reaches.start rfl
  rw [perform_eq] at heq
  cases hinterval : call.interval with
  | none =>
    rw [hinterval] at heq
    cases heq
  | some ms =>
    rw [hinterval] at heq
    cases heq
    cases ht
    exact ⟨ms, rfl, hms, fun hdelivers => hwait _ Runs.Reaches.start now rfl hdelivers⟩

/-- A duration that is honored has been converted exactly. -/
theorem Honored.fits {call : SleepCall} {fiber : F} (h : Honored W call now fiber) : call.Fits := by
  obtain ⟨ms, hinterval, hms, _⟩ := h.exists_interval
  exact (interval_eq_iff call).mp ⟨ms, hinterval, hms⟩

/-- The sleep functions honor the requested duration exactly if its conversion is exact and the deadline fits
64 bits. -/
theorem honored_iff (W : Type*) (call : SleepCall) (now : UInt64) (fiber : F) :
    Honored W call now.toNat fiber ↔ call.Fits ∧ now.toNat + call.requested < 2 ^ 64 := by
  have hnow := now.toNat_lt
  constructor
  · intro h
    refine ⟨h.fits, ?_⟩
    obtain ⟨ms, _, hms, hwait⟩ := h.exists_interval
    by_contra hwraps
    have hdeadline : addU64 now.toNat ms.toNat ≤ now.toNat := by
      have hlt := ms.toNat_lt
      change (now.toNat + ms.toNat) % 2 ^ 64 ≤ now.toNat
      omega
    have hearly := hwait
      (List.mem_filter.mpr ⟨List.mem_filter.mpr ⟨List.mem_singleton_self 0, decide_eq_true hdeadline⟩, rfl⟩)
    omega
  · rintro ⟨hfits, hdeadline⟩ m p hreach hp
    obtain ⟨ms, hinterval, hms⟩ := (interval_eq_iff call).mpr hfits
    have hdeadline : addU64 now.toNat ms.toNat = now.toNat + ms.toNat := by
      refine addU64_of_lt ?_
      change now.toNat + ms.toNat < 2 ^ 64
      omega
    have hperform : call.perform true m p now.toNat fiber = addSleepTimer m p now.toNat fiber ms := by
      rw [perform_eq, hinterval]
    have hasleep : Asleep p (now.toNat + ms.toNat)
        (m.addTimer p now.toNat ms.toNat (.plain ⟨fiber, -1⟩) false).1 :=
      ⟨(shape_of_reaches hreach).add hp, _, heap_store_self, rfl, fun _ => hdeadline⟩
    refine ⟨_, _, hperform, ⟨_, heap_store_self, rfl, rfl, hms⟩, ?_⟩
    intro m' hrun now' hclock hdelivers
    have hstill := hrun.invariant (Asleep p (now.toNat + ms.toNat)) hasleep
      fun _ _ _ hs hc hok => hs.step hc hok
    have hle := hstill.le_of_delivers hclock hdelivers
    omega

/-- Sleeping for 4294967 seconds, the longest time in seconds that is converted exactly. -/
theorem honored_longest : Honored Unit (.sleep 4294967) (1700000000000 : UInt64).toNat () :=
  (honored_iff Unit _ _ ()).mpr ⟨by decide, by decide⟩

/-- Sleeping for one second more, and for 2147484 seconds in nanoseconds. -/
theorem not_honored_wrapped : ¬ Honored Unit (.sleep 4294968) (1700000000000 : UInt64).toNat () ∧
    ¬ Honored Unit (.nanosleep ⟨2147484, 0⟩) (1700000000000 : UInt64).toNat () :=
  ⟨fun h => absurd h.fits (by decide), fun h => absurd h.fits (by decide)⟩

end SleepCall

end Bobliew.Hook
