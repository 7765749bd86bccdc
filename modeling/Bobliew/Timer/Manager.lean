import Bobliew.Lib.OrderedList

/-!
# Timers and the timer manager

A computable model of `Timer` and `TimerManager`. Timer objects live in a heap indexed by
their address, because the manager's set orders shared pointers: its comparator reads the
deadline stored in the object and breaks ties by address. The set is its iteration order.

Every operation is atomic under the manager's mutex and takes the clock reading it makes as
an argument. Deadlines are 64-bit: sums and differences wrap. Erasing the end iterator is
undefined behaviour in the source and a fault here.
-/

namespace Bobliew

/-- The range of `uint64_t`. -/
abbrev u64 : ℕ := 2 ^ 64

/-- Addition of `uint64_t` values. -/
def addU64 (a b : ℕ) : ℕ := (a + b) % u64

/-- Subtraction of `uint64_t` values. -/
def subU64 (a b : ℕ) : ℕ := (a + (u64 - b % u64)) % u64

/-- A `std::function` a timer can hold: the caller's own, or `OnTimer` bound to a weak pointer. -/
inductive TimerCallback (W C : Type*) where
  | plain (cb : C)
  | onTimer (weakCond : W) (cb : C)

/-- A `Timer` object; `cb` is `none` when `m_cb` is null. -/
structure Timer (W C : Type*) where
  recurring : Bool
  ms : ℕ
  next : ℕ
  cb : Option (TimerCallback W C)

/-- `Timer::Comparator` on deadline and address. -/
def timerComparator (lhs rhs : ℕ × ℕ) : Bool :=
  if lhs.1 = 0 ∧ rhs.1 = 0 then false
  else if lhs.1 = 0 then true
  else if rhs.1 = 0 then false
  else if lhs.1 < rhs.1 then true
  else if rhs.1 < lhs.1 then false
  else decide (lhs.2 < rhs.2)

/-- The comparator orders by deadline and then, for equal deadlines other than zero, by address. -/
theorem timerComparator_iff (a b : ℕ × ℕ) :
    timerComparator a b = true ↔ a.1 < b.1 ∨ a.1 = b.1 ∧ a.1 ≠ 0 ∧ a.2 < b.2 := by
  unfold timerComparator
  split_ifs <;> simp <;> omega

/-- Two keys that compare equal have equal deadlines. -/
theorem timerComparator_equiv {a b : ℕ × ℕ} (hab : timerComparator a b = false)
    (hba : timerComparator b a = false) : a.1 = b.1 := by
  have h₁ := (timerComparator_iff a b).not.mp (by simp [hab])
  have h₂ := (timerComparator_iff b a).not.mp (by simp [hba])
  omega

/-- The state of a `TimerManager`, with the heap of timer objects created for it. -/
structure TimerManager (W C : Type*) where
  heap : ℕ → Option (Timer W C)
  timers : List ℕ
  tickled : Bool
  previousTime : ℕ

namespace TimerManager

variable {W C : Type*}

/-- A new manager: no timers, not tickled. -/
def empty : TimerManager W C := ⟨fun _ => none, [], false, 0⟩

/-- The deadline stored at an address. -/
def nextOf (m : TimerManager W C) (p : ℕ) : ℕ :=
  match m.heap p with
  | some t => t.next
  | none => 0

/-- What the comparator reads through a pointer. -/
def key (m : TimerManager W C) (p : ℕ) : ℕ × ℕ := (m.nextOf p, p)

/-- The order of `m_timers` in the present heap. -/
def less (m : TimerManager W C) (p q : ℕ) : Bool := timerComparator (m.key p) (m.key q)

/-- Overwrite the object at an address. -/
def store (m : TimerManager W C) (p : ℕ) (t : Timer W C) : TimerManager W C :=
  { m with heap := Function.update m.heap p (some t) }

/-- `m_timers.insert` of a pointer. -/
def insertTimer (m : TimerManager W C) (p : ℕ) : TimerManager W C :=
  { m with timers := OrderedList.insert m.less p m.timers }

/-- `m_timers.find` of a pointer. -/
def findTimer (m : TimerManager W C) (p : ℕ) : Option ℕ := OrderedList.find m.less p m.timers

/-- `m_timers.erase` of the iterator to a member. -/
def eraseTimer (m : TimerManager W C) (p : ℕ) : TimerManager W C :=
  { m with timers := m.timers.erase p }

/-- The protected `addTimer`: insert, and report whether `onTimerInsertedAtFront` must follow. -/
def addTimerLocked (m : TimerManager W C) (val : ℕ) : TimerManager W C × Bool :=
  let atFront := OrderedList.landsFirst m.less val m.timers && !m.tickled
  ({ m.insertTimer val with tickled := m.tickled || atFront }, atFront)

/-- `addTimer`, for a timer object allocated at `p` and a clock reading `now`. -/
def addTimer (m : TimerManager W C) (p now ms : ℕ) (cb : TimerCallback W C) (recurring : Bool) :
    TimerManager W C × Bool :=
  (m.store p ⟨recurring, ms, addU64 now ms, some cb⟩).addTimerLocked p

/-- `addConditionTimer`: the callback is `OnTimer` bound to the weak pointer. -/
def addConditionTimer (m : TimerManager W C) (p now ms : ℕ) (cb : C) (weakCond : W)
    (recurring : Bool) : TimerManager W C × Bool :=
  m.addTimer p now ms (.onTimer weakCond cb) recurring

/-- `getNextTimer`: clear `m_tickled` and return the wait until the first deadline. -/
def getNextTimer (m : TimerManager W C) (now : ℕ) : TimerManager W C × ℕ :=
  ({ m with tickled := false },
    match m.timers with
    | [] => u64 - 1
    | front :: _ => if m.nextOf front ≤ now then 0 else subU64 (m.nextOf front) now)

/-- `detectClockRollover`: the clock went back by more than an hour since the last check. -/
def detectClockRollover (m : TimerManager W C) (now : ℕ) : TimerManager W C × Bool :=
  ({ m with previousTime := now },
    decide (now < m.previousTime) && decide (now < subU64 m.previousTime (60 * 60 * 1000)))

/-- The range `[it, end)` that stays in `m_timers`; `nowPtr` is the address of `now_timer`. -/
def unexpired (m : TimerManager W C) (now nowPtr : ℕ) (rollover : Bool) : List ℕ :=
  if rollover then []
  else (m.timers.dropWhile fun p => timerComparator (m.key p) (now, nowPtr)).dropWhile
    fun p => decide (m.nextOf p = now)

/-- The range `[begin, it)` copied into `expired`. -/
def expired (m : TimerManager W C) (now nowPtr : ℕ) (rollover : Bool) : List ℕ :=
  m.timers.take (m.timers.length - (m.unexpired now nowPtr rollover).length)

/-- One turn of the loop over `expired`: collect the callback, then re-arm or clear the timer. -/
def fire (now : ℕ) (acc : TimerManager W C × List (Option (TimerCallback W C))) (p : ℕ) :
    TimerManager W C × List (Option (TimerCallback W C)) :=
  match acc.1.heap p with
  | none => acc
  | some t =>
    (if t.recurring then (acc.1.store p { t with next := addU64 now t.ms }).insertTimer p
      else acc.1.store p { t with cb := none }, acc.2 ++ [t.cb])

/-- `listExpireCb`: remove the expired timers, collect their callbacks, re-arm recurring ones. -/
def listExpireCb (m : TimerManager W C) (now nowPtr : ℕ) :
    TimerManager W C × List (Option (TimerCallback W C)) :=
  match m.timers with
  | [] => (m, [])
  | front :: _ =>
    let (m', rollover) := m.detectClockRollover now
    if !rollover && decide (now < m'.nextOf front) then (m', [])
    else
      (m'.expired now nowPtr rollover).foldl (fire now)
        ({ m' with timers := m'.unexpired now nowPtr rollover }, [])

/-- Why a run of timer operations can end. -/
inductive Fault where
  | eraseEnd
  deriving DecidableEq

/-- `Timer::cancel`. -/
def cancel (m : TimerManager W C) (p : ℕ) : Except Fault (TimerManager W C × Bool) :=
  match m.heap p with
  | none => .ok (m, false)
  | some t =>
    if t.cb.isSome then
      let m' := m.store p { t with cb := none }
      match m'.findTimer p with
      | none => .error .eraseEnd
      | some it => .ok (m'.eraseTimer it, true)
    else .ok (m, false)

/-- `Timer::reset`: its result, then whether `onTimerInsertedAtFront` must follow. -/
def reset (m : TimerManager W C) (p now ms : ℕ) (fromNow : Bool) : TimerManager W C × Bool × Bool :=
  match m.heap p with
  | none => (m, false, false)
  | some t =>
    if ms = t.ms ∧ fromNow = false then (m, true, false)
    else if t.cb.isSome then
      match m.findTimer p with
      | none => (m, false, false)
      | some it =>
        let start := if fromNow then now else subU64 t.next t.ms
        let r := ((m.eraseTimer it).store p { t with ms := ms, next := addU64 start ms }).addTimerLocked p
        (r.1, true, r.2)
    else (m, false, false)

/-- `Timer::refresh`. -/
def refresh (m : TimerManager W C) (p now : ℕ) : TimerManager W C × Bool :=
  match m.heap p with
  | none => (m, false)
  | some t =>
    if t.cb.isSome then
      match m.findTimer p with
      | none => (m, false)
      | some it =>
        (((m.eraseTimer it).store p { t with next := addU64 now t.ms }).insertTimer p, true)
    else (m, false)

/-- One atomic operation with the clock reading and the address it uses. -/
inductive Op (W C : Type*) where
  | addTimer (p now ms : ℕ) (cb : C) (recurring : Bool)
  | addConditionTimer (p now ms : ℕ) (cb : C) (weakCond : W) (recurring : Bool)
  | cancel (p : ℕ)
  | refresh (p now : ℕ)
  | reset (p now ms : ℕ) (fromNow : Bool)
  | listExpireCb (now nowPtr : ℕ)
  | getNextTimer (now : ℕ)

/-- Perform an operation; the Boolean is a pending `onTimerInsertedAtFront`. -/
def apply (m : TimerManager W C) : Op W C → Except Fault (TimerManager W C × Bool)
  | .addTimer p now ms cb recurring => .ok (m.addTimer p now ms (.plain cb) recurring)
  | .addConditionTimer p now ms cb weakCond recurring =>
    .ok (m.addConditionTimer p now ms cb weakCond recurring)
  | .cancel p => (m.cancel p).map fun r => (r.1, false)
  | .refresh p now => .ok ((m.refresh p now).1, false)
  | .reset p now ms fromNow =>
    .ok ((m.reset p now ms fromNow).1, (m.reset p now ms fromNow).2.2)
  | .listExpireCb now nowPtr => .ok ((m.listExpireCb now nowPtr).1, false)
  | .getNextTimer now => .ok ((m.getNextTimer now).1, false)

end TimerManager

end Bobliew
