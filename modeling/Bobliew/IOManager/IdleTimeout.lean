import Bobliew.Lib.Narrowing
import Bobliew.Timer.Manager

/-!
# How long an idle worker waits

The beginning of a round of `IOManager::idle`: the time until the next timer is limited and passed to
`epoll_wait`, again and again while that is interrupted.

The time is a `uint64_t`. It is compared with the limit as an `int`, kept when it is not larger, and
converted to an `int` once more for the call. An `int` below zero is never larger than the limit, and
`epoll_wait` takes it for no timeout at all.
-/

namespace Bobliew

open Narrowing

namespace IdleWait

/-- `MAX_TIMEOUT`, in milliseconds. -/
def maxTimeout : ℕ := 3000

/-- The value of `EINTR`. -/
def eintr : ℕ := 4

/-- What a call of `epoll_wait` returns, and `errno` after it. -/
structure EpollReturn where
  rt : ℤ
  errno : ℕ

/-- `rt < 0 && errno == EINTR`. -/
def EpollReturn.interrupted (r : EpollReturn) : Bool := decide (r.rt < 0) && r.errno == eintr

/-- `next_timeout` as the loop limits it before each call. -/
def limited (next : UInt64) : UInt64 :=
  if next.toNat ≠ u64 - 1 then
    if signed 31 next.toNat > maxTimeout then UInt64.ofNat maxTimeout else next
  else UInt64.ofNat maxTimeout

/-- The timeouts passed to `epoll_wait`, when the calls that have returned so far did so with these
values. -/
def waits (next : UInt64) : List EpollReturn → List ℤ
  | [] => [signed 31 (limited next).toNat]
  | r :: returns =>
    signed 31 (limited next).toNat :: if r.interrupted then waits (limited next) returns else []

/-- The timeout is one that `idle` is meant to wait. -/
structure Within (next : ℕ) (timeout : ℤ) : Prop where
  nonneg : 0 ≤ timeout
  limit : timeout ≤ maxTimeout
  due : timeout ≤ next

variable {next : UInt64} {t : ℤ}

/-- The three cases of the limit. -/
theorem limited_cases (next : UInt64) :
    limited next = 3000 ∧ (next.toNat = u64 - 1 ∨ 3000 < signed 31 next.toNat) ∨
      limited next = next ∧ next.toNat ≠ u64 - 1 ∧ signed 31 next.toNat ≤ 3000 := by
  unfold limited
  split
  · rename_i hset
    split
    · rename_i hlarge
      exact Or.inl ⟨rfl, Or.inr hlarge⟩
    · rename_i hsmall
      exact Or.inr ⟨rfl, hset, not_lt.mp hsmall⟩
  · rename_i hnone
    exact Or.inl ⟨rfl, Or.inl (not_not.mp hnone)⟩

/-- Limiting again changes nothing. -/
theorem limited_limited (next : UInt64) : limited (limited next) = limited next := by
  rcases limited_cases next with ⟨heq, _⟩ | ⟨heq, _⟩
  · rw [heq]
    decide
  · rw [heq, heq]

/-- Every call has the same timeout. -/
theorem mem_waits {returns : List EpollReturn} :
    t ∈ waits next returns ↔ t = signed 31 (limited next).toNat := by
  induction returns generalizing next with
  | nil => exact List.mem_singleton
  | cons r returns ih =>
    rw [waits, List.mem_cons]
    split
    · rw [ih, limited_limited]
      exact or_self_iff
    · exact or_iff_left List.not_mem_nil

/-- When the timeout is as it should be. -/
theorem within_limited_iff (next : UInt64) :
    Within next.toNat (signed 31 (limited next).toNat) ↔
      next.toNat = u64 - 1 ∨ next.toNat % 2 ^ 32 < 2 ^ 31 := by
  have hthree : signed 31 (3000 : UInt64).toNat = 3000 := by decide
  have hnonneg := signed_nonneg_iff 31 next.toNat
  have hle := signed_le 31 next.toNat
  rcases limited_cases next with ⟨heq, hcase⟩ | ⟨heq, hset, hsmall⟩
  · rw [heq, hthree]
    have hdue : (3000 : ℤ) ≤ next.toNat := by
      rcases hcase with hnone | hlarge
      · rw [hnone]
        decide
      · omega
    refine iff_of_true ⟨by decide, by decide, hdue⟩ ?_
    exact hcase.imp_right fun hlarge => hnonneg.mp (by omega)
  · rw [heq]
    constructor
    · exact fun h => Or.inr (hnonneg.mp h.nonneg)
    · rintro (hnone | hlow)
      · exact absurd hnone hset
      · exact ⟨hnonneg.mpr hlow, hsmall, hle⟩

end IdleWait

namespace TimerManager

open IdleWait

variable {W C : Type*}

/-- A round of `idle` up to the end of the waits: none when the worker stops. -/
def idle (m : TimerManager W C) (now : ℕ) (pendingEventCount : ℕ) (schedulerStopping : Bool)
    (returns : List EpollReturn) : Option (List ℤ) :=
  let next := UInt64.ofNat (m.getNextTimer now).2
  if next.toNat = u64 - 1 ∧ pendingEventCount = 0 ∧ schedulerStopping = true then none
  else some (waits next returns)

/-- The time until the next timer is a `uint64_t`. -/
theorem getNextTimer_lt (m : TimerManager W C) (now : ℕ) : (m.getNextTimer now).2 < u64 := by
  unfold getNextTimer
  dsimp only
  split
  · decide
  · split
    · decide
    · exact Nat.mod_lt _ (by decide)

/-- The timeouts of all calls of `epoll_wait` in a round of `idle` are between 0 and 3000 ms and not
larger than the time until the next timer exactly when there is no timer or the lower 32 bits of that time
are a non-negative `int`. -/
theorem idle_within_iff (m : TimerManager W C) (now pendingEventCount : ℕ) (schedulerStopping : Bool)
    (returns : List EpollReturn) :
    (∀ timeouts ∈ m.idle now pendingEventCount schedulerStopping returns, ∀ t ∈ timeouts,
      Within (m.getNextTimer now).2 t) ↔
    (m.getNextTimer now).2 = u64 - 1 ∨ (m.getNextTimer now).2 % 2 ^ 32 < 2 ^ 31 := by
  have hnext : (UInt64.ofNat (m.getNextTimer now).2).toNat = (m.getNextTimer now).2 :=
    UInt64.toNat_ofNat_of_lt (m.getNextTimer_lt now)
  have hiff := within_limited_iff (UInt64.ofNat (m.getNextTimer now).2)
  rw [hnext] at hiff
  unfold idle
  dsimp only
  split
  · rename_i hstop
    rw [hnext] at hstop
    exact iff_of_true (fun _ h => by cases h) (Or.inl hstop.1)
  · simp only [Option.mem_some_iff, forall_eq', mem_waits, forall_eq]
    exact hiff

/-- A timer that is due in 2147483648 ms: `epoll_wait` is called with a timeout below zero. -/
theorem not_idle_within_distant :
    ¬ ∀ timeouts ∈ ((empty : TimerManager Unit Unit).addTimer 1 1000 2147483648 (.plain ()) false).1.idle
      1000 0 false [], ∀ t ∈ timeouts, Within
        (((empty : TimerManager Unit Unit).addTimer 1 1000 2147483648 (.plain ()) false).1.getNextTimer 1000).2
        t := by
  intro h
  have hwithin := h [-2147483648] (by decide) (-2147483648) (List.mem_singleton_self _)
  exact absurd hwithin.nonneg (by decide)

end TimerManager

end Bobliew
