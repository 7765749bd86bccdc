import Bobliew.Timer.Delivery

/-!
# Whether a timer is pending

`cancel`, `refresh` and `reset` take a timer to be pending while it has a callback. That is right for the
timers whose callback is not empty, in every run that never gives the deadline zero to a timer while
another pending one has it. `reset` has a shortcut in front of this test: for the interval the timer has
already and not from now on it reports success, whether the timer is pending or not.
-/

namespace Bobliew

namespace TimerManager

variable {W C : Type*} {m : TimerManager W C} {p q : ℕ} {t : Timer W C}

/-- No other pending timer has the deadline zero when a timer gets it. -/
def Sets (m : TimerManager W C) (p next : ℕ) : Prop := next = 0 → ∀ q ∈ m.timers, q ≠ p → m.nextOf q ≠ 0

/-- The call does not give the deadline zero to a timer while another pending one has it. -/
def Distinct (m : TimerManager W C) : TimerCall W C → Prop
  | .op (.addTimer p now ms _ _) => m.Sets p (addU64 now ms)
  | .op (.addConditionTimer p now ms _ _ _) => m.Sets p (addU64 now ms)
  | .addEmpty p now ms _ => m.Sets p (addU64 now ms)
  | .op (.refresh p now) => p ∈ m.timers → ∀ t, m.heap p = some t → m.Sets p (addU64 now t.ms)
  | .op (.reset p now ms fromNow) => p ∈ m.timers → ∀ t, m.heap p = some t →
      m.Sets p (addU64 (if fromNow then now else subU64 t.next t.ms) ms)
  | .op (.listExpireCb now _) => m.Apart now
  | .op (.cancel _) => True
  | .op (.getNextTimer _) => True

/-- The calls that answer whether a timer is pending. -/
inductive TimerRequest where
  | cancel
  | refresh (now : ℕ)
  | reset (now ms : ℕ) (fromNow : Bool)

/-- Perform such a call on a timer: the manager afterwards, and the result. -/
def request (m : TimerManager W C) (p : ℕ) : TimerRequest → Except Fault (TimerManager W C × Bool)
  | .cancel => m.cancel p
  | .refresh now => .ok (m.refresh p now)
  | .reset now ms fromNow => .ok ((m.reset p now ms fromNow).1, (m.reset p now ms fromNow).2.1)

/-- What the call makes of a pending timer: it is absent, or present with a new deadline. -/
def Done (m : TimerManager W C) (p : ℕ) (t : Timer W C) : TimerRequest → Prop
  | .cancel => p ∉ m.timers
  | .refresh now => p ∈ m.timers ∧ m.nextOf p = addU64 now t.ms
  | .reset now ms fromNow => p ∈ m.timers ∧
      m.nextOf p = addU64 (if fromNow then now else subU64 t.next t.ms) ms

/-- The call returns true exactly for a pending timer, changes nothing when it returns false, and does what
it is for when it returns true. -/
def Honest (m : TimerManager W C) (p : ℕ) (t : Timer W C) (request : TimerRequest) : Prop :=
  ∃ r, m.request p request = .ok r ∧ (r.2 = true ↔ p ∈ m.timers) ∧ (r.2 = false → r.1 = m) ∧
    (r.2 = true → r.1.Done p t request)

/-- A pending timer has a callback that is not empty and keeps a deadline of its own; and where `reset`
takes its shortcut the timer is pending. -/
def Handled (m : TimerManager W C) (p : ℕ) (t : Timer W C) : TimerRequest → Prop
  | .cancel => p ∈ m.timers → t.cb.isSome = true
  | .refresh now => p ∈ m.timers → t.cb.isSome = true ∧ m.Sets p (addU64 now t.ms)
  | .reset now ms fromNow =>
    if ms = t.ms ∧ fromNow = false then p ∈ m.timers
    else p ∈ m.timers → t.cb.isSome = true ∧
      m.Sets p (addU64 (if fromNow then now else subU64 t.next t.ms) ms)

/-- The set is in order, timers with a callback are in it, and deadlines have 64 bits. -/
structure Kept (m : TimerManager W C) : Prop where
  shape : Shape m []
  kept : ∀ p t, m.heap p = some t → t.cb.isSome = true → p ∈ m.timers
  bounded : ∀ p t, m.heap p = some t → t.next < u64

/-- A sum of 64 bits. -/
theorem addU64_lt (a b : ℕ) : addU64 a b < u64 := Nat.mod_lt _ (by decide)

/-- Going back from a deadline and forth again. -/
theorem addU64_subU64 {a : ℕ} (ha : a < u64) (b : ℕ) : addU64 (subU64 a b) b = a := by
  have hb : b % u64 < u64 := Nat.mod_lt _ (by decide)
  have hsum : a + (u64 - b % u64) + b = a + u64 * (b / u64 + 1) := by
    have hdiv := Nat.div_add_mod b u64
    rw [Nat.mul_add]
    omega
  rw [addU64, subU64, Nat.mod_add_mod, hsum, Nat.add_mul_mod_self_left, Nat.mod_eq_of_lt ha]

/-- A timer that gets a deadline of its own is inserted. -/
theorem Sets.mem_insertTimer (h : m.Sets p t.next) (hp : p ∉ m.timers) :
    p ∈ ((m.store p t).insertTimer p).timers := by
  refine mem_insertTimer_self hp fun y hy => ?_
  have hyp : y ≠ p := fun heq => hp (heq ▸ hy)
  rw [nextOf_store_self, nextOf_store_ne hyp]
  by_cases hzero : t.next = 0
  · exact Or.inr (h hzero y hy hyp)
  · exact Or.inl hzero

/-- A new timer. -/
theorem Kept.add (h : Kept m) (hp : m.heap p = none) (hset : m.Sets p t.next) (hnext : t.next < u64) :
    Kept ((m.store p t).addTimerLocked p).1 := by
  have hout : p ∉ m.timers := fun hmem => by
    have halloc := h.shape.allocated p hmem
    rw [hp] at halloc
    cases halloc
  refine ⟨h.shape.add hp, fun q u hu hcb => ?_, fun q u hu => ?_⟩
  · rcases heap_store_cases (m := m) hu with ⟨rfl, _⟩ | ⟨_, hold⟩
    · exact hset.mem_insertTimer hout
    · exact OrderedList.mem_insert_of_mem (h.kept q u hold hcb)
  · rcases heap_store_cases (m := m) hu with ⟨_, rfl⟩ | ⟨_, hold⟩
    · exact hnext
    · exact h.bounded q u hold

/-- A member with a new deadline. -/
theorem Kept.move (h : Kept m) (hp : p ∈ m.timers) (hset : m.Sets p t.next) (hnext : t.next < u64) :
    Kept (((m.eraseTimer p).store p t).insertTimer p) := by
  have hset' : (m.eraseTimer p).Sets p t.next :=
    fun hzero q hq hqp => hset hzero q (List.mem_of_mem_erase hq) hqp
  refine ⟨h.shape.moved (h.shape.findTimer_mem hp), fun q u hu hcb => ?_, fun q u hu => ?_⟩
  · rcases heap_store_cases (m := m.eraseTimer p) hu with ⟨rfl, _⟩ | ⟨hqp, hold⟩
    · exact hset'.mem_insertTimer h.shape.timers_nodup.not_mem_erase
    · exact OrderedList.mem_insert_of_mem ((List.mem_erase_of_ne hqp).mpr (h.kept q u hold hcb))
  · rcases heap_store_cases (m := m.eraseTimer p) hu with ⟨_, rfl⟩ | ⟨_, hold⟩
    · exact hnext
    · exact h.bounded q u hold

/-- `cancel` of a timer with a callback takes it out of the set. -/
theorem Kept.cancel_eq (h : Kept m) (ht : m.heap p = some t) (hcb : t.cb.isSome = true) :
    m.cancel p = .ok ((m.store p { t with cb := none }).eraseTimer p, true) := by
  have hless : (m.store p { t with cb := none }).less = m.less :=
    less_store_of_next_eq (by simp [nextOf, ht])
  have hfind : (m.store p { t with cb := none }).findTimer p = some p := by
    rw [findTimer, hless]
    exact h.shape.findTimer_mem (h.kept p t ht hcb)
  simp [TimerManager.cancel, ht, hcb, hfind]

/-- `cancel` of a timer without a callback. -/
theorem cancel_empty (ht : m.heap p = some t) (hcb : ¬ t.cb.isSome = true) : m.cancel p = .ok (m, false) := by
  simp [TimerManager.cancel, ht, hcb]

/-- `cancel` keeps the invariant. -/
theorem Kept.cancel (h : Kept m) {r : TimerManager W C × Bool} (hr : m.cancel p = .ok r) : Kept r.1 := by
  have hshape := (h.shape.cancel hr).1
  cases ht : m.heap p with
  | none =>
    simp only [TimerManager.cancel, ht] at hr
    cases hr
    exact h
  | some t =>
    by_cases hcb : t.cb.isSome = true
    · rw [h.cancel_eq ht hcb] at hr
      cases hr
      refine ⟨hshape, fun q u hu hcb' => ?_, fun q u hu => ?_⟩
      · rcases heap_store_cases (m := m) hu with ⟨_, rfl⟩ | ⟨hqp, hold⟩
        · cases hcb'
        · exact (List.mem_erase_of_ne hqp).mpr (h.kept q u hold hcb')
      · rcases heap_store_cases (m := m) hu with ⟨_, rfl⟩ | ⟨_, hold⟩
        · exact h.bounded p t ht
        · exact h.bounded q u hold
    · rw [cancel_empty ht hcb] at hr
      cases hr
      exact h

/-- `refresh` of a timer with a callback. -/
theorem Kept.refresh_eq (h : Kept m) (ht : m.heap p = some t) (hcb : t.cb.isSome = true) (now : ℕ) :
    m.refresh p now =
      (((m.eraseTimer p).store p { t with next := addU64 now t.ms }).insertTimer p, true) := by
  simp [TimerManager.refresh, ht, hcb, h.shape.findTimer_mem (h.kept p t ht hcb)]

/-- `refresh` of a timer without a callback. -/
theorem refresh_empty (ht : m.heap p = some t) (hcb : ¬ t.cb.isSome = true) (now : ℕ) :
    m.refresh p now = (m, false) := by
  simp [TimerManager.refresh, ht, hcb]

/-- The shortcut of `reset`. -/
theorem reset_shortcut (now : ℕ) (ht : m.heap p = some t) {ms : ℕ} {fromNow : Bool}
    (hsame : ms = t.ms ∧ fromNow = false) : m.reset p now ms fromNow = (m, true, false) := by
  simp only [TimerManager.reset, ht]
  rw [if_pos hsame]

/-- `reset` of a timer with a callback, without the shortcut. -/
theorem Kept.reset_eq (h : Kept m) (now : ℕ) (ht : m.heap p = some t) (hcb : t.cb.isSome = true) {ms : ℕ}
    {fromNow : Bool} (hsame : ¬ (ms = t.ms ∧ fromNow = false)) :
    (m.reset p now ms fromNow).1 = (((m.eraseTimer p).store p { t with
        ms := ms, next := addU64 (if fromNow then now else subU64 t.next t.ms) ms }).addTimerLocked p).1 ∧
      (m.reset p now ms fromNow).2.1 = true := by
  simp only [TimerManager.reset, ht]
  rw [if_neg hsame, if_pos hcb, h.shape.findTimer_mem (h.kept p t ht hcb)]
  exact ⟨rfl, rfl⟩

/-- `reset` of a timer without a callback, without the shortcut. -/
theorem reset_empty (now : ℕ) (ht : m.heap p = some t) (hcb : ¬ t.cb.isSome = true) {ms : ℕ} {fromNow : Bool}
    (hsame : ¬ (ms = t.ms ∧ fromNow = false)) : m.reset p now ms fromNow = (m, false, false) := by
  simp only [TimerManager.reset, ht]
  rw [if_neg hsame, if_neg hcb]

/-- `m_tickled` plays no part. -/
theorem Kept.of_eq {m' : TimerManager W C} (h : Kept m) (hheap : m'.heap = m.heap)
    (htimers : m'.timers = m.timers) : Kept m' :=
  ⟨h.shape.of_eq hheap htimers, by rw [hheap, htimers]; exact h.kept, by rw [hheap]; exact h.bounded⟩

/-- `refresh` keeps the invariant. -/
theorem Kept.refresh (h : Kept m) {now : ℕ}
    (hset : p ∈ m.timers → ∀ t, m.heap p = some t → m.Sets p (addU64 now t.ms)) :
    Kept (m.refresh p now).1 := by
  cases ht : m.heap p with
  | none =>
    simp only [TimerManager.refresh, ht]
    exact h
  | some t =>
    by_cases hcb : t.cb.isSome = true
    · have hp := h.kept p t ht hcb
      rw [h.refresh_eq ht hcb]
      exact h.move hp (hset hp t ht) (addU64_lt _ _)
    · rw [refresh_empty ht hcb]
      exact h

/-- `reset` keeps the invariant. -/
theorem Kept.reset (h : Kept m) {now ms : ℕ} {fromNow : Bool}
    (hset : p ∈ m.timers → ∀ t, m.heap p = some t →
      m.Sets p (addU64 (if fromNow then now else subU64 t.next t.ms) ms)) :
    Kept (m.reset p now ms fromNow).1 := by
  cases ht : m.heap p with
  | none =>
    simp only [TimerManager.reset, ht]
    exact h
  | some t =>
    by_cases hsame : ms = t.ms ∧ fromNow = false
    · rw [reset_shortcut _ ht hsame]
      exact h
    · by_cases hcb : t.cb.isSome = true
      · have hp := h.kept p t ht hcb
        rw [(h.reset_eq _ ht hcb hsame).1]
        exact Kept.of_eq (h.move hp (hset hp t ht) (addU64_lt _ _)) rfl rfl
      · rw [reset_empty _ ht hcb hsame]
        exact h

/-- `listExpireCb` keeps the invariant. -/
theorem Kept.listExpireCb (h : Kept m) {now : ℕ} (nowPtr : ℕ) (hapart : m.Apart now) :
    Kept (m.listExpireCb now nowPtr).1 := by
  obtain ⟨_, hin, hframe⟩ := h.shape.listExpireCb_heap now nowPtr
  have hold : ∀ q u, (m.listExpireCb now nowPtr).1.heap q = some u →
      ∃ t, m.heap q = some t ∧ (q ∈ m.late now → u = fired now t) ∧ (q ∉ m.late now → u = t) := by
    intro q u hu
    by_cases hq : q ∈ m.late now
    · rw [hin q hq] at hu
      obtain ⟨t, ht, rfl⟩ := Option.map_eq_some_iff.mp hu
      exact ⟨t, ht, fun _ => rfl, fun hnot => absurd hq hnot⟩
    · rw [hframe q hq] at hu
      exact ⟨u, hu, fun hmem => absurd hmem hq, fun _ => rfl⟩
  refine ⟨h.shape.listExpireCb now nowPtr, fun q u hu hcb => ?_, fun q u hu => ?_⟩
  · obtain ⟨t, ht, hlate, hother⟩ := hold q u hu
    by_cases hq : q ∈ m.late now
    · obtain rfl := hlate hq
      by_cases hrecurring : t.recurring = true
      · exact h.shape.mem_timers_of_recurring nowPtr hapart hq ht hrecurring
      · rw [fired, if_neg hrecurring] at hcb
        cases hcb
    · obtain rfl := hother hq
      exact (h.shape.mem_timers_listExpireCb now nowPtr q).2 (h.kept q u ht hcb) hq
  · obtain ⟨t, ht, hlate, hother⟩ := hold q u hu
    by_cases hq : q ∈ m.late now
    · rw [hlate hq, fired]
      split
      · exact addU64_lt _ _
      · exact h.bounded q t ht
    · rw [hother hq]
      exact h.bounded q t ht

/-- Every call that keeps deadlines distinct keeps the invariant. -/
theorem Kept.call (h : Kept m) {c : TimerCall W C} (haddr : CallAddressed m c) (hdistinct : m.Distinct c)
    {r : TimerManager W C × Bool} (hr : m.call c = .ok r) : Kept r.1 := by
  cases c with
  | addEmpty p now ms recurring =>
    cases hr
    exact h.add haddr hdistinct (addU64_lt _ _)
  | op op =>
    cases op with
    | addTimer p now ms cb recurring =>
      cases hr
      exact h.add haddr hdistinct (addU64_lt _ _)
    | addConditionTimer p now ms cb weakCond recurring =>
      cases hr
      exact h.add haddr hdistinct (addU64_lt _ _)
    | cancel p =>
      obtain ⟨canceled, hcancel, rfl⟩ := Except.exists_of_map_eq_ok hr
      exact h.cancel (r := canceled) hcancel
    | refresh p now =>
      cases hr
      exact h.refresh hdistinct
    | reset p now ms fromNow =>
      cases hr
      exact h.reset hdistinct
    | listExpireCb now nowPtr =>
      cases hr
      exact h.listExpireCb nowPtr hdistinct
    | getNextTimer now =>
      cases hr
      exact h.of_eq rfl rfl

/-- The state after a call. -/
def callStep (m : TimerManager W C) (c : TimerCall W C) : Except Fault (TimerManager W C) :=
  (m.call c).map Prod.fst

/-- The invariant holds in every run that keeps deadlines distinct. -/
theorem kept_of_reaches
    (h : Runs.Reaches callStep (fun m c => CallAddressed m c ∧ m.Distinct c) TimerManager.empty m) : Kept m := by
  refine h.invariant Kept ⟨Shape.empty, ?_, ?_⟩ fun m c m' hm hc hok => ?_
  · intro p t ht
    cases ht
  · intro p t ht
    cases ht
  · obtain ⟨r, hr, rfl⟩ := Except.exists_of_map_eq_ok hok
    exact hm.call hc.1 hc.2 hr

/-- Whether a timer with a callback that gets a new deadline is in the set afterwards. -/
theorem Kept.mem_moved_iff (h : Kept m) :
    p ∈ (((m.eraseTimer p).store p t).insertTimer p).timers ↔ m.Sets p t.next := by
  have hout : p ∉ (m.eraseTimer p).timers := h.shape.timers_nodup.not_mem_erase
  have hmem := ((h.shape.eraseTimer p).store (t := t) hout).mem_insertTimer_iff hout
  rw [nextOf_store_self] at hmem
  rw [hmem]
  constructor
  · rintro (hpos | hall) hzero q hq hqp
    · exact absurd hzero hpos
    · have hq' := hall q ((List.mem_erase_of_ne hqp).mpr hq)
      rwa [nextOf_store_ne hqp] at hq'
  · intro hset
    refine Classical.or_iff_not_imp_left.mpr fun hzero y hy => ?_
    have hyp : y ≠ p := fun heq => hout (heq ▸ hy)
    rw [nextOf_store_ne hyp]
    exact hset (not_not.mp hzero) y (List.mem_of_mem_erase hy) hyp

/-- A call that returns false and changes nothing is honest for the timers that are not pending. -/
theorem honest_refused_iff {request : TimerRequest} (hrun : m.request p request = .ok (m, false)) :
    Honest m p t request ↔ p ∉ m.timers := by
  constructor
  · rintro ⟨r, hr, hiff, _⟩ hp
    obtain rfl : (m, false) = r := Except.ok.inj (hrun.symm.trans hr)
    exact absurd (hiff.mpr hp) Bool.false_ne_true
  · intro hp
    refine ⟨_, hrun, iff_of_false Bool.false_ne_true hp, fun _ => rfl, ?_⟩
    intro htrue
    cases htrue

/-- A call that returns true is honest for a pending timer for which it does what it is for. -/
theorem honest_done_iff {request : TimerRequest} {m' : TimerManager W C}
    (hrun : m.request p request = .ok (m', true)) :
    Honest m p t request ↔ p ∈ m.timers ∧ m'.Done p t request := by
  constructor
  · rintro ⟨r, hr, hiff, _, hdone⟩
    obtain rfl : (m', true) = r := Except.ok.inj (hrun.symm.trans hr)
    exact ⟨hiff.mp rfl, hdone rfl⟩
  · rintro ⟨hp, hdone⟩
    refine ⟨_, hrun, iff_of_true rfl hp, ?_, fun _ => hdone⟩
    intro hfalse
    cases hfalse

/-- `cancel`. -/
theorem Kept.honest_cancel_iff (h : Kept m) (ht : m.heap p = some t) :
    Honest m p t .cancel ↔ Handled m p t .cancel := by
  by_cases hcb : t.cb.isSome = true
  · have hp := h.kept p t ht hcb
    have hrun : m.request p .cancel = .ok ((m.store p { t with cb := none }).eraseTimer p, true) :=
      h.cancel_eq ht hcb
    have hgone : p ∉ ((m.store p { t with cb := none }).eraseTimer p).timers := h.shape.timers_nodup.not_mem_erase
    exact iff_of_true ((honest_done_iff hrun).mpr ⟨hp, hgone⟩) fun _ => hcb
  · have hrun : m.request p .cancel = .ok (m, false) := cancel_empty ht hcb
    rw [honest_refused_iff hrun]
    exact ⟨fun hp hin => absurd hin hp, fun hhandled hp => hcb (hhandled hp)⟩

/-- `refresh`. -/
theorem Kept.honest_refresh_iff (h : Kept m) (ht : m.heap p = some t) (now : ℕ) :
    Honest m p t (.refresh now) ↔ Handled m p t (.refresh now) := by
  by_cases hcb : t.cb.isSome = true
  · have hp := h.kept p t ht hcb
    have hrun : m.request p (.refresh now) =
        .ok (((m.eraseTimer p).store p { t with next := addU64 now t.ms }).insertTimer p, true) :=
      congrArg Except.ok (h.refresh_eq ht hcb now)
    rw [honest_done_iff hrun]
    constructor
    · rintro ⟨_, hmoved, _⟩ _
      exact ⟨hcb, h.mem_moved_iff.mp hmoved⟩
    · intro hhandled
      exact ⟨hp, h.mem_moved_iff.mpr (hhandled hp).2, nextOf_store_self⟩
  · have hrun : m.request p (.refresh now) = .ok (m, false) := congrArg Except.ok (refresh_empty ht hcb now)
    rw [honest_refused_iff hrun]
    exact ⟨fun hp hin => absurd hin hp, fun hhandled hp => hcb (hhandled hp).1⟩

/-- `reset`. -/
theorem Kept.honest_reset_iff (h : Kept m) (ht : m.heap p = some t) (now ms : ℕ) (fromNow : Bool) :
    Honest m p t (.reset now ms fromNow) ↔ Handled m p t (.reset now ms fromNow) := by
  simp only [Handled]
  by_cases hsame : ms = t.ms ∧ fromNow = false
  · rw [if_pos hsame]
    have hrun : m.request p (.reset now ms fromNow) = .ok (m, true) := by
      rw [request, reset_shortcut now ht hsame]
    have hdeadline : m.nextOf p = addU64 (if fromNow then now else subU64 t.next t.ms) ms := by
      rw [hsame.1, hsame.2, if_neg Bool.false_ne_true, addU64_subU64 (h.bounded p t ht)]
      simp [nextOf, ht]
    rw [honest_done_iff hrun]
    exact ⟨And.left, fun hp => ⟨hp, hp, hdeadline⟩⟩
  · rw [if_neg hsame]
    by_cases hcb : t.cb.isSome = true
    · have hp := h.kept p t ht hcb
      obtain ⟨hstate, hresult⟩ := h.reset_eq now ht hcb hsame
      have hrun : m.request p (.reset now ms fromNow) = .ok ((m.reset p now ms fromNow).1, true) := by
        rw [request, hresult]
      rw [honest_done_iff hrun, hstate]
      constructor
      · rintro ⟨_, hmoved, _⟩ _
        exact ⟨hcb, h.mem_moved_iff.mp hmoved⟩
      · intro hhandled
        exact ⟨hp, h.mem_moved_iff.mpr (hhandled hp).2, nextOf_store_self⟩
    · have hrun : m.request p (.reset now ms fromNow) = .ok (m, false) := by
        rw [request, reset_empty now ht hcb hsame]
      rw [honest_refused_iff hrun]
      exact ⟨fun hp hin => absurd hin hp, fun hhandled hp => hcb (hhandled hp).1⟩

/-- In every run that keeps deadlines distinct, each call on a timer answers whether it is pending exactly
when a pending timer has a callback and keeps a deadline of its own, and the shortcut of `reset` is only
taken for a pending timer. -/
theorem honest_iff_handled
    (h : Runs.Reaches callStep (fun m c => CallAddressed m c ∧ m.Distinct c) TimerManager.empty m)
    (ht : m.heap p = some t) (request : TimerRequest) : Honest m p t request ↔ Handled m p t request := by
  have hkept := kept_of_reaches h
  cases request with
  | cancel => exact hkept.honest_cancel_iff ht
  | refresh now => exact hkept.honest_refresh_iff ht now
  | reset now ms fromNow => exact hkept.honest_reset_iff ht now ms fromNow

/-- A timer that has been added is pending and can be canceled. -/
theorem honest_iff_handled_added :
    ∃ m : TimerManager Unit Unit, m.timers = [3] ∧
      (Honest m 3 ⟨false, 10, 15, some (.plain ())⟩ .cancel ↔
        Handled m 3 ⟨false, 10, 15, some (.plain ())⟩ .cancel) := by
  have hadd : Runs.Reaches callStep (fun m c => CallAddressed m c ∧ m.Distinct c)
      (TimerManager.empty : TimerManager Unit Unit) _ :=
    .next .start (.op (.addTimer 3 5 10 () false)) ⟨rfl, fun hzero => absurd hzero (by decide)⟩ rfl
  exact ⟨_, rfl, honest_iff_handled hadd rfl .cancel⟩

/-- A canceled timer is reset to the interval it has, and `reset` returns true. -/
theorem not_honest_canceled :
    ∃ m : TimerManager Unit Unit,
      Runs.Reaches callStep (fun m c => CallAddressed m c ∧ m.Distinct c) TimerManager.empty m ∧
      m.heap 3 = some ⟨false, 10, 15, none⟩ ∧
      ¬ Honest m 3 ⟨false, 10, 15, none⟩ (.reset 20 10 false) := by
  have hadd : Runs.Reaches callStep (fun m c => CallAddressed m c ∧ m.Distinct c)
      (TimerManager.empty : TimerManager Unit Unit) _ :=
    .next .start (.op (.addTimer 3 5 10 () false)) ⟨rfl, fun hzero => absurd hzero (by decide)⟩ rfl
  have hcancel := hadd.next (.op (.cancel 3)) ⟨rfl, trivial⟩ rfl
  refine ⟨_, hcancel, rfl, ?_⟩
  rintro ⟨r, hr, hiff, _⟩
  cases hr
  exact absurd (hiff.mp rfl) (by decide)

end TimerManager

end Bobliew
