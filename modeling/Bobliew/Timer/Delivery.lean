import Bobliew.Timer.Expiry

/-!
# Which timers an expiry takes

`listExpireCb` splits the set at the first timer after the clock reading, or takes all of it after a
rollover. The timers it takes hand out their callbacks in the order of the set; the recurring ones come
back with a new deadline, and the others lose their callbacks.

The comparator identifies all timers with the deadline zero, so of several recurring timers without an
interval that are armed again at the clock reading zero only the first one comes back. A callback that was
handed out by a timer that is not recurring, or that was canceled, is never handed out again.
-/

namespace Bobliew

namespace TimerManager

variable {W C : Type*} {m : TimerManager W C} {S : List ℕ} {p q now nowPtr : ℕ} {t : Timer W C}

/-- The callback stored at an address. -/
def callbackOf (m : TimerManager W C) (p : ℕ) : Option (TimerCallback W C) := (m.heap p).bind Timer.cb

/-- The timers whose deadline has passed, or all of them after a rollover. -/
def late (m : TimerManager W C) (now : ℕ) : List ℕ :=
  if (m.detectClockRollover now).2 then m.timers else m.timers.filter fun p => decide (m.nextOf p ≤ now)

/-- A timer after it has expired. -/
def fired (now : ℕ) (t : Timer W C) : Timer W C :=
  if t.recurring then { t with next := addU64 now t.ms } else { t with cb := none }

/-- Of two recurring timers that expire at most one gets the deadline zero. -/
def Apart (m : TimerManager W C) (now : ℕ) : Prop :=
  ∀ p ∈ m.late now, ∀ q ∈ m.late now, ∀ t u, m.heap p = some t → m.heap q = some u →
    t.recurring = true → u.recurring = true → addU64 now t.ms = 0 → addU64 now u.ms = 0 → p = q

/-- The timer is recurring and gets the deadline zero when it is armed again. -/
def rearmsAtZero (m : TimerManager W C) (now p : ℕ) : Bool :=
  (m.heap p).any fun t => t.recurring && addU64 now t.ms == 0

/-- What `listExpireCb` does: it hands out exactly the callbacks of the timers whose deadline has passed, in their
order; recurring ones get a deadline from now on and stay, but of those with the deadline zero only the first;
the others lose their callback and leave the set, and all other timers are as before. -/
structure Splits (m : TimerManager W C) (now nowPtr : ℕ) : Prop where
  callbacks : (m.listExpireCb now nowPtr).2 = (m.late now).map m.callbackOf
  oneShot : ∀ p ∈ m.late now, ∀ t, m.heap p = some t → t.recurring = false →
    p ∉ (m.listExpireCb now nowPtr).1.timers ∧
      (m.listExpireCb now nowPtr).1.heap p = some { t with cb := none }
  recurring : ∀ p ∈ m.late now, ∀ t, m.heap p = some t → t.recurring = true →
    (m.listExpireCb now nowPtr).1.heap p = some { t with next := addU64 now t.ms } ∧
      (p ∈ (m.listExpireCb now nowPtr).1.timers ↔
        addU64 now t.ms ≠ 0 ∨ (m.late now).find? (m.rearmsAtZero now) = some p)
  others : ∀ p, p ∉ m.late now → (p ∈ (m.listExpireCb now nowPtr).1.timers ↔ p ∈ m.timers) ∧
    (m.listExpireCb now nowPtr).1.heap p = m.heap p
  shape : Shape (m.listExpireCb now nowPtr).1 []

/-- `listExpireCb` hands out exactly the callbacks of the timers whose deadline has passed, in their
order; recurring ones get a deadline from now on, the others lose their callback and leave the set, and
all other timers are as before. -/
structure SplitsExactly (m : TimerManager W C) (now nowPtr : ℕ) : Prop where
  callbacks : (m.listExpireCb now nowPtr).2 = (m.late now).map m.callbackOf
  oneShot : ∀ p ∈ m.late now, ∀ t, m.heap p = some t → t.recurring = false →
    p ∉ (m.listExpireCb now nowPtr).1.timers ∧
      (m.listExpireCb now nowPtr).1.heap p = some { t with cb := none }
  recurring : ∀ p ∈ m.late now, ∀ t, m.heap p = some t → t.recurring = true →
    p ∈ (m.listExpireCb now nowPtr).1.timers ∧
      (m.listExpireCb now nowPtr).1.heap p = some { t with next := now + t.ms }
  others : ∀ p, p ∉ m.late now → (p ∈ (m.listExpireCb now nowPtr).1.timers ↔ p ∈ m.timers) ∧
    (m.listExpireCb now nowPtr).1.heap p = m.heap p
  shape : Shape (m.listExpireCb now nowPtr).1 []

/-! ## The split -/

/-- From the first timer that has not expired on, no timer has. -/
theorem Shape.lt_nextOf_of_mem_unexpired (h : Shape m S) (hq : q ∈ m.unexpired now nowPtr false) :
    now < m.nextOf q := by
  rw [unexpired, if_neg Bool.false_ne_true] at hq
  have hsorted : OrderedList.Sorted m.less
      (m.timers.dropWhile fun p => timerComparator (m.key p) (now, nowPtr)) :=
    h.sorted.sublist (List.dropWhile_sublist _)
  have hreached := hsorted.forall_of_head? (P := fun a => now ≤ m.nextOf a)
    (fun a b hab ha => ha.trans (nextOf_le_of_less hab)) fun a ha => by
      have hfails : timerComparator (m.key a) (now, nowPtr) = false :=
        OrderedList.eq_false_of_head?_dropWhile (f := fun p => timerComparator (m.key p) (now, nowPtr)) ha
      have hnot := (timerComparator_iff _ _).not.mp (Bool.eq_false_iff.mp hfails)
      simp only [key] at hnot
      omega
  refine OrderedList.Sorted.forall_of_head? (P := fun a => now < m.nextOf a)
    (hsorted.sublist (List.dropWhile_sublist _))
    (fun a b hab ha => ha.trans_le (nextOf_le_of_less hab)) (fun a ha => ?_) q hq
  have hne : m.nextOf a ≠ now := of_decide_eq_false
    (OrderedList.eq_false_of_head?_dropWhile (f := fun p => decide (m.nextOf p = now)) ha)
  have hle := hreached a ((List.dropWhile_sublist _).mem (List.mem_of_head? ha))
  omega

/-- The expired range consists of the timers whose deadline has passed. -/
theorem Shape.expired_eq_filter (h : Shape m S) :
    m.expired now nowPtr false = m.timers.filter fun p => decide (m.nextOf p ≤ now) := by
  have hsplit := m.expired_append_unexpired now nowPtr false
  have hbefore : (m.expired now nowPtr false).filter (fun p => decide (m.nextOf p ≤ now)) =
      m.expired now nowPtr false :=
    List.filter_eq_self.mpr fun p hp => decide_eq_true (nextOf_le_of_mem_expired hp)
  have hafter : (m.unexpired now nowPtr false).filter (fun p => decide (m.nextOf p ≤ now)) = [] := by
    refine List.filter_eq_nil_iff.mpr fun p hp => ?_
    have hlt := h.lt_nextOf_of_mem_unexpired hp
    simpa using hlt
  conv_rhs => rw [← hsplit, List.filter_append, hbefore, hafter, List.append_nil]

/-- What `listExpireCb` does: it takes the late timers off the front of the set, where the rest has
deadlines still to come, and lets them expire one after the other. -/
theorem Shape.listExpireCb_eq (h : Shape m []) (now nowPtr : ℕ) :
    ∃ rest previousTime, m.late now ++ rest = m.timers ∧ (∀ q ∈ rest, now < m.nextOf q) ∧
      m.listExpireCb now nowPtr = (m.late now).foldl (fire now)
        ({ m with previousTime := previousTime, timers := rest }, []) := by
  have hexpired : ∀ m' : TimerManager W C, m' = (m.detectClockRollover now).1 →
      m'.expired now nowPtr (m.detectClockRollover now).2 = m.late now := by
    rintro m' rfl
    unfold late
    split
    · rename_i hrollover
      rw [hrollover, expired, unexpired, if_pos rfl, List.length_nil, Nat.sub_zero, List.take_length]
      rfl
    · rename_i hrollover
      rw [Bool.eq_false_iff.mpr hrollover]
      exact (h.of_eq rfl rfl : Shape (m.detectClockRollover now).1 []).expired_eq_filter
  have hrest : ∀ q ∈ (m.detectClockRollover now).1.unexpired now nowPtr (m.detectClockRollover now).2,
      now < m.nextOf q := by
    intro q hq
    cases hrollover : (m.detectClockRollover now).2 with
    | true => simp [hrollover, unexpired] at hq
    | false =>
      rw [hrollover] at hq
      exact (h.of_eq rfl rfl : Shape (m.detectClockRollover now).1 []).lt_nextOf_of_mem_unexpired hq
  have hsplit := (m.detectClockRollover now).1.expired_append_unexpired now nowPtr
    (m.detectClockRollover now).2
  rw [hexpired _ rfl] at hsplit
  unfold TimerManager.listExpireCb
  split
  · rename_i hempty
    have hlate : m.late now = [] := by simp [late, hempty]
    refine ⟨m.timers, m.previousTime, by rw [hlate, List.nil_append], by simp [hempty], ?_⟩
    rw [hlate]
    rfl
  · rename_i front rest hfront
    dsimp only
    split
    · rename_i hearly
      obtain ⟨hrollover, hfuture⟩ := Bool.and_eq_true_iff.mp hearly
      have hsorted := h.sorted
      rw [hfront] at hsorted
      have hlate : m.late now = [] := by
        unfold late
        rw [if_neg (by simpa using hrollover), List.filter_eq_nil_iff, hfront]
        refine OrderedList.Sorted.forall_of_head? (P := fun a => ¬ decide (m.nextOf a ≤ now) = true) hsorted
          (fun a b hab ha => ?_) fun a ha => ?_
        · have hle := nextOf_le_of_less hab
          have ha' : ¬ m.nextOf a ≤ now := by simpa using ha
          simp only [decide_eq_true_eq]
          omega
        · obtain rfl : front = a := Option.some.inj ha
          have hlt : now < m.nextOf front := of_decide_eq_true hfuture
          simp only [decide_eq_true_eq]
          omega
      rw [hlate, List.nil_append] at hsplit
      refine ⟨_, now, by rw [hlate, List.nil_append]; exact hsplit, hrest, ?_⟩
      rw [hlate, hsplit]
      rfl
    · exact ⟨_, now, hsplit, hrest, by rw [hexpired _ rfl]; rfl⟩

/-! ## The loop -/

/-- One turn of the loop. -/
theorem fire_eq {acc : TimerManager W C × List (Option (TimerCallback W C))} (ht : acc.1.heap p = some t) :
    fire now acc p = (if t.recurring then (acc.1.store p (fired now t)).insertTimer p
      else acc.1.store p (fired now t), acc.2 ++ [t.cb]) := by
  unfold fire
  simp only [ht]
  split
  · rename_i hrecurring
    rw [fired, if_pos hrecurring]
  · rename_i hrecurring
    rw [fired, if_neg hrecurring]

/-- One turn of the loop changes the object of the timer. -/
theorem heap_fire_self {acc : TimerManager W C × List (Option (TimerCallback W C))}
    (ht : acc.1.heap p = some t) : (fire now acc p).1.heap p = some (fired now t) := by
  rw [fire_eq ht]
  dsimp only
  split <;> simp [store, insertTimer]

/-- The loop over timers of the heap hands out their callbacks and changes their objects only. -/
theorem foldFire_heap {acc : TimerManager W C × List (Option (TimerCallback W C))} (hS : S.Nodup)
    (halloc : ∀ p ∈ S, (acc.1.heap p).isSome = true) :
    (S.foldl (fire now) acc).2 = acc.2 ++ S.map acc.1.callbackOf ∧
      (∀ p ∈ S, (S.foldl (fire now) acc).1.heap p = (acc.1.heap p).map (fired now)) ∧
      ∀ p, p ∉ S → (S.foldl (fire now) acc).1.heap p = acc.1.heap p := by
  induction S generalizing acc with
  | nil => simp
  | cons p S ih =>
    obtain ⟨hpS, hS'⟩ := List.nodup_cons.mp hS
    obtain ⟨t, ht⟩ := Option.isSome_iff_exists.mp (halloc p List.mem_cons_self)
    have hother : ∀ q ∈ S, (fire now acc p).1.heap q = acc.1.heap q :=
      fun q hq => heap_fire_ne now acc fun heq => hpS (heq ▸ hq)
    obtain ⟨hout, hin, hframe⟩ := @ih (fire now acc p) hS'
      fun q hq => by rw [hother q hq]; exact halloc q (List.mem_cons_of_mem p hq)
    rw [List.foldl_cons]
    refine ⟨?_, fun q hq => ?_, fun q hq => ?_⟩
    · have hsame : S.map (fire now acc p).1.callbackOf = S.map acc.1.callbackOf :=
        List.map_congr_left fun q hq => congrArg (fun o => o.bind Timer.cb) (hother q hq)
      rw [hout, hsame, fire_eq ht, List.map_cons, callbackOf, ht, List.append_assoc]
      rfl
    · rcases List.mem_cons.mp hq with rfl | hmem
      · rw [hframe q hpS, heap_fire_self ht, ht]
        rfl
      · rw [hin q hmem, hother q hmem]
    · obtain ⟨hqp, hqS⟩ := not_or.mp (mt List.mem_cons.mpr hq)
      rw [hframe q hqS, heap_fire_ne now acc hqp]

/-- One turn of the loop adds nothing but a recurring timer. -/
theorem mem_timers_fire {acc : TimerManager W C × List (Option (TimerCallback W C))}
    (hq : q ∈ (fire now acc p).1.timers) : q ∈ acc.1.timers ∨
      q = p ∧ ∃ t, acc.1.heap p = some t ∧ t.recurring = true := by
  cases ht : acc.1.heap p with
  | none =>
    simp only [fire, ht] at hq
    exact Or.inl hq
  | some t =>
    rw [fire_eq ht] at hq
    dsimp only at hq
    split at hq
    · rename_i hrecurring
      rcases OrderedList.eq_or_mem_of_mem_insert hq with rfl | hold
      · exact Or.inr ⟨rfl, t, rfl, hrecurring⟩
      · exact Or.inl hold
    · exact Or.inl hq

/-- One turn of the loop removes nothing. -/
theorem mem_timers_fire_of_mem {acc : TimerManager W C × List (Option (TimerCallback W C))}
    (hq : q ∈ acc.1.timers) : q ∈ (fire now acc p).1.timers := by
  unfold fire
  split
  · exact hq
  · dsimp only
    split
    · exact OrderedList.mem_insert_of_mem hq
    · exact hq

/-- The loop adds nothing but recurring timers and removes nothing. -/
theorem mem_timers_foldFire (now q : ℕ) (acc : TimerManager W C × List (Option (TimerCallback W C))) (hS : S.Nodup) :
    (q ∈ (S.foldl (fire now) acc).1.timers → q ∈ acc.1.timers ∨
      q ∈ S ∧ ∃ t, acc.1.heap q = some t ∧ t.recurring = true) ∧
    (q ∈ acc.1.timers → q ∈ (S.foldl (fire now) acc).1.timers) := by
  induction S generalizing acc with
  | nil => exact ⟨Or.inl, id⟩
  | cons p S ih =>
    obtain ⟨hpS, hS'⟩ := List.nodup_cons.mp hS
    obtain ⟨hadd, hkeep⟩ := @ih (fire now acc p) hS'
    refine ⟨fun hq => ?_, fun hq => hkeep (mem_timers_fire_of_mem hq)⟩
    rcases hadd hq with hfire | ⟨hmem, t, ht, hrecurring⟩
    · rcases mem_timers_fire hfire with hold | ⟨rfl, t, ht, hrecurring⟩
      · exact Or.inl hold
      · exact Or.inr ⟨List.mem_cons_self, t, ht, hrecurring⟩
    · have hqp : q ≠ p := fun heq => hpS (heq ▸ hmem)
      rw [heap_fire_ne now acc hqp] at ht
      exact Or.inr ⟨List.mem_cons_of_mem p hmem, t, ht, hrecurring⟩

/-- One turn of the loop releases the timer it handles. -/
theorem Shape.fire {acc : TimerManager W C × List (Option (TimerCallback W C))} (h : Shape acc.1 (p :: S)) :
    Shape (fire now acc p).1 S := by
  have hp : p ∉ acc.1.timers := h.absent p List.mem_cons_self
  have hpS : p ∉ S := (List.nodup_cons.mp h.nodup).1
  cases ht : acc.1.heap p with
  | none =>
    simp only [TimerManager.fire, ht]
    exact h.forget
  | some t =>
    rw [fire_eq ht]
    dsimp only
    split
    · exact h.forget.arm hp hpS
    · exact h.forget.store hp

/-- What it means that a timer is armed again at zero. -/
theorem rearmsAtZero_iff : m.rearmsAtZero now p = true ↔
    ∃ t, m.heap p = some t ∧ t.recurring = true ∧ addU64 now t.ms = 0 := by
  simp [rearmsAtZero, Option.any_eq_true]

/-- A timer outside the set is inserted unless it and a member have the deadline zero. -/
theorem Shape.mem_insertTimer_iff (h : Shape m S) (hp : p ∉ m.timers) :
    p ∈ (m.insertTimer p).timers ↔ m.nextOf p ≠ 0 ∨ ∀ y ∈ m.timers, m.nextOf y ≠ 0 := by
  refine ⟨fun hin => ?_, fun hpos => mem_insertTimer_self hp fun y hy => hpos.imp_right fun hall => hall y hy⟩
  by_contra hzero
  simp only [not_or, not_not, not_forall] at hzero
  obtain ⟨hzero, q, hq, hqzero⟩ := hzero
  have hsorted := h.sorted
  change p ∈ OrderedList.insert m.less p m.timers at hin
  cases htimers : m.timers with
  | nil => simp [htimers] at hq
  | cons a rest =>
    rw [htimers] at hsorted hq hp hin
    have ha : m.nextOf a = 0 := by
      rcases List.mem_cons.mp hq with rfl | hrest
      · exact hqzero
      · have hle := nextOf_le_of_less (List.rel_of_pairwise_cons hsorted hrest)
        omega
    have hless : m.less a p = false ∧ m.less p a = false := by
      simp [less, timerComparator, key, ha, hzero]
    rw [OrderedList.insert, if_neg (by simp [hless.1]), if_neg (by simp [hless.2])] at hin
    exact hp hin

/-- One turn of the loop brings a recurring timer back unless it and a member get the deadline zero. -/
theorem Shape.mem_fire_iff {acc : TimerManager W C × List (Option (TimerCallback W C))} (h : Shape acc.1 (p :: S))
    (ht : acc.1.heap p = some t) (hrecurring : t.recurring = true) :
    p ∈ (TimerManager.fire now acc p).1.timers ↔
      addU64 now t.ms ≠ 0 ∨ ∀ y ∈ acc.1.timers, acc.1.nextOf y ≠ 0 := by
  have hp : p ∉ acc.1.timers := h.absent p List.mem_cons_self
  have hne : ∀ y ∈ acc.1.timers, y ≠ p := fun y hy heq => hp (heq ▸ hy)
  rw [fire_eq ht, if_pos hrecurring, (h.forget.store hp).mem_insertTimer_iff hp, nextOf_store_self, fired,
    if_pos hrecurring]
  refine or_congr_right (forall₂_congr fun y hy => ?_)
  rw [nextOf_store_ne (hne y hy)]

/-- The loop brings a recurring timer back unless it gets the deadline zero, and a member of the set has it
already or an earlier timer gets it too. -/
theorem Shape.mem_foldFire_iff {acc : TimerManager W C × List (Option (TimerCallback W C))} (h : Shape acc.1 S)
    (hp : p ∈ S) (ht : acc.1.heap p = some t) (hrecurring : t.recurring = true) :
    p ∈ (S.foldl (TimerManager.fire now) acc).1.timers ↔ addU64 now t.ms ≠ 0 ∨
      (∀ y ∈ acc.1.timers, acc.1.nextOf y ≠ 0) ∧ S.find? (acc.1.rearmsAtZero now) = some p := by
  induction S generalizing acc with
  | nil => cases hp
  | cons q S ih =>
    obtain ⟨hqS, hS⟩ := List.nodup_cons.mp h.nodup
    have hq : q ∉ acc.1.timers := h.absent q List.mem_cons_self
    have hloop := mem_timers_foldFire now p (TimerManager.fire now acc q) hS
    rw [List.foldl_cons]
    rcases List.mem_cons.mp hp with rfl | hmem
    · have hback : p ∈ (S.foldl (TimerManager.fire now) (TimerManager.fire now acc p)).1.timers ↔
          p ∈ (TimerManager.fire now acc p).1.timers :=
        ⟨fun hin => (hloop.1 hin).resolve_right fun hin' => hqS hin'.1, hloop.2⟩
      rw [hback, h.mem_fire_iff ht hrecurring]
      by_cases hzero : addU64 now t.ms = 0
      · have hfirst : (p :: S).find? (acc.1.rearmsAtZero now) = some p :=
          List.find?_cons_of_pos (rearmsAtZero_iff.mpr ⟨t, ht, hrecurring, hzero⟩)
        rw [hfirst, and_iff_left rfl]
      · exact iff_of_true (Or.inl hzero) (Or.inl hzero)
    · have hother : ∀ r, r ≠ q → (TimerManager.fire now acc q).1.heap r = acc.1.heap r :=
        fun r hr => heap_fire_ne now acc hr
      have hne : ∀ r ∈ S, r ≠ q := fun r hr heq => hqS (heq ▸ hr)
      have hmembers : ∀ y ∈ acc.1.timers, y ∈ (TimerManager.fire now acc q).1.timers ∧
          (TimerManager.fire now acc q).1.nextOf y = acc.1.nextOf y := fun y hy => by
        refine ⟨mem_timers_fire_of_mem hy, ?_⟩
        rw [nextOf, hother y fun heq => hq (heq ▸ hy), nextOf]
      have hsame : S.find? ((TimerManager.fire now acc q).1.rearmsAtZero now) =
          S.find? (acc.1.rearmsAtZero now) :=
        List.find?_congr fun r hr => by rw [rearmsAtZero, rearmsAtZero, hother r (hne r hr)]
      rw [ih h.fire hmem (by rw [hother p (hne p hmem)]; exact ht), hsame]
      refine or_congr_right ?_
      cases hzero : acc.1.rearmsAtZero now q with
      | true =>
        -- The timer in front of the others has the deadline zero itself, or a member has it already.
        obtain ⟨u, hu, hurec, husum⟩ := rearmsAtZero_iff.mp hzero
        refine iff_of_false (fun hall => ?_) fun hfirst => ?_
        · have hqout : q ∉ (TimerManager.fire now acc q).1.timers := fun hin => by
            refine hall.1 q hin ?_
            rw [nextOf, heap_fire_self hu, fired, if_pos hurec]
            exact husum
          refine hqout ((h.mem_fire_iff hu hurec).mpr (Or.inr fun y hy => ?_))
          rw [← (hmembers y hy).2]
          exact hall.1 y (hmembers y hy).1
        · rw [List.find?_cons_of_pos hzero] at hfirst
          exact hne p hmem (Option.some.inj hfirst.2).symm
      | false =>
        have hskip : ¬acc.1.rearmsAtZero now q = true := by simp [hzero]
        rw [List.find?_cons_of_neg hskip]
        refine and_congr_left' ⟨fun hall y hy => ?_, fun hall y hy => ?_⟩
        · rw [← (hmembers y hy).2]
          exact hall y (hmembers y hy).1
        · rcases mem_timers_fire hy with hold | ⟨rfl, u, hu, hurec⟩
          · rw [(hmembers y hold).2]
            exact hall y hold
          · rw [nextOf, heap_fire_self hu, fired, if_pos hurec]
            exact fun husum => hskip (rearmsAtZero_iff.mpr ⟨u, hu, hurec, husum⟩)

/-- The loop releases all timers. -/
theorem Shape.foldFire {acc : TimerManager W C × List (Option (TimerCallback W C))} (h : Shape acc.1 S) :
    Shape (S.foldl (TimerManager.fire now) acc).1 [] := by
  induction S generalizing acc with
  | nil => exact h
  | cons p S ih => exact ih h.fire

/-- The late timers are held, and the rest of the set is sorted. -/
theorem Shape.takeLate (h : Shape m []) {rest : List ℕ} (previousTime : ℕ)
    (hsplit : m.late now ++ rest = m.timers) :
    Shape { m with previousTime := previousTime, timers := rest } (m.late now) := by
  have hnodup := h.timers_nodup
  rw [← hsplit, List.nodup_append] at hnodup
  refine ⟨?_, fun q hq => h.allocated q ?_, hnodup.1, fun q hq hmem => hnodup.2.2 q hq q hmem rfl⟩
  · exact h.sorted.sublist (hsplit ▸ List.sublist_append_right _ _)
  · rw [← hsplit]
    exact List.mem_append_right _ hq

/-- The late timers are in the set. -/
theorem mem_timers_of_mem_late (hp : p ∈ m.late now) : p ∈ m.timers := by
  unfold late at hp
  split at hp
  · exact hp
  · exact List.mem_of_mem_filter hp

/-- `listExpireCb` keeps the set in order. -/
theorem Shape.listExpireCb (h : Shape m []) (now nowPtr : ℕ) : Shape (m.listExpireCb now nowPtr).1 [] := by
  obtain ⟨rest, previousTime, hsplit, _, heq⟩ := h.listExpireCb_eq now nowPtr
  rw [heq]
  exact (h.takeLate previousTime hsplit).foldFire

/-- The callbacks that `listExpireCb` hands out, and what becomes of the objects. -/
theorem Shape.listExpireCb_heap (h : Shape m []) (now nowPtr : ℕ) :
    (m.listExpireCb now nowPtr).2 = (m.late now).map m.callbackOf ∧
      (∀ p ∈ m.late now, (m.listExpireCb now nowPtr).1.heap p = (m.heap p).map (fired now)) ∧
      ∀ p, p ∉ m.late now → (m.listExpireCb now nowPtr).1.heap p = m.heap p := by
  obtain ⟨rest, previousTime, hsplit, _, heq⟩ := h.listExpireCb_eq now nowPtr
  rw [heq]
  exact foldFire_heap
    (h.takeLate previousTime hsplit).nodup fun p hp => h.allocated p (mem_timers_of_mem_late hp)

/-- The timers that are in the set after `listExpireCb`: those that were not late, and recurring ones. -/
theorem Shape.mem_timers_listExpireCb (h : Shape m []) (now nowPtr p : ℕ) :
    (p ∈ (m.listExpireCb now nowPtr).1.timers → p ∈ m.timers ∧ p ∉ m.late now ∨
      p ∈ m.late now ∧ ∃ t, m.heap p = some t ∧ t.recurring = true) ∧
    (p ∈ m.timers → p ∉ m.late now → p ∈ (m.listExpireCb now nowPtr).1.timers) := by
  obtain ⟨rest, previousTime, hsplit, _, heq⟩ := h.listExpireCb_eq now nowPtr
  have hheld := h.takeLate previousTime hsplit
  have htimers := mem_timers_foldFire now p ({ m with previousTime := previousTime, timers := rest }, []) hheld.nodup
  rw [← heq] at htimers
  refine ⟨fun hin => ?_, fun hmem hlate => htimers.2 ?_⟩
  · rcases htimers.1 hin with hrest | hlate
    · refine Or.inl ⟨?_, fun hlate => hheld.absent p hlate hrest⟩
      rw [← hsplit]
      exact List.mem_append_right _ hrest
    · exact Or.inr hlate
  · rw [← hsplit] at hmem
    exact (List.mem_append.mp hmem).resolve_left hlate

/-- Late recurring timers come back, but of those that get the deadline zero only the first. -/
theorem Shape.mem_timers_recurring_iff (h : Shape m []) (nowPtr : ℕ) (hp : p ∈ m.late now)
    (ht : m.heap p = some t) (hrecurring : t.recurring = true) :
    p ∈ (m.listExpireCb now nowPtr).1.timers ↔
      addU64 now t.ms ≠ 0 ∨ (m.late now).find? (m.rearmsAtZero now) = some p := by
  obtain ⟨rest, previousTime, hsplit, hfuture, heq⟩ := h.listExpireCb_eq now nowPtr
  rw [heq, (h.takeLate previousTime hsplit).mem_foldFire_iff hp ht hrecurring]
  refine or_congr_right (and_iff_right fun y hy => ?_)
  have hlater := hfuture y hy
  change m.nextOf y ≠ 0
  omega

/-- Late recurring timers come back, as long as no two of them get the deadline zero. -/
theorem Shape.mem_timers_of_recurring (h : Shape m []) (nowPtr : ℕ) (hapart : m.Apart now)
    (hp : p ∈ m.late now) (ht : m.heap p = some t) (hrecurring : t.recurring = true) :
    p ∈ (m.listExpireCb now nowPtr).1.timers := by
  rw [h.mem_timers_recurring_iff nowPtr hp ht hrecurring, or_iff_not_imp_left, not_not]
  intro hzero
  have hself : m.rearmsAtZero now p = true := rearmsAtZero_iff.mpr ⟨t, ht, hrecurring, hzero⟩
  obtain ⟨q, hq⟩ := Option.isSome_iff_exists.mp (List.find?_isSome.mpr ⟨p, hp, hself⟩)
  obtain ⟨u, hu, hurec, husum⟩ := rearmsAtZero_iff.mp (List.find?_some hq)
  rw [hq, hapart p hp q (List.mem_of_find?_eq_some hq) t u ht hu hrecurring hurec hzero husum]

/-- `listExpireCb` splits the set. -/
theorem Shape.splits (h : Shape m []) (now nowPtr : ℕ) : Splits m now nowPtr := by
  obtain ⟨hout, hin, hframe⟩ := h.listExpireCb_heap now nowPtr
  refine ⟨hout, fun p hp t ht hrecurring => ⟨fun hmem => ?_, ?_⟩,
    fun p hp t ht hrecurring => ⟨?_, h.mem_timers_recurring_iff nowPtr hp ht hrecurring⟩,
    fun p hp => ⟨⟨fun hmem => ?_, fun hmem => ?_⟩, hframe p hp⟩, h.listExpireCb now nowPtr⟩
  · rcases (h.mem_timers_listExpireCb now nowPtr p).1 hmem with ⟨_, hlate⟩ | ⟨_, u, hu, hurec⟩
    · exact hlate hp
    · obtain rfl : t = u := Option.some.inj (ht.symm.trans hu)
      rw [hrecurring] at hurec
      cases hurec
  · rw [hin p hp, ht, Option.map_some, fired, hrecurring]
    rfl
  · rw [hin p hp, ht, Option.map_some, fired, if_pos hrecurring]
  · rcases (h.mem_timers_listExpireCb now nowPtr p).1 hmem with ⟨hold, _⟩ | ⟨hlate, _⟩
    · exact hold
    · exact absurd hlate hp
  · exact (h.mem_timers_listExpireCb now nowPtr p).2 hmem hp

/-! ## Runs -/

/-- An operation of the manager, or a new timer with an empty `std::function`. -/
inductive TimerCall (W C : Type*) where
  | op (op : Op W C)
  | addEmpty (p now ms : ℕ) (recurring : Bool)

/-- `addTimer` with an empty function. -/
def addEmpty (m : TimerManager W C) (p now ms : ℕ) (recurring : Bool) : TimerManager W C × Bool :=
  (m.store p ⟨recurring, ms, addU64 now ms, none⟩).addTimerLocked p

/-- Perform a call. -/
def call (m : TimerManager W C) : TimerCall W C → Except Fault (TimerManager W C × Bool)
  | .op op => m.apply op
  | .addEmpty p now ms recurring => .ok (m.addEmpty p now ms recurring)

/-- New objects get unused addresses, and operations act on existing timers. -/
def CallAddressed (m : TimerManager W C) : TimerCall W C → Prop
  | .op op => Addressed m op
  | .addEmpty p _ _ _ => m.heap p = none

/-- Adding a timer at an unused address keeps the set in order. -/
theorem Shape.add (h : Shape m []) (hp : m.heap p = none) : Shape ((m.store p t).addTimerLocked p).1 [] := by
  refine (h.arm (fun hmem => ?_) List.not_mem_nil).of_eq rfl rfl
  have halloc := h.allocated p hmem
  rw [hp] at halloc
  cases halloc

/-- What a call can do to an existing timer: it stays recurring or not, and keeps its callback or loses it. -/
def Weakens (m m' : TimerManager W C) : Prop :=
  ∀ q u, m.heap q = some u → ∃ u', m'.heap q = some u' ∧ u'.recurring = u.recurring ∧
    (u'.cb = u.cb ∨ u'.cb = none)

/-- The same objects. -/
theorem Weakens.of_heap_eq {m' : TimerManager W C} (h : m'.heap = m.heap) : Weakens m m' := by
  intro q u hu
  exact ⟨u, by rw [h, hu], rfl, Or.inl rfl⟩

/-- A new object at an unused address. -/
theorem Weakens.of_fresh {m' : TimerManager W C} (hp : m.heap p = none) (h : m'.heap = (m.store p t).heap) :
    Weakens m m' := by
  intro q u hu
  have hqp : q ≠ p := by
    rintro rfl
    rw [hp] at hu
    cases hu
  exact ⟨u, by rw [h, heap_store_ne hqp, hu], rfl, Or.inl rfl⟩

/-- A changed object. -/
theorem Weakens.of_store {m' : TimerManager W C} {t' : Timer W C} (hp : m.heap p = some t)
    (h : m'.heap = (m.store p t').heap) (hrecurring : t'.recurring = t.recurring)
    (hcb : t'.cb = t.cb ∨ t'.cb = none) : Weakens m m' := by
  intro q u hu
  by_cases hqp : q = p
  · subst hqp
    obtain rfl : t = u := Option.some.inj (hp.symm.trans hu)
    exact ⟨t', by rw [h, heap_store_self], hrecurring, hcb⟩
  · exact ⟨u, by rw [h, heap_store_ne hqp, hu], rfl, Or.inl rfl⟩

/-- An expired timer. -/
theorem fired_weakens (now : ℕ) (t : Timer W C) :
    (fired now t).recurring = t.recurring ∧ ((fired now t).cb = t.cb ∨ (fired now t).cb = none) := by
  unfold fired
  split
  · exact ⟨rfl, Or.inl rfl⟩
  · exact ⟨rfl, Or.inr rfl⟩

/-- `cancel` keeps the set in order. -/
theorem Shape.cancel (h : Shape m []) {r : TimerManager W C × Bool} (hr : m.cancel p = .ok r) :
    Shape r.1 [] ∧ Weakens m r.1 := by
  rcases cancel_cases hr with ⟨rfl, _⟩ | ⟨t, it, ht, _, hfind, rfl⟩
  · exact ⟨h, Weakens.of_heap_eq rfl⟩
  · have hless : (m.store p { t with cb := none }).less = m.less :=
      less_store_of_next_eq (by simp [nextOf, ht])
    refine ⟨⟨?_, fun q hq => ?_, List.nodup_nil, by simp⟩, Weakens.of_store ht rfl rfl (Or.inr rfl)⟩
    · change OrderedList.Sorted (m.store p { t with cb := none }).less (m.timers.erase it)
      rw [hless]
      exact h.sorted.erase it
    · have halloc := h.allocated q (List.mem_of_mem_erase hq)
      change ((m.store p { t with cb := none }).heap q).isSome = true
      by_cases hqp : q = p
      · rw [hqp, heap_store_self]
        rfl
      · rwa [heap_store_ne hqp]

/-- Taking out what lookup found and inserting the timer again. -/
theorem Shape.moved (h : Shape m []) {it : ℕ} (hfind : m.findTimer p = some it) :
    Shape (((m.eraseTimer it).store p t).insertTimer p) [] :=
  (h.eraseTimer it).arm (h.findTimer_spec hfind).2.2 List.not_mem_nil

/-- `refresh` keeps the set in order. -/
theorem Shape.refresh (h : Shape m []) (p now : ℕ) :
    Shape (m.refresh p now).1 [] ∧ Weakens m (m.refresh p now).1 := by
  rcases m.refresh_cases p now with hsame | ⟨t, it, ht, _, hfind, hmoved⟩
  · rw [hsame]
    exact ⟨h, Weakens.of_heap_eq rfl⟩
  · rw [hmoved]
    exact ⟨h.moved hfind, Weakens.of_store ht rfl rfl (Or.inl rfl)⟩

/-- `reset` keeps the set in order. -/
theorem Shape.reset (h : Shape m []) (p now ms : ℕ) (fromNow : Bool) :
    Shape (m.reset p now ms fromNow).1 [] ∧ Weakens m (m.reset p now ms fromNow).1 := by
  rcases m.reset_cases p now ms fromNow with ⟨result, hsame⟩ | ⟨t, it, ht, _, hfind, hmoved⟩
  · rw [hsame]
    exact ⟨h, Weakens.of_heap_eq rfl⟩
  · rw [hmoved]
    exact ⟨(h.moved hfind).of_eq rfl rfl, Weakens.of_store ht rfl rfl (Or.inl rfl)⟩

/-- `listExpireCb` only weakens the existing timers. -/
theorem Shape.weakens_listExpireCb (h : Shape m []) (now nowPtr : ℕ) :
    Weakens m (m.listExpireCb now nowPtr).1 := by
  obtain ⟨_, hin, hframe⟩ := h.listExpireCb_heap now nowPtr
  intro q u hu
  by_cases hq : q ∈ m.late now
  · obtain ⟨hrecurring, hcb⟩ := fired_weakens now u
    exact ⟨fired now u, by rw [hin q hq, hu]; rfl, hrecurring, hcb⟩
  · exact ⟨u, by rw [hframe q hq, hu], rfl, Or.inl rfl⟩

/-- Every call keeps the set in order and only weakens the existing timers. -/
theorem Shape.call (h : Shape m []) {c : TimerCall W C} (haddr : CallAddressed m c)
    {r : TimerManager W C × Bool} (hr : m.call c = .ok r) : Shape r.1 [] ∧ Weakens m r.1 := by
  cases c with
  | addEmpty p now ms recurring =>
    cases hr
    exact ⟨h.add haddr, Weakens.of_fresh haddr rfl⟩
  | op op =>
    cases op with
    | addTimer p now ms cb recurring =>
      cases hr
      exact ⟨h.add haddr, Weakens.of_fresh haddr rfl⟩
    | addConditionTimer p now ms cb weakCond recurring =>
      cases hr
      exact ⟨h.add haddr, Weakens.of_fresh haddr rfl⟩
    | cancel p =>
      obtain ⟨canceled, hcancel, rfl⟩ := Except.exists_of_map_eq_ok hr
      exact h.cancel (r := canceled) hcancel
    | refresh p now =>
      cases hr
      exact h.refresh p now
    | reset p now ms fromNow =>
      cases hr
      exact h.reset p now ms fromNow
    | listExpireCb now nowPtr =>
      cases hr
      exact ⟨h.listExpireCb now nowPtr, h.weakens_listExpireCb now nowPtr⟩
    | getNextTimer now =>
      cases hr
      exact ⟨h.of_eq rfl rfl, Weakens.of_heap_eq rfl⟩

/-- The timers whose callbacks `listExpireCb` hands out. -/
def delivers (m : TimerManager W C) (now : ℕ) : List ℕ :=
  (m.late now).filter fun p => (m.callbackOf p).isSome

/-- A manager with the timers that `cancel` reported to be canceled, and those whose callbacks have been
handed out. -/
structure Deliveries (W C : Type*) where
  manager : TimerManager W C
  canceled : List ℕ
  delivered : List ℕ

namespace Deliveries

/-- Before the first call. -/
def start : Deliveries W C := ⟨TimerManager.empty, [], []⟩

/-- Perform a call. -/
def step (s : Deliveries W C) : TimerCall W C → Except Fault (Deliveries W C)
  | .op (.cancel p) => (s.manager.cancel p).map fun r =>
      { s with manager := r.1, canceled := if r.2 then s.canceled ++ [p] else s.canceled }
  | .op (.listExpireCb now nowPtr) => .ok { s with
      manager := (s.manager.listExpireCb now nowPtr).1
      delivered := s.delivered ++ s.manager.delivers now }
  | c => (s.manager.call c).map fun r => { s with manager := r.1 }

/-- A callback of a timer that is not recurring has been handed out at most once, no callback of a
canceled timer will be, and what `listExpireCb` hands out are the callbacks of the timers it delivers. -/
structure AtMostOnce (s : Deliveries W C) : Prop where
  once : ∀ p t, s.manager.heap p = some t → t.recurring = false → s.delivered.count p ≤ 1
  canceled : ∀ p ∈ s.canceled, ∀ now, p ∉ s.manager.delivers now
  handed : ∀ now nowPtr, (s.manager.listExpireCb now nowPtr).2.filterMap id =
    (s.manager.delivers now).filterMap s.manager.callbackOf

/-- The invariant: canceled timers and delivered ones that are not recurring have no callback. -/
structure Spent (s : Deliveries W C) : Prop where
  shape : Shape s.manager []
  canceled : ∀ p ∈ s.canceled, ∃ t, s.manager.heap p = some t ∧ t.cb = none
  known : ∀ p ∈ s.delivered, (s.manager.heap p).isSome = true
  once : ∀ p t, s.manager.heap p = some t → t.recurring = false →
    s.delivered.count p ≤ 1 ∧ (p ∈ s.delivered → t.cb = none)

variable {s s' : Deliveries W C}

/-- What a call that hands nothing out leaves of the invariant. -/
theorem Spent.weaken (h : Spent s) {m' : TimerManager W C} (hshape : Shape m' []) (hweak : Weakens s.manager m') :
    Spent { s with manager := m' } := by
  refine ⟨hshape, fun p hp => ?_, fun p hp => ?_, fun p t ht hrecurring => ?_⟩
  · obtain ⟨u, hu, hcb⟩ := h.canceled p hp
    obtain ⟨u', hu', _, hsame | hnone⟩ := hweak p u hu
    · exact ⟨u', hu', hsame.trans hcb⟩
    · exact ⟨u', hu', hnone⟩
  · obtain ⟨u, hu⟩ := Option.isSome_iff_exists.mp (h.known p hp)
    obtain ⟨u', hu', _⟩ := hweak p u hu
    exact Option.isSome_iff_exists.mpr ⟨u', hu'⟩
  · by_cases hp : p ∈ s.delivered
    · obtain ⟨u, hu⟩ := Option.isSome_iff_exists.mp (h.known p hp)
      obtain ⟨u', hu', hrec, hcb⟩ := hweak p u hu
      obtain rfl : u' = t := Option.some.inj (hu'.symm.trans ht)
      obtain ⟨hcount, hnone⟩ := h.once p u hu (hrec.symm.trans hrecurring)
      refine ⟨hcount, fun _ => ?_⟩
      rcases hcb with hsame | hnone'
      · exact hsame.trans (hnone hp)
      · exact hnone'
    · exact ⟨(List.count_eq_zero_of_not_mem hp).le.trans (Nat.zero_le 1), fun hmem => absurd hmem hp⟩

/-- A timer that `cancel` reports to be canceled has no callback. -/
theorem cb_of_cancel {m : TimerManager W C} {r : TimerManager W C × Bool} (hr : m.cancel p = .ok r)
    (htrue : r.2 = true) : ∃ t, r.1.heap p = some t ∧ t.cb = none := by
  rcases cancel_cases hr with ⟨rfl, _⟩ | ⟨t, it, _, _, _, rfl⟩
  · cases htrue
  · exact ⟨_, heap_store_self, rfl⟩

/-- Only timers with a callback are delivered, and each of them once. -/
theorem Spent.expire (h : Spent s) (now nowPtr : ℕ) : Spent { s with
    manager := (s.manager.listExpireCb now nowPtr).1
    delivered := s.delivered ++ s.manager.delivers now } := by
  obtain ⟨_, hin, hframe⟩ := h.shape.listExpireCb_heap now nowPtr
  have hweak := h.weaken (h.shape.listExpireCb now nowPtr) (h.shape.weakens_listExpireCb now nowPtr)
  have hlate : ∀ p ∈ s.manager.delivers now, p ∈ s.manager.late now ∧ (s.manager.callbackOf p).isSome = true :=
    fun p hp => List.mem_filter.mp hp
  have halloc : ∀ p ∈ s.manager.late now, (s.manager.heap p).isSome = true :=
    fun p hp => h.shape.allocated p (mem_timers_of_mem_late hp)
  have hnodup : (s.manager.delivers now).Nodup := by
    obtain ⟨rest, _, hsplit, _⟩ := h.shape.listExpireCb_eq now nowPtr
    exact (h.shape.takeLate 0 hsplit).nodup.filter _
  refine ⟨hweak.shape, hweak.canceled, fun p hp => ?_, fun p t ht hrecurring => ?_⟩
  · rcases List.mem_append.mp hp with hold | hnew
    · exact hweak.known p hold
    · have hmem := (hlate p hnew).1
      obtain ⟨u, hu⟩ := Option.isSome_iff_exists.mp (halloc p hmem)
      exact Option.isSome_iff_exists.mpr ⟨_, (hin p hmem).trans (congrArg _ hu)⟩
  · obtain ⟨hcount, hnone⟩ := hweak.once p t ht hrecurring
    by_cases hp : p ∈ s.manager.delivers now
    · obtain ⟨hmem, hcb⟩ := hlate p hp
      obtain ⟨u, hu⟩ := Option.isSome_iff_exists.mp (halloc p hmem)
      have hfired : fired now u = t := by
        have hheap := (hin p hmem).symm.trans ht
        rw [hu] at hheap
        exact Option.some.inj hheap
      have hurec : u.recurring = false := by
        rw [← (fired_weakens now u).1, hfired]
        exact hrecurring
      have hfresh : p ∉ s.delivered := by
        intro hdelivered
        rw [callbackOf, hu] at hcb
        change u.cb.isSome = true at hcb
        rw [(h.once p u hu hurec).2 hdelivered] at hcb
        cases hcb
      refine ⟨?_, fun _ => ?_⟩
      · rw [List.count_append, List.count_eq_zero_of_not_mem hfresh, Nat.zero_add]
        exact List.nodup_iff_count_le_one.mp hnodup p
      · rw [← hfired, fired, hurec]
        rfl
    · refine ⟨?_, fun hmem => ?_⟩
      · rw [List.count_append, List.count_eq_zero_of_not_mem hp, Nat.add_zero]
        exact hcount
      · exact hnone ((List.mem_append.mp hmem).resolve_right hp)

/-- Every call keeps the invariant. -/
theorem Spent.step (h : Spent s) {c : TimerCall W C} (haddr : CallAddressed s.manager c)
    (hok : s.step c = .ok s') : Spent s' := by
  have hcall : ∀ r, s.manager.call c = .ok r → Spent { s with manager := r.1 } := by
    intro r hr
    obtain ⟨hshape, hweak⟩ := h.shape.call haddr hr
    exact h.weaken hshape hweak
  have hplain : (s.manager.call c).map (fun r => { s with manager := r.1 }) = .ok s' → Spent s' := by
    intro hmap
    obtain ⟨r, hr, rfl⟩ := Except.exists_of_map_eq_ok hmap
    exact hcall r hr
  cases c with
  | addEmpty p now ms recurring => exact hplain hok
  | op op =>
    cases op with
    | cancel p =>
      obtain ⟨r, hcancel, rfl⟩ := Except.exists_of_map_eq_ok hok
      have hspent := hcall (r.1, false) (by rw [TimerManager.call, apply, hcancel]; rfl)
      refine ⟨hspent.shape, fun q hq => ?_, hspent.known, hspent.once⟩
      dsimp only at hq
      split at hq
      · rename_i htrue
        rcases List.mem_append.mp hq with hold | hnew
        · exact hspent.canceled q hold
        · rw [List.mem_singleton.mp hnew]
          exact cb_of_cancel hcancel htrue
      · exact hspent.canceled q hq
    | listExpireCb now nowPtr =>
      cases hok
      exact h.expire now nowPtr
    | addTimer p now ms cb recurring => exact hplain hok
    | addConditionTimer p now ms cb weakCond recurring => exact hplain hok
    | refresh p now => exact hplain hok
    | reset p now ms fromNow => exact hplain hok
    | getNextTimer now => exact hplain hok

/-- The invariant says what has been handed out. -/
theorem Spent.atMostOnce (h : Spent s) : AtMostOnce s where
  once p t ht hrecurring := (h.once p t ht hrecurring).1
  canceled p hp now hmem := by
    obtain ⟨t, ht, hnone⟩ := h.canceled p hp
    have hcb := (List.mem_filter.mp hmem).2
    rw [callbackOf, ht] at hcb
    change t.cb.isSome = true at hcb
    rw [hnone] at hcb
    cases hcb
  handed now nowPtr := by
    rw [(h.shape.listExpireCb_heap now nowPtr).1, delivers]
    induction s.manager.late now with
    | nil => rfl
    | cons p rest ih =>
      cases hcb : s.manager.callbackOf p with
      | none => simpa [hcb] using ih
      | some cb => simpa [hcb] using ih

end Deliveries

/-- In every state whose set is in order, and for every clock reading, `listExpireCb` splits it; and in every run a
callback of a timer that is not recurring is handed out at most once, and never after its cancellation. -/
theorem listExpireCb_exact :
    (∀ (m : TimerManager W C) (now nowPtr : ℕ), Shape m [] → Splits m now nowPtr) ∧
    ∀ s : Deliveries W C, Runs.Reaches Deliveries.step (fun s c => CallAddressed s.manager c)
      Deliveries.start s → s.AtMostOnce := by
  refine ⟨fun m now nowPtr h => h.splits now nowPtr, fun s h => ?_⟩
  refine Deliveries.Spent.atMostOnce (h.invariant Deliveries.Spent ⟨Shape.empty, ?_, ?_, ?_⟩
    fun s c s' hs haddr hok => hs.step haddr hok)
  · exact fun p hp => absurd hp List.not_mem_nil
  · exact fun p hp => absurd hp List.not_mem_nil
  · intro p t ht
    cases ht

/-- A timer that is not recurring expires together with a recurring one, and its callback is handed out. -/
theorem listExpireCb_exact_oneShot :
    ∃ (m : TimerManager Unit Unit) (s : Deliveries Unit Unit), m.timers = [3, 4] ∧ Splits m 20 9 ∧
      s.delivered = [3, 4] ∧ s.AtMostOnce := by
  have hone : Runs.Reaches Deliveries.step (fun s c => CallAddressed s.manager c)
      (Deliveries.start : Deliveries Unit Unit) _ := .next .start (.op (.addTimer 3 5 10 () false)) rfl rfl
  have htwo := hone.next (.op (.addTimer 4 5 12 () true)) rfl rfl
  have hexpire := htwo.next (.op (.listExpireCb 20 9)) rfl rfl
  refine ⟨_, _, rfl, listExpireCb_exact.1 _ 20 9 ((Shape.empty.add (p := 3)
    (t := ⟨false, 10, 15, some (.plain ())⟩) rfl).add (p := 4) (t := ⟨true, 12, 17, some (.plain ())⟩) rfl),
    rfl, listExpireCb_exact.2 _ hexpire⟩

/-- Two recurring timers without an interval, whose deadlines the clock has passed. -/
def twoInstant : TimerManager Unit Unit where
  heap := Function.update (Function.update (fun _ => none) 1 (some ⟨true, 0, 5, some (.plain ())⟩))
    2 (some ⟨true, 0, 7, some (.plain ())⟩)
  timers := [1, 2]
  tickled := false
  previousTime := 4000000

/-- When the clock goes back to zero, the second of the two does not come back. -/
theorem not_splitsExactly_zero : Shape twoInstant [] ∧
    (∀ p ∈ twoInstant.late 0, ∀ t, twoInstant.heap p = some t → t.recurring = true → 0 + t.ms < u64) ∧
    ¬ SplitsExactly twoInstant 0 9 := by
  refine ⟨⟨?_, by decide, List.nodup_nil, by simp⟩, fun p hp t ht _ => ?_, fun h => ?_⟩
  · show List.Pairwise _ _
    decide
  · have hmem : p = 1 ∨ p = 2 := by simpa [twoInstant] using mem_timers_of_mem_late hp
    rcases hmem with rfl | rfl
    · cases ht
      decide
    · cases ht
      decide
  · have hback := (h.recurring 2 (by decide) _ rfl rfl).1
    exact absurd hback (by decide)

end TimerManager

end Bobliew
