import Bobliew.Lib.Runs
import Bobliew.IOManager.Events

/-!
# Bits, slots, the kernel and the counter agree

The invariant of the I/O manager over every interleaving. A bit of `events` is set exactly when
its slot holds a registration, the kernel's interest list shows the same bits, the counter is the
number of set bits, and the history of every slot is well formed, so that a registration is
consumed at most once.

All operations change one context and record what they did. `Progress` collects what such a
change must satisfy while it is being put together from single triggers.
-/

namespace Bobliew

namespace EventMask

/-- Setting a clear bit adds one. -/
theorem card_insert {mask : EventMask} {event : Event} (h : mask.has event = false)
    (hnone : event ≠ .none) : (mask.insert event).card = mask.card + 1 := by
  rcases mask with ⟨r, w⟩
  cases event with
  | none => exact absurd rfl hnone
  | read => simp_all [has, insert, card, Nat.add_comm]
  | write => simp_all [has, insert, card]

/-- Clearing a set bit removes one. -/
theorem card_erase {mask : EventMask} {event : Event} (h : mask.has event = true) :
    (mask.erase event).card + 1 = mask.card := by
  rcases mask with ⟨r, w⟩
  cases event with
  | none => cases h
  | read => simp_all [has, erase, card, Nat.add_comm]
  | write => simp_all [has, erase, card]

/-- Bits other than the one set are unchanged. -/
theorem has_insert (mask : EventMask) {event other : Event} (hnone : event ≠ .none) :
    (mask.insert event).has other = (decide (other = event) || mask.has other) := by
  cases event <;> cases other <;> simp_all [has, insert]

/-- Bits other than the one cleared are unchanged. -/
theorem has_erase (mask : EventMask) (event other : Event) :
    (mask.erase event).has other = (!decide (other = event) && mask.has other) := by
  cases event <;> cases other <;> simp [has, erase]

/-- The event `NONE` is never set. -/
theorem ne_none_of_has {mask : EventMask} {event : Event} (h : mask.has event = true) :
    event ≠ .none := by
  rintro rfl
  cases h

end EventMask

variable {S F C : Type*}

namespace FdContext

variable {ctx : FdContext S F C} {event other : Event}

/-- A set bit means a registration, a clear bit an empty slot. -/
def Ok (ctx : FdContext S F C) : Prop :=
  ∀ event, if ctx.events.has event then (ctx.slot event).Registered else ctx.slot event = .reset

/-- Clear a bit and its slot. -/
def clear (ctx : FdContext S F C) (event : Event) : FdContext S F C :=
  { ctx with events := ctx.events.erase event }.setSlot event .reset

/-- Set a bit and fill its slot. -/
def register (ctx : FdContext S F C) (event : Event) (slot : EventContext S F C) : FdContext S F C :=
  { ctx with events := ctx.events.insert event }.setSlot event slot

/-- Writing a slot does not touch the bits. -/
@[simp] theorem events_setSlot (slot : EventContext S F C) :
    (ctx.setSlot event slot).events = ctx.events := by
  cases event <;> rfl

/-- Reading back the slots after one is written. -/
theorem slot_setSlot (slot : EventContext S F C) (hnone : event ≠ .none) :
    (ctx.setSlot event slot).slot other = if other = event then slot else ctx.slot other := by
  cases event <;> cases other <;> simp_all [setSlot, FdContext.slot]

/-- Changing the bits does not touch the slots. -/
@[simp] theorem slot_with_events (mask : EventMask) :
    ({ ctx with events := mask } : FdContext S F C).slot event = ctx.slot event := by
  cases event <;> rfl

/-- The bits left by `clear`. -/
@[simp] theorem events_clear : (ctx.clear event).events = ctx.events.erase event := by
  simp [clear]

/-- The slots left by `clear`. -/
theorem slot_clear (hnone : event ≠ .none) :
    (ctx.clear event).slot other = if other = event then .reset else ctx.slot other := by
  rw [clear, slot_setSlot _ hnone, slot_with_events]

/-- The bits left by `register`. -/
@[simp] theorem events_register (slot : EventContext S F C) :
    (ctx.register event slot).events = ctx.events.insert event := by
  simp [register]

/-- The slots left by `register`. -/
theorem slot_register (slot : EventContext S F C) (hnone : event ≠ .none) :
    (ctx.register event slot).slot other = if other = event then slot else ctx.slot other := by
  rw [register, slot_setSlot _ hnone, slot_with_events]

/-- An unused context is consistent. -/
theorem Ok.fresh : (FdContext.fresh : FdContext S F C).Ok := by
  intro event
  cases event <;> rfl

/-- Clearing an event keeps the other one as it was. -/
theorem Ok.clear (h : ctx.Ok) (hnone : event ≠ .none) : (ctx.clear event).Ok := by
  intro other
  rw [events_clear, EventMask.has_erase, slot_clear hnone]
  by_cases heq : other = event
  · simp [heq]
  · simpa [heq] using h other

/-- Registering an event keeps the other one as it was. -/
theorem Ok.register (h : ctx.Ok) (hnone : event ≠ .none) {slot : EventContext S F C}
    (hslot : slot.Registered) : (ctx.register event slot).Ok := by
  intro other
  rw [slot_register slot hnone, events_register, EventMask.has_insert _ hnone]
  by_cases heq : other = event
  · simpa [heq] using hslot
  · simpa [heq] using h other

/-- A consistent context triggers a set event without fault, scheduling what was registered. -/
theorem Ok.triggerEvent (h : ctx.Ok) (hhas : ctx.events.has event = true) :
    ∃ r, (ctx.slot event).registration = some r ∧
      ctx.triggerEvent event = .ok (ctx.clear event, some r) := by
  have hslot := h event
  rw [if_pos hhas] at hslot
  have hnone : event ≠ .none := EventMask.ne_none_of_has hhas
  obtain ⟨hsched, hone⟩ := hslot
  rcases hs : ctx.slot event with ⟨s, f, c⟩
  rw [hs] at hsched hone
  cases s with
  | none => cases hsched
  | some s =>
    cases c with
    | some c =>
      cases f with
      | some f => simp at hone
      | none =>
        exact ⟨(s, .inr c), rfl, by
          simp [FdContext.triggerEvent, hhas, getContext, hnone, hs, FdContext.clear,
            EventContext.reset, bind, Except.bind]⟩
    | none =>
      cases f with
      | none => simp at hone
      | some f =>
        exact ⟨(s, .inl f), rfl, by
          simp [FdContext.triggerEvent, hhas, getContext, hnone, hs, FdContext.clear,
            EventContext.reset, bind, Except.bind]⟩

/-- A clear bit fails the assertion. -/
theorem triggerEvent_of_not_has (h : ctx.events.has event = false) :
    ctx.triggerEvent event = .error .triggerAssert := by
  simp [FdContext.triggerEvent, h]

end FdContext

/-- A registered slot holds a registration. -/
theorem EventContext.Registered.isSome {slot : EventContext S F C} (h : slot.Registered) :
    slot.registration.isSome = true := by
  rcases slot with ⟨s, f, c⟩
  obtain ⟨hs, hone⟩ := h
  cases s <;> cases c <;> cases f <;> simp_all [EventContext.registration]

namespace IOManager

variable {m : IOManager S F C} {fd : ℕ} {ctx ctx' : FdContext S F C}

/-- The entries of a record that concern one event. -/
def entriesOf (event : Event) (entries : List (Event × SlotHistory.Entry (Registration S F C))) :
    List (SlotHistory.Entry (Registration S F C)) :=
  entries.filterMap fun e => if e.1 = event then some e.2 else none

/-- Records compose. -/
theorem entriesOf_append (event : Event)
    (left right : List (Event × SlotHistory.Entry (Registration S F C))) :
    entriesOf event (left ++ right) = entriesOf event left ++ entriesOf event right :=
  List.filterMap_append

/-- The history of one slot. -/
def historyOf (m : IOManager S F C) (fd : ℕ) (event : Event) :
    List (SlotHistory.Entry (Registration S F C)) :=
  m.trace.filterMap fun e => if e.1 = fd ∧ e.2.1 = event then some e.2.2 else none

/-- The slot of a descriptor's event; descriptors past the table have none. -/
def slotAt (m : IOManager S F C) (fd : ℕ) (event : Event) : EventContext S F C :=
  match m.fdContexts[fd]? with
  | some ctx => ctx.slot event
  | none => .reset

/-- What the kernel should have registered: the mask, or nothing when it is empty. -/
def interest (events : EventMask) : Option EventMask :=
  if events = .empty then none else some events

/-- What the kernel should have registered for a descriptor. -/
def interestAt (m : IOManager S F C) (fd : ℕ) : Option EventMask :=
  m.fdContexts[fd]?.bind fun ctx => interest ctx.events

/-- The total number of set bits. -/
def setBits (m : IOManager S F C) : ℕ := (m.fdContexts.map fun ctx => ctx.events.card).sum

/-- The invariant of the I/O manager. -/
structure Consistent (m : IOManager S F C) : Prop where
  count : m.pendingEventCount = m.setBits
  slots : ∀ ctx ∈ m.fdContexts, ctx.Ok
  kernel : ∀ fd, m.kernel fd = m.interestAt fd
  history : ∀ fd event, SlotHistory.History (m.historyOf fd event) (m.slotAt fd event).registration

/-- Growing the table adds unused contexts only. -/
theorem getElem?_contextResize {size : ℕ} (hsize : m.fdContexts.length ≤ size) (fd : ℕ) :
    (m.contextResize size).fdContexts[fd]? = m.fdContexts[fd]? ∨
      m.fdContexts[fd]? = none ∧ (m.contextResize size).fdContexts[fd]? = some .fresh := by
  simp only [contextResize, List.take_of_length_le hsize, List.getElem?_append]
  by_cases hfd : fd < m.fdContexts.length
  · exact Or.inl (by simp [hfd])
  · by_cases hnew : fd - m.fdContexts.length < size - m.fdContexts.length
    · exact Or.inr ⟨by simp; omega, by simp [hfd, hnew]⟩
    · exact Or.inl (by simp [hfd, hnew])

/-- Growing the table keeps the invariant. -/
theorem Consistent.contextResize (h : m.Consistent) {size : ℕ} (hsize : m.fdContexts.length ≤ size) :
    (m.contextResize size).Consistent where
  count := by
    rw [show (m.contextResize size).pendingEventCount = m.pendingEventCount from rfl, h.count]
    simp [setBits, IOManager.contextResize, List.take_of_length_le hsize, FdContext.fresh,
      EventMask.empty, EventMask.card]
  slots := by
    intro ctx hctx
    simp only [IOManager.contextResize, List.take_of_length_le hsize, List.mem_append] at hctx
    rcases hctx with hold | hnew
    · exact h.slots ctx hold
    · rw [List.eq_of_mem_replicate hnew]
      exact FdContext.Ok.fresh
  kernel := by
    intro fd
    rw [show (m.contextResize size).kernel = m.kernel from rfl, h.kernel]
    unfold interestAt
    rcases getElem?_contextResize hsize fd with heq | ⟨hnone, hfresh⟩
    · rw [heq]
    · rw [hnone, hfresh]
      rfl
  history := by
    intro fd event
    have hslot : (m.contextResize size).slotAt fd event = m.slotAt fd event := by
      unfold slotAt
      rcases getElem?_contextResize hsize fd with heq | ⟨hnone, hfresh⟩
      · rw [heq]
      · rw [hnone, hfresh]
        cases event <;> rfl
    rw [hslot]
    exact h.history fd event

/-- The reports taken from the kernel play no part in the invariant. -/
theorem Consistent.of_reports {m' : IOManager S F C} (h : m.Consistent)
    (htable : m'.fdContexts = m.fdContexts) (hcount : m'.pendingEventCount = m.pendingEventCount)
    (hkernel : m'.kernel = m.kernel) (htrace : m'.trace = m.trace) : m'.Consistent where
  count := by rw [hcount, h.count, setBits, setBits, htable]
  slots := by rw [htable]; exact h.slots
  kernel := fun fd => by rw [hkernel, h.kernel, interestAt, interestAt, htable]
  history := fun fd event => by
    have hhist := h.history fd event
    rwa [historyOf, slotAt, ← htrace, ← htable] at hhist

/-- The manager as constructed is consistent. -/
theorem Consistent.init : (IOManager.init : IOManager S F C).Consistent := by
  have hempty : (⟨[], 0, fun _ => none, [], []⟩ : IOManager S F C).Consistent :=
    ⟨rfl, fun ctx hctx => (List.not_mem_nil hctx).elim, fun fd => rfl,
      fun fd event => SlotHistory.History.nil⟩
  exact hempty.contextResize (Nat.zero_le 32)

/-- The table part of `addEvent` keeps the invariant. -/
theorem Consistent.growFor (h : m.Consistent) (fd : ℕ) : (m.growFor fd).Consistent := by
  unfold IOManager.growFor
  split
  · exact h
  · exact h.contextResize (by omega)

/-- A partly performed change of one context: where it has got to, the change of the counter, and
the record. -/
structure Progress (ctx ctx' : FdContext S F C) (delta : ℤ)
    (entries : List (Event × SlotHistory.Entry (Registration S F C))) : Prop where
  ok : ctx'.Ok
  card : (ctx'.events.card : ℤ) = ctx.events.card + delta
  history : ∀ event l, SlotHistory.History l (ctx.slot event).registration →
    SlotHistory.History (l ++ entriesOf event entries) (ctx'.slot event).registration

/-- Nothing has been done yet. -/
theorem Progress.start (h : ctx.Ok) : Progress ctx ctx 0 [] :=
  ⟨h, by simp, fun event l hl => by simpa [entriesOf] using hl⟩

/-- Consuming one registered event, with a record entry that empties its slot. -/
theorem Progress.consume {delta : ℤ} {event : Event}
    {entries : List (Event × SlotHistory.Entry (Registration S F C))}
    (h : Progress ctx ctx' delta entries) (hhas : ctx'.events.has event = true)
    (entry : SlotHistory.Entry (Registration S F C))
    (hentry : ∀ l, SlotHistory.History l (ctx'.slot event).registration →
      SlotHistory.History (l ++ [entry]) none) :
    Progress ctx (ctx'.clear event) (delta - 1) (entries ++ [(event, entry)]) where
  ok := h.ok.clear (EventMask.ne_none_of_has hhas)
  card := by
    have hcard := EventMask.card_erase hhas
    have hprev := h.card
    rw [FdContext.events_clear]
    omega
  history := by
    intro other l hl
    have hprev := h.history other l hl
    rw [FdContext.slot_clear (EventMask.ne_none_of_has hhas), entriesOf_append, ← List.append_assoc]
    by_cases heq : other = event
    · subst heq
      simpa [entriesOf, List.filterMap_cons, EventContext.registration, EventContext.reset]
        using hentry _ hprev
    · simpa [entriesOf, List.filterMap_cons, Ne.symm heq, heq] using hprev

/-- Replacing one context changes the number of set bits by the difference of its masks. -/
theorem sum_card_set {table : List (FdContext S F C)} (hctx : table[fd]? = some ctx)
    (ctx' : FdContext S F C) :
    ((table.set fd ctx').map fun c => c.events.card).sum + ctx.events.card =
      (table.map fun c => c.events.card).sum + ctx'.events.card := by
  induction table generalizing fd with
  | nil => simp at hctx
  | cons first rest ih =>
    cases fd with
    | zero =>
      cases hctx
      simp only [List.set_cons_zero, List.map_cons, List.sum_cons]
      omega
    | succ fd =>
      have hctx' : rest[fd]? = some ctx := by simpa using hctx
      have hrest := ih hctx'
      simp only [List.set_cons_succ, List.map_cons, List.sum_cons]
      omega

/-- Committing a finished change together with the matching `epoll_ctl`. -/
theorem Consistent.commit (h : m.Consistent) (hctx : m.fdContexts[fd]? = some ctx) {delta : ℤ}
    {entries : List (Event × SlotHistory.Entry (Registration S F C))}
    (hp : Progress ctx ctx' delta entries) {op : EpollOp} {mask : EventMask}
    (hop : (if op = .del then none else some mask) = interest ctx'.events) :
    ((m.epollCtl op fd mask).commit fd ctx' delta entries).Consistent := by
  obtain ⟨hfd, hget⟩ := List.getElem?_eq_some_iff.mp hctx
  have hset (i : ℕ) : (m.fdContexts.set fd ctx')[i]? =
      if i = fd then some ctx' else m.fdContexts[i]? := by
    by_cases hi : i = fd
    · subst hi
      simp [hfd]
    · simp [hi, List.getElem?_set_ne (Ne.symm hi)]
  refine ⟨?_, fun c hc => ?_, fun i => ?_, fun i event => ?_⟩
  · have hbits := sum_card_set hctx ctx'
    have hcount := h.count
    have hcard := hp.card
    change m.pendingEventCount + delta = ((m.fdContexts.set fd ctx').map fun c => c.events.card).sum
    simp only [setBits] at hcount
    omega
  · rcases List.mem_or_eq_of_mem_set hc with hold | rfl
    · exact h.slots c hold
    · exact hp.ok
  · change Function.update m.kernel fd _ i = _
    rw [interestAt, show ((m.epollCtl op fd mask).commit fd ctx' delta entries).fdContexts =
      m.fdContexts.set fd ctx' from rfl, hset]
    by_cases hi : i = fd
    · subst hi
      simpa using hop
    · simpa [hi, interestAt] using h.kernel i
  · have hslot : ((m.epollCtl op fd mask).commit fd ctx' delta entries).slotAt i event =
        if i = fd then ctx'.slot event else m.slotAt i event := by
      rw [slotAt, show ((m.epollCtl op fd mask).commit fd ctx' delta entries).fdContexts =
        m.fdContexts.set fd ctx' from rfl, hset]
      by_cases hi : i = fd
      · simp [hi]
      · simp [hi, slotAt]
    have hhist : ((m.epollCtl op fd mask).commit fd ctx' delta entries).historyOf i event =
        m.historyOf i event ++ if i = fd then entriesOf event entries else [] := by
      change (m.trace ++ entries.map fun e => (fd, e.1, e.2)).filterMap _ = _
      rw [List.filterMap_append, List.filterMap_map]
      by_cases hi : i = fd
      · simp [hi, historyOf, entriesOf]
      · simp [hi, Ne.symm hi, historyOf]
    rw [hslot, hhist]
    by_cases hi : i = fd
    · subst hi
      have hold := h.history i event
      rw [slotAt, hctx] at hold
      simpa using hp.history event _ hold
    · simpa [hi] using h.history i event

end IOManager

end Bobliew
