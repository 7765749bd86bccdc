import Bobliew.IOManager.Consistency

/-!
# Every operation keeps the I/O manager consistent

Registration fills an empty slot, `delEvent` drops its content, and `cancelEvent`, `cancelAll`
and `idle` hand it to the scheduler. Each is one change of one context, followed by the commit of
that change, unless an early exit leaves everything as it was.

The assertion in `triggerEvent` can fail only when called from `idle`: a report is taken before the
lock, and one of its two events may have been removed since.
-/

universe u

namespace Bobliew.IOManager

variable {S F C : Type*} {m : IOManager S F C} {fd : ℕ} {ctx ctx' : FdContext S F C} {event : Event}
  {delta : ℤ} {entries : List (Event × SlotHistory.Entry (Registration S F C))}

/-- The operation chosen for a mask leaves the kernel with exactly that mask. -/
theorem interest_opFor (mask : EventMask) :
    (if opFor mask = .del then none else some mask) = interest mask := by
  unfold opFor interest
  split <;> simp

/-- A mask with an event in it is not empty. -/
theorem interest_insert {mask : EventMask} (hnone : event ≠ .none) :
    interest (mask.insert event) = some (mask.insert event) := by
  refine if_neg fun hempty => ?_
  have hhas : (mask.insert event).has event = _ := EventMask.has_insert mask hnone
  rw [hempty] at hhas
  cases event <;> simp_all [EventMask.has, EventMask.empty]

/-- Registering a clear event. -/
theorem Progress.register (h : ctx.Ok) (hhas : ctx.events.has event = false) (hnone : event ≠ .none)
    {slot : EventContext S F C} (hslot : slot.Registered) :
    Progress ctx (ctx.register event slot) 1
      (slot.registration.toList.map fun r => (event, .added r)) where
  ok := h.register hnone hslot
  card := by
    rw [FdContext.events_register, EventMask.card_insert hhas hnone]
    omega
  history := by
    intro other l hl
    obtain ⟨r, hr⟩ := Option.isSome_iff_exists.mp hslot.isSome
    rw [FdContext.slot_register slot hnone, hr]
    by_cases heq : other = event
    · subst heq
      have hempty := h other
      rw [hhas] at hempty
      simp only [Bool.false_eq_true, if_false] at hempty
      rw [hempty] at hl
      simpa [entriesOf, hr] using hl.add r
    · simpa [entriesOf, heq, Ne.symm heq] using hl

/-- Dropping the registration of a set event. -/
theorem Progress.drop (h : ctx.Ok) (hhas : ctx.events.has event = true) :
    Progress ctx (ctx.clear event) (-1) [(event, .dropped)] := by
  refine (Progress.start h).consume hhas .dropped fun l hl => ?_
  have hslot := h event
  rw [if_pos hhas] at hslot
  obtain ⟨r, hr⟩ := Option.isSome_iff_exists.mp hslot.isSome
  rw [hr] at hl
  exact hl.drop

/-- What triggering a possibly stale event does: nothing, a consumption, or a failed assertion. -/
theorem Progress.triggerIf (h : Progress ctx ctx' delta entries) (mask : EventMask) (event : Event) :
    (mask.has event = true ∧ ctx'.events.has event = false ∧
      triggerIf mask event (ctx', delta, entries) = .error .triggerAssert) ∨
    (mask.has event = true → ctx'.events.has event = true) ∧
      ∃ acc, triggerIf mask event (ctx', delta, entries) = .ok acc ∧
        Progress ctx acc.1 acc.2.1 acc.2.2 ∧
        acc.1.events = if mask.has event then ctx'.events.erase event else ctx'.events := by
  by_cases hmask : mask.has event = true
  · by_cases hhas : ctx'.events.has event = true
    · obtain ⟨r, hr, htrigger⟩ := h.ok.triggerEvent hhas
      refine Or.inr ⟨fun _ => hhas, (ctx'.clear event, delta - 1, entries ++ [(event, .fired r)]), ?_, ?_, ?_⟩
      · simp [IOManager.triggerIf, hmask, htrigger, bind, Except.bind]
      · refine h.consume hhas (.fired r) fun l hl => ?_
        rw [hr] at hl
        exact hl.fire
      · simp [hmask]
    · have hfalse : ctx'.events.has event = false := by simpa using hhas
      refine Or.inl ⟨hmask, hfalse, ?_⟩
      simp [IOManager.triggerIf, hmask, FdContext.triggerEvent_of_not_has hfalse, bind, Except.bind]
  · have hfalse : mask.has event = false := by simpa using hmask
    exact Or.inr ⟨fun htrue => absurd htrue hmask, (ctx', delta, entries),
      by simp [IOManager.triggerIf, hfalse], h, by simp [hfalse]⟩

/-- Triggering the reported events of a context, and when it fails. -/
theorem triggerBoth (h : ctx.Ok) (mask : EventMask) :
    let run := (triggerIf mask .read (ctx, 0, [])).bind (triggerIf mask .write)
    (run = .error .triggerAssert ∧ ∃ e, mask.has e = true ∧ ctx.events.has e = false) ∨
    (∀ e, mask.has e = true → ctx.events.has e = true) ∧
      ∃ acc, run = .ok acc ∧ Progress ctx acc.1 acc.2.1 acc.2.2 ∧ acc.1.events = ctx.events.diff mask := by
  intro run
  rcases (Progress.start h).triggerIf mask .read with ⟨hmask, hhas, herr⟩ | ⟨hread, acc, hok, hp, hevents⟩
  · exact Or.inl ⟨by simp [run, herr, Except.bind], .read, hmask, hhas⟩
  · have hwriteBit : acc.1.events.has .write = ctx.events.has .write := by
      rw [hevents]
      split
      · rw [EventMask.has_erase]
        simp
      · rfl
    rcases hp.triggerIf mask .write with ⟨hmask, hhas, herr⟩ | ⟨hwrite, acc', hok', hp', hevents'⟩
    · refine Or.inl ⟨by simp [run, hok, Except.bind, herr], .write, hmask, ?_⟩
      rw [← hwriteBit]
      exact hhas
    · refine Or.inr ⟨fun e he => ?_, acc', by simp [run, hok, Except.bind, hok'], hp', ?_⟩
      · cases e with
        | none => cases he
        | read => exact hread he
        | write => exact hwriteBit ▸ hwrite he
      · rw [hevents', hevents]
        rcases ctx.events with ⟨r, w⟩
        rcases mask with ⟨mr, mw⟩
        cases mr <;> cases mw <;> simp [EventMask.has, EventMask.erase, EventMask.diff]

/-- A successful result has the property, and no failure is the assertion in `triggerEvent`. -/
def Sound {α : Type*} (P : α → Prop) : Except IOFault α → Prop
  | .ok a => P a
  | .error fault => fault ≠ .triggerAssert

/-- The state reached by a successful operation. -/
theorem Sound.of_map {α β : Type*} {f : α → β} {Q : β → Prop} {x : Except IOFault α}
    (h : Sound (fun a => Q (f a)) x) {b : β} (hb : x.map f = .ok b) : Q b := by
  cases x with
  | error fault => cases hb
  | ok a =>
    cases hb
    exact h

/-- A sound operation does not fail in `triggerEvent`. -/
theorem Sound.map_ne {α β : Type*} {P : α → Prop} {f : α → β} {x : Except IOFault α} (h : Sound P x) :
    x.map f ≠ .error .triggerAssert := by
  cases x with
  | error fault =>
    intro herr
    cases herr
    exact h rfl
  | ok a => exact fun herr => nomatch herr

/-- Two dependent steps followed by a pure one. -/
theorem bind_bind_ok {ε : Type*} {α β γ : Type u} (x : Except ε α) (f : α → Except ε β) (g : β → γ) :
    (do let a ← x; let b ← f a; Except.ok (g b)) = (x.bind f).map g := by
  cases x with
  | error e => rfl
  | ok a => cases h : f a <;> simp [bind, Except.bind, Except.map, h]

/-- `addEvent` keeps the invariant. -/
theorem Consistent.addEvent (h : m.Consistent) {caller : Caller S F}
    (hcaller : caller.scheduler.isSome = true) (fd : ℕ) (event : Event) (cb : Option C) (ctl : Bool) :
    Sound (fun r => r.1.Consistent) (m.addEvent fd event cb caller ctl) := by
  have hgrown := h.growFor fd
  unfold IOManager.addEvent
  dsimp only
  split
  · simp [Sound]
  · rename_i ctx hctx
    split
    · simp [Sound]
    · rename_i hhas
      have hhas : ctx.events.has event = false := by simpa using hhas
      split
      · exact hgrown
      · have hok := hgrown.slots ctx (List.mem_of_getElem? hctx)
        by_cases hnone : event = .none
        · simp [FdContext.getContext, hnone, bind, Except.bind, Sound]
        · simp only [FdContext.getContext, hnone, if_false, bind, Except.bind]
          split
          · simp [Sound]
          · split
            · simp [Sound]
            · refine hgrown.commit hctx (Progress.register hok hhas hnone ?_) ?_
              · cases cb <;> exact ⟨hcaller, rfl⟩
              · rw [FdContext.events_register, interest_insert hnone]
                split <;> simp_all

/-- `delEvent` keeps the invariant. -/
theorem Consistent.delEvent (h : m.Consistent) (fd : ℕ) (event : Event) (ctl : Bool) :
    Sound (fun r => r.1.Consistent) (m.delEvent fd event ctl) := by
  unfold IOManager.delEvent
  split
  · exact h
  · split
    · simp [Sound]
    · rename_i ctx hctx
      split
      · exact h
      · rename_i hhas
        have hhas : ctx.events.has event = true := by simpa using hhas
        dsimp only
        split
        · exact h
        · simp only [FdContext.getContext, EventMask.ne_none_of_has hhas, if_false, bind, Except.bind]
          refine h.commit hctx (Progress.drop (h.slots ctx (List.mem_of_getElem? hctx)) hhas) ?_
          rw [FdContext.events_clear]
          exact interest_opFor _

/-- `cancelEvent` triggers only what is registered. -/
theorem Consistent.cancelEvent (h : m.Consistent) (fd : ℕ) (event : Event) (ctl : Bool) :
    Sound (fun r => r.1.Consistent) (m.cancelEvent fd event ctl) := by
  unfold IOManager.cancelEvent
  split
  · exact h
  · split
    · simp [Sound]
    · rename_i ctx hctx
      split
      · exact h
      · rename_i hhas
        have hhas : ctx.events.has event = true := by simpa using hhas
        dsimp only
        split
        · exact h
        · have hok := h.slots ctx (List.mem_of_getElem? hctx)
          obtain ⟨r, hr, htrigger⟩ := hok.triggerEvent hhas
          simp only [htrigger, bind, Except.bind]
          refine h.commit hctx ((Progress.start hok).consume hhas (.fired r) fun l hl => ?_) ?_
          · rw [hr] at hl
            exact hl.fire
          · rw [FdContext.events_clear]
            exact interest_opFor _

/-- `cancelAll` triggers every registered event and leaves none. -/
theorem Consistent.cancelAll (h : m.Consistent) (fd : ℕ) (ctl : Bool) :
    Sound (fun r => r.1.Consistent) (m.cancelAll fd ctl) := by
  unfold IOManager.cancelAll
  split
  · exact h
  · split
    · simp [Sound]
    · rename_i ctx hctx
      split
      · exact h
      · split
        · exact h
        · have hok := h.slots ctx (List.mem_of_getElem? hctx)
          rcases (Progress.start hok).triggerIf ctx.events .read with
            ⟨hmask, hhas, _⟩ | ⟨_, acc, hok₁, hp₁, hevents₁⟩
          · rw [hmask] at hhas
            cases hhas
          · rcases hp₁.triggerIf acc.1.events .write with
              ⟨hmask, hhas, _⟩ | ⟨_, acc', hok₂, hp₂, hevents₂⟩
            · rw [hmask] at hhas
              cases hhas
            · simp only [hok₁, hok₂, bind, Except.bind]
              have hempty : acc'.1.events = .empty := by
                rw [hevents₂, hevents₁]
                rcases ctx.events with ⟨r, w⟩
                cases r <;> cases w <;> rfl
              rw [if_pos hempty]
              refine h.commit hctx hp₂ ?_
              rw [hempty]
              rfl

/-- A report that names an event no longer registered, while the other event is registered and is
acted on as well. -/
def HalfStale (report : EpollReport) (events : EventMask) : Prop :=
  (events.read = true ∧ events.write = false ∧ report.epollout = true ∧
      (report.epollin = true ∨ report.epollerr = true ∨ report.epollhup = true)) ∨
    (events.write = true ∧ events.read = false ∧ report.epollin = true ∧
      (report.epollout = true ∨ report.epollerr = true ∨ report.epollhup = true))

/-- A half-stale report passes the guard in `idle` and names an event that is not registered. -/
theorem halfStale_iff (report : EpollReport) (events : EventMask) :
    HalfStale report events ↔ events.inter (realEvents report events) ≠ .empty ∧
      ∃ e, (realEvents report events).has e = true ∧ events.has e = false := by
  have hexists (P : Event → Prop) : (∃ e, P e) ↔ P .none ∨ P .read ∨ P .write :=
    ⟨fun ⟨e, he⟩ => by cases e <;> simp [he], by rintro (h | h | h) <;> exact ⟨_, h⟩⟩
  rcases report with ⟨fd, epollin, epollout, epollerr, epollhup⟩
  rcases events with ⟨r, w⟩
  rw [hexists]
  cases r <;> cases w <;> cases epollin <;> cases epollout <;> cases epollerr <;> cases epollhup <;>
    simp [HalfStale, realEvents, EventMask.inter, EventMask.has, EventMask.empty]

/-- Handling a report keeps the invariant, and fails the assertion in `triggerEvent` exactly when
`epoll_ctl` succeeds and the report is half stale. -/
theorem Consistent.handleReport (h : m.Consistent) (report : EpollReport) (ctl : Bool) :
    (∀ m', m.handleReport report ctl = .ok m' → m'.Consistent) ∧
      (m.handleReport report ctl = .error .triggerAssert ↔
        ctl = true ∧ ∃ ctx, m.fdContexts[report.fd]? = some ctx ∧ HalfStale report ctx.events) := by
  unfold IOManager.handleReport
  cases hctx : m.fdContexts[report.fd]? with
  | none => exact ⟨fun m' hok => (nomatch hok), by simp⟩
  | some ctx =>
    simp only [Option.some.injEq, exists_eq_left', halfStale_iff]
    split
    · rename_i hempty
      refine ⟨fun m' hok => ?_, by simp [hempty]⟩
      cases hok
      exact h
    · rename_i hinter
      cases ctl with
      | false =>
        refine ⟨fun m' hok => ?_, by simp⟩
        cases hok
        exact h
      | true =>
        have hok := h.slots ctx (List.mem_of_getElem? hctx)
        rcases triggerBoth hok (realEvents report ctx.events) with
          ⟨herr, hgone⟩ | ⟨hall, acc, hrun, hp, hevents⟩
        · rw [Bool.not_true, if_neg Bool.false_ne_true, bind_bind_ok, herr]
          exact ⟨fun m' hok => (nomatch hok), iff_of_true rfl ⟨rfl, hinter, hgone⟩⟩
        · rw [Bool.not_true, if_neg Bool.false_ne_true, bind_bind_ok, hrun]
          refine ⟨fun m' hok => ?_, iff_of_false (fun herr => nomatch herr) ?_⟩
          · cases hok
            refine h.commit hctx hp ?_
            rw [hevents]
            exact interest_opFor _
          · rintro ⟨_, _, e, hmask, hhas⟩
            rw [hall e hmask] at hhas
            cases hhas

/-- Every permitted step that succeeds keeps the invariant. -/
theorem Consistent.step (h : m.Consistent) {op : Op S F C} (hop : Permitted m op) {m' : IOManager S F C}
    (hok : m.step op = .ok m') : m'.Consistent := by
  cases op with
  | grow fd =>
    cases hok
    exact h.growFor fd
  | addEvent fd event cb caller ctl => exact (h.addEvent hop fd event cb ctl).of_map hok
  | delEvent fd event ctl => exact (h.delEvent fd event ctl).of_map hok
  | cancelEvent fd event ctl => exact (h.cancelEvent fd event ctl).of_map hok
  | cancelAll fd ctl => exact (h.cancelAll fd ctl).of_map hok
  | epollWait report =>
    cases hok
    exact h.of_reports rfl rfl rfl rfl
  | idle report ctl =>
    have hm : ({ m with reports := m.reports.erase report } : IOManager S F C).Consistent :=
      h.of_reports rfl rfl rfl rfl
    exact (hm.handleReport report ctl).1 m' hok

/-- The invariant holds in every reached state. -/
theorem Consistent.reached (h : Runs.Reaches IOManager.step Permitted IOManager.init m) :
    m.Consistent :=
  h.invariant Consistent Consistent.init fun _ _ _ hs hop hok => hs.step hop hok

/-- In every state reached by any interleaving, the counter is the number of set bits; a bit is set
exactly when its slot has a scheduler and exactly one of fiber and callback, and the slot is empty
otherwise; the kernel has exactly the set bits registered; and in the history of every slot each
successful `addEvent` is consumed at most once, so that what is scheduled is a subsequence of what
was registered. -/
theorem registrations_consistent (h : Runs.Reaches IOManager.step Permitted IOManager.init m) :
    m.pendingEventCount = m.setBits ∧
      (∀ ctx ∈ m.fdContexts, ∀ event, (ctx.events.has event = true ↔ (ctx.slot event).Registered) ∧
        (ctx.events.has event = false → ctx.slot event = .reset)) ∧
      (∀ fd ctx, m.fdContexts[fd]? = some ctx →
        m.kernel fd = if ctx.events = .empty then none else some ctx.events) ∧
      ∀ fd event, SlotHistory.History (m.historyOf fd event) (m.slotAt fd event).registration ∧
        ((m.historyOf fd event).filterMap SlotHistory.Entry.fired?).Sublist
          ((m.historyOf fd event).filterMap SlotHistory.Entry.added?) ∧
        ((m.historyOf fd event).filter SlotHistory.Entry.consumes).length ≤
          ((m.historyOf fd event).filterMap SlotHistory.Entry.added?).length := by
  have hm := Consistent.reached h
  refine ⟨hm.count, fun ctx hctx event => ?_, fun fd ctx hctx => ?_, fun fd event => ?_⟩
  · have hslot := hm.slots ctx hctx event
    cases hhas : ctx.events.has event with
    | true =>
      rw [hhas] at hslot
      exact ⟨by simpa using hslot, by simp⟩
    | false =>
      rw [hhas] at hslot
      have hreset : ctx.slot event = .reset := by simpa using hslot
      refine ⟨iff_of_false Bool.false_ne_true ?_, fun _ => hreset⟩
      rw [hreset]
      rintro ⟨hsched, _⟩
      cases hsched
  · rw [hm.kernel, interestAt, hctx]
    rfl
  · have hhist := hm.history fd event
    have hlength := hhist.consumed_length
    exact ⟨hhist, hhist.fired_sublist, by omega⟩

/-- A thread registers for reading on descriptor 5. -/
def readerAdded : IOManager Unit Unit Unit :=
  (((IOManager.init : IOManager Unit Unit Unit).growFor 5).epollCtl .add 5 ⟨true, false⟩).commit 5
    (FdContext.fresh.register .read ⟨some (), some (), none⟩) 1 [(.read, .added ((), .inl ()))]

/-- The caller of the example runs. -/
def unitCaller : Caller Unit Unit := ⟨some (), (), true⟩

/-- One registration is one set bit, registered with the kernel. -/
theorem registrations_consistent_readerAdded :
    readerAdded.pendingEventCount = readerAdded.setBits ∧ readerAdded.kernel 5 = some ⟨true, false⟩ := by
  have hreach : Runs.Reaches IOManager.step Permitted IOManager.init readerAdded :=
    .next .start (.addEvent 5 .read none unitCaller true) rfl rfl
  have hm := registrations_consistent hreach
  exact ⟨hm.1, hm.2.2.1 5 (FdContext.fresh.register .read ⟨some (), some (), none⟩) rfl⟩

/-- A step of `idle` whose `epoll_ctl` succeeds on a half-stale report. -/
def HandlesHalfStale (m : IOManager S F C) (op : Op S F C) : Prop :=
  ∃ report, op = .idle report true ∧
    ∃ ctx, m.fdContexts[report.fd]? = some ctx ∧ HalfStale report ctx.events

/-- In every state reached by any interleaving, a step fails the assertion in `triggerEvent` exactly
when it is a step of `idle` on a half-stale report. -/
theorem triggerEvent_registered_iff (h : Runs.Reaches IOManager.step Permitted IOManager.init m)
    (op : Op S F C) (hop : Permitted m op) :
    m.step op ≠ .error .triggerAssert ↔ ¬ HandlesHalfStale m op := by
  have hm := Consistent.reached h
  refine not_congr ?_
  cases op with
  | grow fd => simp [IOManager.step, HandlesHalfStale]
  | addEvent fd event cb caller ctl =>
    exact iff_of_false (hm.addEvent hop fd event cb ctl).map_ne (by simp [HandlesHalfStale])
  | delEvent fd event ctl =>
    exact iff_of_false (hm.delEvent fd event ctl).map_ne (by simp [HandlesHalfStale])
  | cancelEvent fd event ctl =>
    exact iff_of_false (hm.cancelEvent fd event ctl).map_ne (by simp [HandlesHalfStale])
  | cancelAll fd ctl => exact iff_of_false (hm.cancelAll fd ctl).map_ne (by simp [HandlesHalfStale])
  | epollWait report => simp [IOManager.step, HandlesHalfStale]
  | idle report ctl =>
    have hm' : ({ m with reports := m.reports.erase report } : IOManager S F C).Consistent :=
      hm.of_reports rfl rfl rfl rfl
    refine (hm'.handleReport report ctl).2.trans ?_
    simp [HandlesHalfStale, and_comm]

/-- The kernel reports both events of descriptor 5. -/
def bothReady : EpollReport := ⟨5, true, true, false, false⟩

/-- Both events are registered and reported, and `idle` triggers them. -/
theorem triggerEvent_registered_bothReady :
    ∃ m : IOManager Unit Unit Unit, Runs.Reaches IOManager.step Permitted IOManager.init m ∧
      Permitted m (.idle bothReady true) ∧
      m.step (.idle bothReady true) ≠ .error .triggerAssert := by
  have hread : Runs.Reaches IOManager.step Permitted IOManager.init readerAdded :=
    .next .start (.addEvent 5 .read none unitCaller true) rfl rfl
  have hboth := hread.next (.addEvent 5 .write none unitCaller true) rfl rfl
  have hreported := hboth.next (.epollWait bothReady) ⟨_, rfl, by decide, by decide⟩ rfl
  refine ⟨_, hreported, List.mem_singleton_self bothReady, ?_⟩
  refine (triggerEvent_registered_iff hreported (.idle bothReady true) (List.mem_singleton_self bothReady)).mpr ?_
  rintro ⟨report, hop, ctx, hctx, ⟨-, hwrite, -⟩ | ⟨-, hread, -⟩⟩
  · cases hop
    cases hctx
    cases hwrite
  · cases hop
    cases hctx
    cases hread

/-- Both events are registered and reported, and writing is cancelled before the report is handled:
`idle` triggers an event that is no longer set. -/
theorem idle_triggers_cancelled_event :
    ∃ m : IOManager Unit Unit Unit, Runs.Reaches IOManager.step Permitted IOManager.init m ∧
      Permitted m (.idle bothReady true) ∧
      m.step (.idle bothReady true) = .error .triggerAssert := by
  have hread : Runs.Reaches IOManager.step Permitted IOManager.init readerAdded :=
    .next .start (.addEvent 5 .read none unitCaller true) rfl rfl
  have hboth := hread.next (.addEvent 5 .write none unitCaller true) rfl rfl
  have hreported := hboth.next (.epollWait bothReady) ⟨_, rfl, by decide, by decide⟩ rfl
  have hcancelled := hreported.next (.cancelEvent 5 .write true) trivial rfl
  exact ⟨_, hcancelled, List.mem_singleton_self bothReady, rfl⟩

end Bobliew.IOManager
