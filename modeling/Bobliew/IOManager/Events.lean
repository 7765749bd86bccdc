import Bobliew.Lib.SlotHistory

/-!
# Event registration in the I/O manager

A model of `FdContext` and of the operations that register, remove, cancel and report events.
The critical section under one descriptor's mutex is one function. `epoll_ctl` is given its
outcome: when it fails nothing changes, when it succeeds the kernel's interest list does.

Reports are taken from the kernel by `epoll_wait` before any lock and handled later by `idle`,
so they wait in a list of their own. A failed assertion ends the run, as do a null scheduler
and an index past the end of the table, which the source does not guard against.
-/

namespace Bobliew

/-- `IOManager::Event`. -/
inductive Event where
  | none
  | read
  | write
  deriving DecidableEq

/-- A set of events: the bits `READ` (`EPOLLIN`) and `WRITE` (`EPOLLOUT`). -/
structure EventMask where
  read : Bool
  write : Bool
  deriving DecidableEq

namespace EventMask

/-- No event. -/
def empty : EventMask := ⟨false, false⟩

/-- `mask & event`. -/
def has (mask : EventMask) : Event → Bool
  | .none => false
  | .read => mask.read
  | .write => mask.write

/-- `mask | event`. -/
def insert (mask : EventMask) : Event → EventMask
  | .none => mask
  | .read => { mask with read := true }
  | .write => { mask with write := true }

/-- `mask & ~event`. -/
def erase (mask : EventMask) : Event → EventMask
  | .none => mask
  | .read => { mask with read := false }
  | .write => { mask with write := false }

/-- `mask & other`. -/
def inter (mask other : EventMask) : EventMask :=
  ⟨mask.read && other.read, mask.write && other.write⟩

/-- `mask & ~other`. -/
def diff (mask other : EventMask) : EventMask :=
  ⟨mask.read && !other.read, mask.write && !other.write⟩

/-- The number of set bits. -/
def card (mask : EventMask) : ℕ := mask.read.toNat + mask.write.toNat

end EventMask

/-- `FdContext::EventContext`: the scheduler to resume on, and a fiber or a callback. -/
structure EventContext (S F C : Type*) where
  scheduler : Option S
  fiber : Option F
  cb : Option C

/-- What is handed to `Scheduler::schedule`: the scheduler with a fiber or a callback. -/
abbrev Registration (S F C : Type*) := S × (F ⊕ C)

namespace EventContext

variable {S F C : Type*}

/-- `resetContext`. -/
def reset : EventContext S F C := ⟨none, none, none⟩

/-- A scheduler and exactly one of fiber and callback. -/
def Registered (slot : EventContext S F C) : Prop :=
  slot.scheduler.isSome = true ∧ slot.fiber.isSome = !slot.cb.isSome

/-- The registration a slot holds. -/
def registration (slot : EventContext S F C) : Option (Registration S F C) :=
  match slot.scheduler, slot.cb, slot.fiber with
  | some s, some c, _ => some (s, .inr c)
  | some s, none, some f => some (s, .inl f)
  | _, _, _ => none

end EventContext

/-- `FdContext`; its descriptor is its index in the table. -/
structure FdContext (S F C : Type*) where
  read : EventContext S F C
  write : EventContext S F C
  events : EventMask

/-- Why a run of the I/O manager can end. -/
inductive IOFault where
  | outOfRange
  | addAssert
  | getContextAssert
  | slotAssert
  | fiberAssert
  | triggerAssert
  | cancelAllAssert
  | nullScheduler
  deriving DecidableEq

namespace FdContext

variable {S F C : Type*}

/-- A context with nothing registered. -/
def fresh : FdContext S F C := ⟨.reset, .reset, .empty⟩

/-- The slot of an event; there is none for `NONE`. -/
def slot (ctx : FdContext S F C) : Event → EventContext S F C
  | .none => .reset
  | .read => ctx.read
  | .write => ctx.write

/-- Overwrite the slot of an event. -/
def setSlot (ctx : FdContext S F C) (event : Event) (slot : EventContext S F C) : FdContext S F C :=
  match event with
  | .none => ctx
  | .read => { ctx with read := slot }
  | .write => { ctx with write := slot }

/-- `getContext`. -/
def getContext (ctx : FdContext S F C) (event : Event) : Except IOFault (EventContext S F C) :=
  if event = .none then .error .getContextAssert else .ok (ctx.slot event)

/-- `triggerEvent`: clear the bit and schedule what the slot holds. Scheduling swaps the callback or
the fiber out of the slot, and a null fiber is not enqueued. -/
def triggerEvent (ctx : FdContext S F C) (event : Event) :
    Except IOFault (FdContext S F C × Option (Registration S F C)) := do
  if !ctx.events.has event then .error .triggerAssert else
  let slot ← ctx.getContext event
  let cleared := { ctx with events := ctx.events.erase event }
  match slot.scheduler with
  | none => .error .nullScheduler
  | some s =>
    match slot.cb with
    | some c => .ok (cleared.setSlot event ⟨none, slot.fiber, none⟩, some (s, .inr c))
    | none => .ok (cleared.setSlot event ⟨none, none, none⟩, slot.fiber.map fun f => (s, .inl f))

end FdContext

/-- `EPOLL_CTL_ADD`, `EPOLL_CTL_MOD`, `EPOLL_CTL_DEL`. -/
inductive EpollOp where
  | add
  | mod
  | del
  deriving DecidableEq

/-- One `epoll_event` returned by `epoll_wait` for a descriptor. -/
structure EpollReport where
  fd : ℕ
  epollin : Bool
  epollout : Bool
  epollerr : Bool
  epollhup : Bool
  deriving DecidableEq

/-- The thread calling `addEvent`: its scheduler, current fiber, and whether that is in `EXEC`. -/
structure Caller (S F : Type*) where
  scheduler : Option S
  fiber : F
  exec : Bool

/-- The shared state: the table, the counter, the kernel's interest list, the reports taken but not
yet handled, and the record of registrations and their consumption. -/
structure IOManager (S F C : Type*) where
  fdContexts : List (FdContext S F C)
  pendingEventCount : ℤ
  kernel : ℕ → Option EventMask
  reports : List EpollReport
  trace : List (ℕ × Event × SlotHistory.Entry (Registration S F C))

namespace IOManager

variable {S F C : Type*}

/-- `contextResize`: the table is never made smaller by its callers. -/
def contextResize (m : IOManager S F C) (size : ℕ) : IOManager S F C :=
  { m with fdContexts := m.fdContexts.take size ++ List.replicate (size - m.fdContexts.length) .fresh }

/-- The constructor: nothing registered, and `contextResize(32)`. -/
def init : IOManager S F C :=
  (⟨[], 0, fun _ => none, [], []⟩ : IOManager S F C).contextResize 32

/-- The table part of `addEvent`, under `m_mutex`: grow to `fd * 1.5` when `fd` is too large. -/
def growFor (m : IOManager S F C) (fd : ℕ) : IOManager S F C :=
  if fd < m.fdContexts.length then m else m.contextResize (3 * fd / 2)

/-- `epoll_ctl` with the given outcome: a failing call has no effect. -/
def epollCtl (m : IOManager S F C) (op : EpollOp) (fd : ℕ) (mask : EventMask) : IOManager S F C :=
  { m with kernel := Function.update m.kernel fd (if op = .del then none else some mask) }

/-- The operation that leaves the given mask registered. -/
def opFor (mask : EventMask) : EpollOp := if mask = .empty then .del else .mod

/-- Replace one context, adjust the counter and append to the record. -/
def commit (m : IOManager S F C) (fd : ℕ) (ctx : FdContext S F C) (delta : ℤ)
    (entries : List (Event × SlotHistory.Entry (Registration S F C))) : IOManager S F C :=
  { m with
    fdContexts := m.fdContexts.set fd ctx
    pendingEventCount := m.pendingEventCount + delta
    trace := m.trace ++ entries.map fun e => (fd, e.1, e.2) }

/-- `addEvent`; returns 0, or -1 when `epoll_ctl` fails. -/
def addEvent (m : IOManager S F C) (fd : ℕ) (event : Event) (cb : Option C) (caller : Caller S F)
    (ctl : Bool) : Except IOFault (IOManager S F C × ℤ) :=
  let m := m.growFor fd
  match m.fdContexts[fd]? with
  | none => .error .outOfRange
  | some ctx =>
    if ctx.events.has event then .error .addAssert else
    let op := if ctx.events = .empty then EpollOp.add else .mod
    let events := ctx.events.insert event
    if !ctl then .ok (m, -1) else do
    let slot ← ctx.getContext event
    if slot.scheduler.isSome || slot.fiber.isSome || slot.cb.isSome then .error .slotAssert else
    let slot' : EventContext S F C := match cb with
      | some c => ⟨caller.scheduler, none, some c⟩
      | none => ⟨caller.scheduler, some caller.fiber, none⟩
    if cb.isNone && !caller.exec then .error .fiberAssert else
    let ctx' := { ctx with events := events }.setSlot event slot'
    let entries := slot'.registration.toList.map fun r => (event, .added r)
    .ok (((m.epollCtl op fd events).commit fd ctx' 1 entries), 0)

/-- `delEvent`. -/
def delEvent (m : IOManager S F C) (fd : ℕ) (event : Event) (ctl : Bool) :
    Except IOFault (IOManager S F C × Bool) :=
  if m.fdContexts.length < fd then .ok (m, false) else
  match m.fdContexts[fd]? with
  | none => .error .outOfRange
  | some ctx =>
    if !ctx.events.has event then .ok (m, false) else
    let newEvents := ctx.events.erase event
    if !ctl then .ok (m, false) else do
    let _ ← ctx.getContext event
    let ctx' := { ctx with events := newEvents }.setSlot event .reset
    .ok ((m.epollCtl (opFor newEvents) fd newEvents).commit fd ctx' (-1) [(event, .dropped)], true)

/-- `cancelEvent`. -/
def cancelEvent (m : IOManager S F C) (fd : ℕ) (event : Event) (ctl : Bool) :
    Except IOFault (IOManager S F C × Bool) :=
  if m.fdContexts.length < fd then .ok (m, false) else
  match m.fdContexts[fd]? with
  | none => .error .outOfRange
  | some ctx =>
    if !ctx.events.has event then .ok (m, false) else
    let newEvents := ctx.events.erase event
    if !ctl then .ok (m, false) else do
    let (ctx', fired) ← ctx.triggerEvent event
    let entries := fired.toList.map fun r => (event, .fired r)
    .ok ((m.epollCtl (opFor newEvents) fd newEvents).commit fd ctx' (-1) entries, true)

/-- Trigger an event and count it when it is in the mask: the tail of `cancelAll` and `idle`. -/
def triggerIf (mask : EventMask) (event : Event)
    (acc : FdContext S F C × ℤ × List (Event × SlotHistory.Entry (Registration S F C))) :
    Except IOFault (FdContext S F C × ℤ × List (Event × SlotHistory.Entry (Registration S F C))) :=
  if !mask.has event then .ok acc else do
  let (ctx', fired) ← acc.1.triggerEvent event
  .ok (ctx', acc.2.1 - 1, acc.2.2 ++ fired.toList.map fun r => (event, .fired r))

/-- `cancelAll`. -/
def cancelAll (m : IOManager S F C) (fd : ℕ) (ctl : Bool) :
    Except IOFault (IOManager S F C × Bool) :=
  if m.fdContexts.length < fd then .ok (m, false) else
  match m.fdContexts[fd]? with
  | none => .error .outOfRange
  | some ctx =>
    if ctx.events = .empty then .ok (m, false) else
    if !ctl then .ok (m, false) else do
    let first ← triggerIf ctx.events .read (ctx, 0, [])
    let second ← triggerIf first.1.events .write first
    if second.1.events = .empty then
      .ok ((m.epollCtl .del fd .empty).commit fd second.1 second.2.1 second.2.2, true)
    else .error .cancelAllAssert

/-- The events `idle` acts on: an error or a hang-up stands for all registered events. -/
def realEvents (report : EpollReport) (events : EventMask) : EventMask :=
  let all := report.epollerr || report.epollhup
  ⟨report.epollin || (all && events.read), report.epollout || (all && events.write)⟩

/-- The body of the loop in `idle` for one report. -/
def handleReport (m : IOManager S F C) (report : EpollReport) (ctl : Bool) :
    Except IOFault (IOManager S F C) :=
  match m.fdContexts[report.fd]? with
  | none => .error .outOfRange
  | some ctx =>
    let real := realEvents report ctx.events
    if ctx.events.inter real = .empty then .ok m else
    let left := ctx.events.diff real
    if !ctl then .ok m else do
    let first ← triggerIf real .read (ctx, 0, [])
    let second ← triggerIf real .write first
    .ok ((m.epollCtl (opFor left) report.fd left).commit report.fd second.1 second.2.1 second.2.2)

/-- One atomic step of some thread. -/
inductive Op (S F C : Type*) where
  | grow (fd : ℕ)
  | addEvent (fd : ℕ) (event : Event) (cb : Option C) (caller : Caller S F) (ctl : Bool)
  | delEvent (fd : ℕ) (event : Event) (ctl : Bool)
  | cancelEvent (fd : ℕ) (event : Event) (ctl : Bool)
  | cancelAll (fd : ℕ) (ctl : Bool)
  | epollWait (report : EpollReport)
  | idle (report : EpollReport) (ctl : Bool)

/-- Perform one step; `idle` takes a report that was collected earlier. -/
def step (m : IOManager S F C) : Op S F C → Except IOFault (IOManager S F C)
  | .grow fd => .ok (m.growFor fd)
  | .addEvent fd event cb caller ctl => (m.addEvent fd event cb caller ctl).map Prod.fst
  | .delEvent fd event ctl => (m.delEvent fd event ctl).map Prod.fst
  | .cancelEvent fd event ctl => (m.cancelEvent fd event ctl).map Prod.fst
  | .cancelAll fd ctl => (m.cancelAll fd ctl).map Prod.fst
  | .epollWait report => .ok { m with reports := m.reports ++ [report] }
  | .idle report ctl => { m with reports := m.reports.erase report }.handleReport report ctl

/-- Callers run on scheduler threads, the kernel reports only registered events besides errors and
hang-ups, and `idle` handles reports it has taken. -/
def Permitted (m : IOManager S F C) : Op S F C → Prop
  | .addEvent _ _ _ caller _ => caller.scheduler.isSome = true
  | .epollWait report => ∃ mask, m.kernel report.fd = some mask ∧
      (report.epollin = true → mask.read = true) ∧ (report.epollout = true → mask.write = true)
  | .idle report _ => report ∈ m.reports
  | _ => True

end IOManager

end Bobliew
