import Bobliew.Lib.LockOrder

/-!
# The locks of the runtime

Which locks the calls of the configuration, of the logger, of timers and schedulers and of `IOManager` take, and
inside of which others. Logging goes on inside of other locks, and the appenders write files through the hooks, which
look into `FdManager`. Events are triggered and fibers that wait for a semaphore are scheduled inside of the locks
of these. All of it follows one order, so that threads making such calls do not wait for one another in a circle.

Conditions are left open, so that each call has all of its branches. `start` and `stop`, which also wait for threads,
are left out, and so are `HttpConnectionPool` and `ServletDispatch`, whose locks nothing is called in but what users
provide.
-/

namespace Bobliew.Locking

open Critical

/-- The locks. The logger without a number is the root. -/
inductive Lock where
  | config
  | configVar (var : ℕ)
  | fiberSemaphore (sem : ℕ)
  | ioManager (iom : ℕ)
  | fdContext (iom fd : ℕ)
  | timerManager (iom : ℕ)
  | scheduler (s : ℕ)
  | loggerManager
  | logger (logger : Option ℕ)
  | appender (appender : ℕ)
  | fdManager
  deriving DecidableEq

/-- The order of the locks. -/
def Lock.rank : Lock → ℕ
  | .config => 0
  | .configVar _ => 1
  | .fiberSemaphore _ => 2
  | .ioManager _ => 2
  | .fdContext _ _ => 2
  | .timerManager _ => 2
  | .scheduler _ => 3
  | .loggerManager => 4
  | .logger (some _) => 5
  | .logger none => 6
  | .appender _ => 7
  | .fdManager => 8

/-- A section in which nothing else is locked. -/
def only (lock : Lock) : Critical Lock := .hold lock .skip

/-- Perhaps this. -/
def maybe (code : Critical Lock) : Critical Lock := .either .skip code

/-! ## Descriptors and the log -/

/-- `FdManager::get`: the lock of readers, and that of writers behind it. -/
def fdManagerGet : Critical Lock := .seq (only .fdManager) (maybe (only .fdManager))

/-- `FdManager::del`. -/
def fdManagerDel : Critical Lock := only .fdManager

/-- `read`, `write` or `close` of something that is no socket, in a thread with hooks or without. -/
def fileCall : Critical Lock := maybe fdManagerGet

/-- `FileLogAppender::FileLogAppender`, `FileLogAppender::log` and `StdoutLogAppender::log`. -/
def appenderLog (appender : ℕ) : Critical Lock := .hold (.appender appender) (.many fileCall)

/-- `LogAppender::getFormatter` and `toYamlString` of appenders. -/
def appenderGet (appender : ℕ) : Critical Lock := only (.appender appender)

/-- The loop of `Logger::log`. -/
def appendersLog : Critical Lock := .many (.anyOf appenderLog)

/-- `Logger::log`: to the appenders, or to the root. -/
def loggerLog : Option ℕ → Critical Lock
  | none => maybe (.hold (.logger none) appendersLog)
  | some i => maybe (.hold (.logger (some i))
      (.either appendersLog (maybe (.hold (.logger none) appendersLog))))

/-- `BOBLIEW_LOG_LEVEL`, with some logger. -/
def log : Critical Lock := maybe (.anyOf loggerLog)

/-- `Logger::addAppender`. -/
def addAppender (logger : Option ℕ) (appender : ℕ) : Critical Lock :=
  .hold (.logger logger) (.seq (appenderGet appender) (maybe (only (.appender appender))))

/-- `Logger::delAppender` and `Logger::getFormatter`. -/
def loggerGet (logger : Option ℕ) : Critical Lock := only (.logger logger)

/-- `Logger::setFormatter`. -/
def setFormatter (logger : Option ℕ) : Critical Lock :=
  .seq (only (.logger logger)) (.many (only (.logger logger)))

/-- `Logger::toYamlString`. -/
def loggerToYaml (logger : Option ℕ) : Critical Lock := .hold (.logger logger) (.many (.anyOf appenderGet))

/-- `LoggerManager::getLogger`. -/
def getLogger : Critical Lock := only .loggerManager

/-- `LoggerManager::toYamlString`. -/
def loggerManagerToYaml : Critical Lock := .hold .loggerManager (.many (.anyOf loggerToYaml))

/-! ## The configuration -/

/-- `Logger::clearAppenders`: no lock of the logger is taken, and the files of the appenders are closed. -/
def clearAppenders : Critical Lock := .many fileCall

/-- One logger of the listener of `LogIniter`; levels are set without a lock. -/
def applyDefine (logger : Option ℕ) : Critical Lock :=
  .seq getLogger (.seq (maybe (setFormatter logger)) (.seq clearAppenders
    (.many (.anyOf fun appender => .seq (maybe (appenderLog appender)) (addAppender logger appender)))))

/-- The listener of `LogIniter`. -/
def logListener : Critical Lock :=
  .seq log (.seq (.many (.anyOf applyDefine)) (.many (.seq getLogger clearAppenders)))

/-- `ConfigVar::setValue`; the other listeners log, or lock nothing. -/
def setValue (var : ℕ) : Critical Lock :=
  .seq (.hold (.configVar var) (.many (.either log logListener))) (maybe (only (.configVar var)))

/-- `ConfigVar::getValue`, and those of its listeners: `addListener`, `delListener`, `getListener` and
`clearListener`. -/
def configVarGet (var : ℕ) : Critical Lock := only (.configVar var)

/-- `ConfigVar::to_String`; an exception is logged when the lock has been given back. -/
def configToString (var : ℕ) : Critical Lock := .seq (only (.configVar var)) log

/-- `ConfigVar::fromString`. -/
def fromString (var : ℕ) : Critical Lock := .seq (maybe (setValue var)) log

/-- `Config::Lookup<T>(name)` and `Config::LookupBase`. -/
def lookupBase : Critical Lock := only .config

/-- `Config::Lookup<T>(name, default_value)`. -/
def lookup : Critical Lock := .seq (maybe (.seq lookupBase log)) (.either log (only .config))

/-- `Config::LoadFromYaml`. -/
def loadFromYaml : Critical Lock := .seq (.many log) (.many (.seq lookupBase (maybe (.anyOf fromString))))

/-- `Config::Visit`, with the function of `ConfigServlet`. -/
def visit : Critical Lock := .hold .config (.many (.anyOf configToString))

/-! ## Schedulers, timers and events -/

/-- `Scheduler::tickle` or `IOManager::tickle`. -/
def tickle : Critical Lock := .either log fileCall

/-- `Scheduler::schedule`. -/
def schedule (s : ℕ) : Critical Lock := .seq (only (.scheduler s)) (maybe tickle)

/-- `Scheduler::stopping`. -/
def schedulerStopping (s : ℕ) : Critical Lock := only (.scheduler s)

/-- A round of the loop of `Scheduler::run`, but for what the fiber does. -/
def runRound (s : ℕ) : Critical Lock :=
  .seq (only (.scheduler s)) (.seq (maybe tickle) (.either log (maybe (schedule s))))

/-- `FiberSemaphore::tryWait` and `FiberSemaphore::wait`. -/
def fiberSemaphoreWait (sem : ℕ) : Critical Lock := only (.fiberSemaphore sem)

/-- `FiberSemaphore::notify`. -/
def fiberSemaphoreNotify (sem : ℕ) : Critical Lock := .hold (.fiberSemaphore sem) (maybe (.anyOf schedule))

/-- `TimerManager::addTimer`: the lock is given back before `onTimerInsertedAtFront`. -/
def addTimer (iom : ℕ) : Critical Lock := .seq (only (.timerManager iom)) (maybe tickle)

/-- `Timer::cancel`, `Timer::refresh`, `TimerManager::hasTimer` and `TimerManager::getNextTimer`. -/
def timerGet (iom : ℕ) : Critical Lock := only (.timerManager iom)

/-- `Timer::reset`, which calls `addTimer` with its own lock. -/
def timerReset (iom : ℕ) : Critical Lock := maybe (addTimer iom)

/-- `TimerManager::listExpireCb`. -/
def listExpireCb (iom : ℕ) : Critical Lock :=
  .seq (only (.timerManager iom)) (maybe (.hold (.timerManager iom) (.many log)))

/-- `IOManager::stopping`. -/
def ioManagerStopping (iom : ℕ) : Critical Lock := .seq (timerGet iom) (maybe (schedulerStopping iom))

/-- `IOManager::addEvent`. -/
def addEvent (iom fd : ℕ) : Critical Lock :=
  .seq (only (.ioManager iom)) (.seq (maybe (only (.ioManager iom))) (.hold (.fdContext iom fd) (.many log)))

/-- `IOManager::delEvent`. -/
def delEvent (iom fd : ℕ) : Critical Lock :=
  .seq (only (.ioManager iom)) (maybe (.hold (.fdContext iom fd) log))

/-- `FdContext::triggerEvent`, once for each event, in the scheduler that the event was added in. -/
def triggerEvents : Critical Lock := .many (.anyOf schedule)

/-- `IOManager::cancelEvent` and `IOManager::cancelAll`. -/
def cancelEvents (iom fd : ℕ) : Critical Lock :=
  .seq (only (.ioManager iom)) (maybe (.hold (.fdContext iom fd) (.either log triggerEvents)))

/-- An event that `epoll_wait` reports: something in the pipe, or an event of a descriptor. -/
def reported (iom : ℕ) : Critical Lock :=
  .either (.many fileCall) (.anyOf fun fd => .hold (.fdContext iom fd) (.either log triggerEvents))

/-- A round of the loop of `IOManager::idle`. -/
def idleRound (iom : ℕ) : Critical Lock :=
  .seq (ioManagerStopping iom)
    (.either log (.seq (listExpireCb iom) (.seq (maybe (schedule iom)) (.many (reported iom)))))

/-! ## The order -/

/-- A call of the runtime. -/
inductive Call where
  | fdManagerGet
  | fdManagerDel
  | appenderLog (appender : ℕ)
  | appenderGet (appender : ℕ)
  | log
  | addAppender (logger : Option ℕ) (appender : ℕ)
  | loggerGet (logger : Option ℕ)
  | setFormatter (logger : Option ℕ)
  | loggerToYaml (logger : Option ℕ)
  | getLogger
  | loggerManagerToYaml
  | setValue (var : ℕ)
  | configVarGet (var : ℕ)
  | configToString (var : ℕ)
  | fromString (var : ℕ)
  | lookupBase
  | lookup
  | loadFromYaml
  | visit
  | schedule (s : ℕ)
  | schedulerStopping (s : ℕ)
  | runRound (s : ℕ)
  | fiberSemaphoreWait (sem : ℕ)
  | fiberSemaphoreNotify (sem : ℕ)
  | addTimer (iom : ℕ)
  | timerGet (iom : ℕ)
  | timerReset (iom : ℕ)
  | listExpireCb (iom : ℕ)
  | ioManagerStopping (iom : ℕ)
  | addEvent (iom fd : ℕ)
  | delEvent (iom fd : ℕ)
  | cancelEvents (iom fd : ℕ)
  | idleRound (iom : ℕ)

/-- The code of a call. -/
def Call.code : Call → Critical Lock
  | .fdManagerGet => Locking.fdManagerGet
  | .fdManagerDel => Locking.fdManagerDel
  | .appenderLog appender => Locking.appenderLog appender
  | .appenderGet appender => Locking.appenderGet appender
  | .log => Locking.log
  | .addAppender logger appender => Locking.addAppender logger appender
  | .loggerGet logger => Locking.loggerGet logger
  | .setFormatter logger => Locking.setFormatter logger
  | .loggerToYaml logger => Locking.loggerToYaml logger
  | .getLogger => Locking.getLogger
  | .loggerManagerToYaml => Locking.loggerManagerToYaml
  | .setValue var => Locking.setValue var
  | .configVarGet var => Locking.configVarGet var
  | .configToString var => Locking.configToString var
  | .fromString var => Locking.fromString var
  | .lookupBase => Locking.lookupBase
  | .lookup => Locking.lookup
  | .loadFromYaml => Locking.loadFromYaml
  | .visit => Locking.visit
  | .schedule s => Locking.schedule s
  | .schedulerStopping s => Locking.schedulerStopping s
  | .runRound s => Locking.runRound s
  | .fiberSemaphoreWait sem => Locking.fiberSemaphoreWait sem
  | .fiberSemaphoreNotify sem => Locking.fiberSemaphoreNotify sem
  | .addTimer iom => Locking.addTimer iom
  | .timerGet iom => Locking.timerGet iom
  | .timerReset iom => Locking.timerReset iom
  | .listExpireCb iom => Locking.listExpireCb iom
  | .ioManagerStopping iom => Locking.ioManagerStopping iom
  | .addEvent iom fd => Locking.addEvent iom fd
  | .delEvent iom fd => Locking.delEvent iom fd
  | .cancelEvents iom fd => Locking.cancelEvents iom fd
  | .idleRound iom => Locking.idleRound iom

variable {r : ℕ}

/-- A section of its own. -/
theorem only_above {lock : Lock} (h : r ≤ lock.rank) : (only lock).Above Lock.rank r := ⟨h, trivial⟩

/-- Code that is perhaps run. -/
theorem maybe_above {code : Critical Lock} (h : code.Above Lock.rank r) : (maybe code).Above Lock.rank r :=
  ⟨trivial, h⟩

/-- `FdManager` is locked inside of everything else. -/
theorem fdManagerGet_above : fdManagerGet.Above Lock.rank 8 :=
  ⟨only_above le_rfl, maybe_above (only_above le_rfl)⟩

/-- So are the calls on files. -/
theorem fileCall_above : fileCall.Above Lock.rank 8 := maybe_above fdManagerGet_above

/-- Appenders write inside of their lock. -/
theorem appenderLog_above (appender : ℕ) : (appenderLog appender).Above Lock.rank 7 := ⟨le_rfl, fileCall_above⟩

/-- A logger gives what it logs to its appenders or to the root, inside of its lock. -/
theorem loggerLog_above (logger : Option ℕ) : (loggerLog logger).Above Lock.rank 5 := by
  have hroot : (maybe (.hold (.logger none) appendersLog)).Above Lock.rank 6 :=
    maybe_above ⟨le_rfl, appenderLog_above⟩
  cases logger with
  | none => exact hroot.mono (by decide)
  | some i =>
    have happenders : appendersLog.Above Lock.rank 6 := fun appender => (appenderLog_above appender).mono (by decide)
    exact maybe_above ⟨le_rfl, happenders, hroot⟩

/-- Logging takes the locks of loggers and what is inside of them. -/
theorem log_above : log.Above Lock.rank 5 := maybe_above loggerLog_above

/-- It may stand inside of the locks of timers and descriptors. -/
theorem log_inside : log.Above Lock.rank 3 := log_above.mono (by decide)

/-- A logger, of whatever kind. -/
theorem le_rank_logger (logger : Option ℕ) : 5 ≤ (Lock.logger logger).rank ∧ (Lock.logger logger).rank ≤ 6 := by
  cases logger with
  | none => exact ⟨Nat.le_succ 5, le_rfl⟩
  | some i => exact ⟨le_rfl, Nat.le_succ 5⟩

/-- Appenders are added inside of the lock of a logger. -/
theorem addAppender_above (logger : Option ℕ) (appender : ℕ) : (addAppender logger appender).Above Lock.rank 5 := by
  obtain ⟨hleast, hmost⟩ := le_rank_logger logger
  have hinside : (Lock.logger logger).rank + 1 ≤ 7 := Nat.succ_le_succ hmost
  exact ⟨hleast, only_above hinside, maybe_above (only_above hinside)⟩

/-- A formatter is set for a logger and for its appenders. -/
theorem setFormatter_above (logger : Option ℕ) : (setFormatter logger).Above Lock.rank 5 :=
  ⟨only_above (le_rank_logger logger).1, only_above (le_rank_logger logger).1⟩

/-- A logger is written out with its appenders. -/
theorem loggerToYaml_above (logger : Option ℕ) : (loggerToYaml logger).Above Lock.rank 5 := by
  obtain ⟨hleast, hmost⟩ := le_rank_logger logger
  exact ⟨hleast, fun appender => only_above (Nat.succ_le_succ hmost)⟩

/-- All loggers are written out. -/
theorem loggerManagerToYaml_above : loggerManagerToYaml.Above Lock.rank 4 := ⟨le_rfl, loggerToYaml_above⟩

/-- The listener of the log looks loggers up and sets them. -/
theorem logListener_above : logListener.Above Lock.rank 4 := by
  have hclear : clearAppenders.Above Lock.rank 4 := fileCall_above.mono (by decide)
  refine ⟨log_above.mono (by decide), fun logger => ⟨only_above le_rfl, ?_, hclear, fun appender => ?_⟩,
    only_above le_rfl, hclear⟩
  · exact maybe_above ((setFormatter_above logger).mono (by decide))
  · exact ⟨maybe_above ((appenderLog_above appender).mono (by decide)),
      (addAppender_above logger appender).mono (by decide)⟩

/-- A variable calls its listeners inside of its lock. -/
theorem setValue_above (var : ℕ) : (setValue var).Above Lock.rank 1 := by
  have hlisteners : (Critical.either log logListener).Above Lock.rank 2 :=
    ⟨log_above.mono (by decide), logListener_above.mono (by decide)⟩
  exact ⟨⟨le_rfl, hlisteners⟩, maybe_above (only_above le_rfl)⟩

/-- A variable is written out, which may be logged. -/
theorem configToString_above (var : ℕ) : (configToString var).Above Lock.rank 1 :=
  ⟨only_above le_rfl, log_above.mono (by decide)⟩

/-- A variable is read, which may be logged. -/
theorem fromString_above (var : ℕ) : (fromString var).Above Lock.rank 1 :=
  ⟨maybe_above (setValue_above var), log_above.mono (by decide)⟩

/-- Whoever is tickled may log. -/
theorem tickle_above : tickle.Above Lock.rank 5 := ⟨log_above, fileCall_above.mono (by decide)⟩

/-- The lock of a scheduler is given back before it is tickled. -/
theorem schedule_above (s : ℕ) : (schedule s).Above Lock.rank 3 :=
  ⟨only_above le_rfl, maybe_above (tickle_above.mono (by decide))⟩

/-- A round of the loop of a scheduler. -/
theorem runRound_above (s : ℕ) : (runRound s).Above Lock.rank 3 :=
  ⟨only_above le_rfl, maybe_above (tickle_above.mono (by decide)), log_above.mono (by decide),
    maybe_above (schedule_above s)⟩

/-- Fibers are scheduled inside of the lock of a semaphore. -/
theorem fiberSemaphoreNotify_above (sem : ℕ) : (fiberSemaphoreNotify sem).Above Lock.rank 2 :=
  ⟨le_rfl, maybe_above schedule_above⟩

/-- Timers are added. -/
theorem addTimer_above (iom : ℕ) : (addTimer iom).Above Lock.rank 2 :=
  ⟨only_above le_rfl, maybe_above (tickle_above.mono (by decide))⟩

/-- Timers that have expired are logged inside of the lock of all timers. -/
theorem listExpireCb_above (iom : ℕ) : (listExpireCb iom).Above Lock.rank 2 :=
  ⟨only_above le_rfl, maybe_above ⟨le_rfl, log_inside⟩⟩

/-- Whether an `IOManager` can stop. -/
theorem ioManagerStopping_above (iom : ℕ) : (ioManagerStopping iom).Above Lock.rank 2 :=
  ⟨only_above le_rfl, maybe_above (only_above (Nat.le_succ 2))⟩

/-- Events are added. -/
theorem addEvent_above (iom fd : ℕ) : (addEvent iom fd).Above Lock.rank 2 :=
  ⟨only_above le_rfl, maybe_above (only_above le_rfl), le_rfl, log_inside⟩

/-- Events are deleted. -/
theorem delEvent_above (iom fd : ℕ) : (delEvent iom fd).Above Lock.rank 2 :=
  ⟨only_above le_rfl, maybe_above ⟨le_rfl, log_inside⟩⟩

/-- Fibers are scheduled inside of the lock of a descriptor. -/
theorem trigger_above (iom fd : ℕ) : (Critical.hold (Lock.fdContext iom fd) (.either log triggerEvents)).Above
    Lock.rank 2 :=
  ⟨le_rfl, log_inside, schedule_above⟩

/-- Events are cancelled. -/
theorem cancelEvents_above (iom fd : ℕ) : (cancelEvents iom fd).Above Lock.rank 2 :=
  ⟨only_above le_rfl, maybe_above (trigger_above iom fd)⟩

/-- A round of the loop of an idle fiber. -/
theorem idleRound_above (iom : ℕ) : (idleRound iom).Above Lock.rank 2 :=
  ⟨ioManagerStopping_above iom, log_above.mono (by decide), listExpireCb_above iom,
    maybe_above ((schedule_above iom).mono (by decide)), fileCall_above.mono (by decide), trigger_above iom⟩

/-- **Every call keeps the order.** -/
theorem code_above (call : Call) : call.code.Above Lock.rank 0 := by
  have hzero {code : Critical Lock} {r : ℕ} (h : code.Above Lock.rank r) : code.Above Lock.rank 0 :=
    h.mono (Nat.zero_le r)
  cases call with
  | fdManagerGet => exact hzero fdManagerGet_above
  | fdManagerDel => exact only_above (Nat.zero_le _)
  | appenderLog appender => exact hzero (appenderLog_above appender)
  | appenderGet appender => exact only_above (Nat.zero_le _)
  | log => exact hzero log_above
  | addAppender logger appender => exact hzero (addAppender_above logger appender)
  | loggerGet logger => exact only_above (Nat.zero_le _)
  | setFormatter logger => exact hzero (setFormatter_above logger)
  | loggerToYaml logger => exact hzero (loggerToYaml_above logger)
  | getLogger => exact only_above (Nat.zero_le _)
  | loggerManagerToYaml => exact hzero loggerManagerToYaml_above
  | setValue var => exact hzero (setValue_above var)
  | configVarGet var => exact only_above (Nat.zero_le _)
  | configToString var => exact hzero (configToString_above var)
  | fromString var => exact hzero (fromString_above var)
  | lookupBase => exact only_above (Nat.zero_le _)
  | lookup =>
    exact ⟨maybe_above ⟨only_above (Nat.zero_le _), hzero log_above⟩, hzero log_above, only_above (Nat.zero_le _)⟩
  | loadFromYaml =>
    exact ⟨hzero log_above, only_above (Nat.zero_le _), maybe_above fun var => hzero (fromString_above var)⟩
  | visit => exact ⟨Nat.zero_le _, configToString_above⟩
  | schedule s => exact hzero (schedule_above s)
  | schedulerStopping s => exact only_above (Nat.zero_le _)
  | runRound s => exact hzero (runRound_above s)
  | fiberSemaphoreWait sem => exact only_above (Nat.zero_le _)
  | fiberSemaphoreNotify sem => exact hzero (fiberSemaphoreNotify_above sem)
  | addTimer iom => exact hzero (addTimer_above iom)
  | timerGet iom => exact only_above (Nat.zero_le _)
  | timerReset iom => exact maybe_above (hzero (addTimer_above iom))
  | listExpireCb iom => exact hzero (listExpireCb_above iom)
  | ioManagerStopping iom => exact hzero (ioManagerStopping_above iom)
  | addEvent iom fd => exact hzero (addEvent_above iom fd)
  | delEvent iom fd => exact hzero (delEvent_above iom fd)
  | cancelEvents iom fd => exact hzero (cancelEvents_above iom fd)
  | idleRound iom => exact hzero (idleRound_above iom)

/-- What a thread does: calls, one after the other. -/
def calls : Critical Lock := .many (.anyOf Call.code)

/-- **No deadlock.** Threads make any calls, and a lock that nobody holds is given to whoever asks for it. Whatever
was done so far, somebody can go on unless all are through, and the rest can be done, after which nothing is held. -/
theorem no_deadlock {W : Type} [Finite W] [DecidableEq W] {grants : (W → List Lock) → W → Lock → Prop}
    (hgrants : ∀ held w lock, (∀ u, lock ∉ held u) → grants held w lock) {todo : W → List (LockAction Lock)}
    (hrun : ∀ w, calls.Run (todo w)) {s : LockOrder.Threads W Lock}
    (h : LockOrder.Reaches grants (LockOrder.start todo) s) :
    (∀ w, s.todo w ≠ [] → ∃ s', LockOrder.Step grants s s') ∧
      ∃ s', LockOrder.Reaches grants s s' ∧ ∀ w, s'.todo w = [] ∧ s'.held w = [] := by
  have hordered : LockOrder.Ordered Lock.rank s :=
    h.ordered (LockOrder.ordered_start hrun fun _ => code_above)
  exact ⟨fun w hw => LockOrder.exists_step hgrants hordered hw, LockOrder.exists_end hgrants hordered⟩

/-- A thread that adds an event and logs that it could not, and one that writes out the logger. -/
def twoThreads : Bool → List (LockAction Lock)
  | false => [.lock (.ioManager 0), .unlock (.ioManager 0), .lock (.fdContext 0 5), .lock (.logger (some 0)),
      .unlock (.logger (some 0)), .unlock (.fdContext 0 5)]
  | true => [.lock (.logger (some 0)), .unlock (.logger (some 0))]

/-- Their calls. -/
theorem run_twoThreads (w : Bool) : calls.Run (twoThreads w) := by
  have hcall {t : List (LockAction Lock)} (call : Call) (h : call.code.Run t) : calls.Run t := by
    have hmany := Run.again (Run.anyOf call h) (Run.done : calls.Run [])
    rwa [List.append_nil] at hmany
  cases w with
  | false =>
    have hlog : log.Run [.lock (.logger (some 0)), .unlock (.logger (some 0))] :=
      Run.that (Run.anyOf (some 0) (Run.that (Run.hold (Run.this Run.done))))
    have hlogs : (Critical.many log).Run [.lock (.logger (some 0)), .unlock (.logger (some 0))] :=
      Run.again hlog Run.done
    exact hcall (.addEvent 0 5) (Run.seq (Run.hold Run.skip) (Run.seq (Run.this Run.skip) (Run.hold hlogs)))
  | true => exact hcall (.loggerToYaml (some 0)) (Run.hold Run.done)

/-- While the first thread logs inside of the lock of the descriptor, the other one waits, and both come to an end. -/
theorem no_deadlock_twoThreads :
    ∃ s : LockOrder.Threads Bool Lock,
      LockOrder.Reaches (fun held _ lock => ∀ u, lock ∉ held u) (LockOrder.start twoThreads) s ∧
        s.held false = [.logger (some 0), .fdContext 0 5] ∧ s.todo true ≠ [] ∧
        ∃ s', LockOrder.Reaches (fun held _ lock => ∀ u, lock ∉ held u) s s' ∧
          ∀ w, s'.todo w = [] ∧ s'.held w = [] := by
  have hreaches : LockOrder.Reaches (fun held _ lock => ∀ u, lock ∉ held u) (LockOrder.start twoThreads) _ :=
    (((Relation.ReflTransGen.refl.tail (.lock (w := false) rfl (by decide))).tail (.unlock (w := false) rfl)).tail
      (.lock (w := false) rfl (by decide))).tail (.lock (w := false) rfl (by decide))
  refine ⟨_, hreaches, rfl, ?_, (no_deadlock (fun _ _ _ h => h) run_twoThreads hreaches).2⟩
  exact List.cons_ne_nil _ _

end Bobliew.Locking
