import Bobliew.Lib.Runs
import Bobliew.Log.Formatter

/-!
# Loggers and their appenders

An appender formats with its own formatter or with the one of its logger. A logger passes its formatter on to
an appender without one when the appender is attached, and to all appenders whose flag `m_hasFormatter` is
unset when the formatter of the logger is set. No setter ever sets that flag, so setting the formatter of a
logger overwrites the formatters that its appenders were given.

A run keeps the formatters apart exactly if the logger is never set to another formatter than an attached
appender was given.
-/

namespace Bobliew

open Http (Bytes asciiText)

/-- `LogLevel::Level`. -/
inductive LogLevel where
  | unknow
  | debug
  | info
  | warn
  | error
  | fatal
  deriving DecidableEq

/-- `LogFormatter::LogFormatter`. -/
def LogFormatter.new (pattern : Bytes) : LogFormatter :=
  (init (pattern.length + 1) pattern).getD ⟨pattern, [], true⟩

/-- The constructor gives what `init` ends with. -/
theorem LogFormatter.init_eq_new (pattern : Bytes) {fuel : ℕ} (h : pattern.length < fuel) :
    init fuel pattern = some (new pattern) := by
  obtain ⟨f, hf⟩ := init_ends pattern
  rw [new, hf fuel h, hf _ (Nat.lt_succ_self _), Option.getD_some]

/-- The classes of appenders. -/
inductive AppenderClass where
  | fileLogAppender (m_filename : Bytes)
  | stdoutLogAppender
  deriving DecidableEq

/-- A `LogAppender` object. -/
structure LogAppender where
  cls : AppenderClass
  m_hasFormatter : Bool
  m_level : LogLevel
  m_formatter : Option LogFormatter
  deriving DecidableEq

namespace LogAppender

/-- An appender as the constructor of its class makes it. -/
def new (cls : AppenderClass) : LogAppender where
  cls := cls
  m_hasFormatter := false
  m_level := .debug
  m_formatter := none

/-- `LogAppender::setFormatter`. -/
def setFormatter (appender : LogAppender) (val : Option LogFormatter) : LogAppender :=
  { appender with m_formatter := val }

/-- `LogAppender::setLevel`. -/
def setLevel (appender : LogAppender) (val : LogLevel) : LogAppender := { appender with m_level := val }

end LogAppender

/-- The appenders by their addresses. -/
abbrev AppenderHeap := ℕ → LogAppender

/-- A `Logger` object, with the addresses of its appenders. -/
structure Logger where
  m_name : Bytes
  m_level : LogLevel
  m_formatter : Option LogFormatter
  m_appenders : List ℕ
  deriving DecidableEq

namespace Logger

variable (logger : Logger) (heap : AppenderHeap)

/-- The pattern that every logger starts with. -/
def defaultPattern : Bytes :=
  asciiText "%d{%Y-%m-%d %H:%M:%S}%T%t%T%N%T%F%T[%p]%T[%c]%T%f:%l%T%m%n".toList

/-- `Logger::Logger`. -/
def new (name : Bytes) : Logger where
  m_name := name
  m_level := .debug
  m_formatter := some (LogFormatter.new defaultPattern)
  m_appenders := []

/-- `Logger::setLevel`. -/
def setLevel (val : LogLevel) : Logger := { logger with m_level := val }

/-- `Logger::clearAppenders`. -/
def clearAppenders : Logger := { logger with m_appenders := [] }

/-- `Logger::addAppender`. -/
def addAppender (appender : ℕ) : Logger × AppenderHeap :=
  ({ logger with m_appenders := logger.m_appenders ++ [appender] },
    if (heap appender).m_formatter = none then
      Function.update heap appender { heap appender with m_formatter := logger.m_formatter }
    else heap)

/-- The loop of `Logger::setFormatter` over the appenders. -/
def passOn (val : Option LogFormatter) : List ℕ → AppenderHeap → AppenderHeap
  | [], heap => heap
  | i :: rest, heap =>
    if (heap i).m_hasFormatter = false then
      passOn val rest (Function.update heap i { heap i with m_formatter := val })
    else passOn val rest heap

/-- `Logger::setFormatter`. -/
def setFormatter (val : Option LogFormatter) : Logger × AppenderHeap :=
  ({ logger with m_formatter := val }, passOn val logger.m_appenders heap)

/-- `Logger::setFormatter` with a pattern. -/
def setPattern (val : Bytes) : Logger × AppenderHeap :=
  if (LogFormatter.new val).m_error then (logger, heap)
  else logger.setFormatter heap (some (LogFormatter.new val))

/-- What an appender is left with when its logger passes a formatter on. -/
theorem passOn_apply (val : Option LogFormatter) (appenders : List ℕ) (heap : AppenderHeap) (a : ℕ) :
    passOn val appenders heap a =
      if a ∈ appenders ∧ (heap a).m_hasFormatter = false then { heap a with m_formatter := val } else heap a := by
  induction appenders generalizing heap with
  | nil => simp [passOn]
  | cons i rest ih =>
    rw [passOn]
    split
    · rename_i hflag
      rw [ih]
      by_cases hai : a = i
      · subst hai
        simp [hflag]
      · simp [hai]
    · rename_i hflag
      rw [ih]
      by_cases hai : a = i
      · subst hai
        simp [hflag]
      · simp [hai]

/-- What an appender is left with when one is attached. -/
theorem addAppender_heap (logger : Logger) (heap : AppenderHeap) (a b : ℕ) :
    (logger.addAppender heap a).2 b =
      if b = a then { heap b with m_formatter := (heap b).m_formatter.or logger.m_formatter } else heap b := by
  by_cases hba : b = a
  · subst hba
    cases hnone : (heap b).m_formatter with
    | none => simp [addAppender, hnone]
    | some f =>
      simp only [addAppender, hnone, reduceCtorEq, if_false, if_true, Option.some_or]
      rw [← hnone]
  · rw [addAppender, if_neg hba]
    split
    · exact Function.update_of_ne hba _ _
    · rfl

end Logger

/-! ## Runs -/

/-- A call that attaches an appender or sets a formatter. -/
inductive LogCall where
  | addAppender (appender : ℕ)
  | setFormatter (val : Option LogFormatter)
  | setPattern (val : Bytes)
  | setAppenderFormatter (appender : ℕ) (val : Option LogFormatter)

/-- A logger with the appenders there are. -/
structure Logging where
  logger : Logger
  heap : AppenderHeap

namespace Logging

/-- A new logger, and appenders that were just made. -/
def new (name : Bytes) (classes : ℕ → AppenderClass) : Logging where
  logger := Logger.new name
  heap := fun a => LogAppender.new (classes a)

/-- Make a call. -/
def run (s : Logging) : LogCall → Logging
  | .addAppender a => ⟨(s.logger.addAppender s.heap a).1, (s.logger.addAppender s.heap a).2⟩
  | .setFormatter val => ⟨(s.logger.setFormatter s.heap val).1, (s.logger.setFormatter s.heap val).2⟩
  | .setPattern val => ⟨(s.logger.setPattern s.heap val).1, (s.logger.setPattern s.heap val).2⟩
  | .setAppenderFormatter a val => ⟨s.logger, Function.update s.heap a ((s.heap a).setFormatter val)⟩

/-- Make calls. -/
def after (s : Logging) (calls : List LogCall) : Logging := calls.foldl run s

/-- What a call sets as the formatter of an appender. -/
def setOn (a : ℕ) : LogCall → Option (Option LogFormatter)
  | .setAppenderFormatter b val => if b = a then some val else none
  | _ => none

/-- The formatter most recently set on an appender through `LogAppender::setFormatter`. -/
def lastSet (calls : List LogCall) (a : ℕ) : Option (Option LogFormatter) :=
  (calls.filterMap (setOn a)).getLast?

/-- Each attached appender has the formatter most recently set on it, or the one of the logger if none was. -/
def KeepsFormatters (s : Logging) (calls : List LogCall) : Prop :=
  ∀ a ∈ s.logger.m_appenders, (s.heap a).m_formatter = (lastSet calls a).getD s.logger.m_formatter

/-- A call does not take a formatter from an appender: the logger is set to no other formatter than its
appenders were given, and no appender that was given a null formatter is attached to a logger with another one. -/
def Respects (s : Logging) (calls : List LogCall) : LogCall → Prop
  | .addAppender a => lastSet calls a = some none → s.logger.m_formatter = none
  | .setFormatter val => ∀ a ∈ s.logger.m_appenders, ∀ given, lastSet calls a = some given → given = val
  | .setPattern val => (LogFormatter.new val).m_error = false →
      ∀ a ∈ s.logger.m_appenders, ∀ given, lastSet calls a = some given → given = some (LogFormatter.new val)
  | .setAppenderFormatter _ _ => True

/-- What holds whatever is called: no flag is ever set, and an appender that is not attached has what was set on
it. -/
structure Unflagged (s : Logging) (calls : List LogCall) : Prop where
  flag : ∀ a, (s.heap a).m_hasFormatter = false
  apart : ∀ a, a ∉ s.logger.m_appenders → (s.heap a).m_formatter = (lastSet calls a).getD none

variable {s : Logging} {calls : List LogCall}

/-- One more call, as an appender sees it. -/
theorem lastSet_concat (calls : List LogCall) (call : LogCall) (a : ℕ) :
    lastSet (calls ++ [call]) a = (setOn a call).or (lastSet calls a) := by
  rw [lastSet, List.filterMap_append, List.getLast?_append]
  cases h : setOn a call <;> simp [h, lastSet]

/-- Passing a formatter on, when no flag is set. -/
theorem setFormatter_heap (hs : s.Unflagged calls) (val : Option LogFormatter) (a : ℕ) :
    (s.logger.setFormatter s.heap val).2 a =
      if a ∈ s.logger.m_appenders then { s.heap a with m_formatter := val } else s.heap a := by
  change Logger.passOn val s.logger.m_appenders s.heap a = _
  rw [Logger.passOn_apply]
  simp only [hs.flag a, and_true]

/-- An invalid pattern changes nothing. -/
theorem run_setPattern_of_error (s : Logging) {val : Bytes} (h : (LogFormatter.new val).m_error = true) :
    s.run (.setPattern val) = s := by
  simp [run, Logger.setPattern, h]

/-- A valid pattern is set as a formatter is. -/
theorem run_setPattern_of_valid (s : Logging) {val : Bytes} (h : (LogFormatter.new val).m_error = false) :
    s.run (.setPattern val) = s.run (.setFormatter (some (LogFormatter.new val))) := by
  simp [run, Logger.setPattern, h]

/-- Setting a formatter keeps what always holds. -/
theorem Unflagged.run_setFormatter (hs : s.Unflagged calls) (val : Option LogFormatter) {call : LogCall}
    (hcall : ∀ a, setOn a call = none) :
    (s.run (.setFormatter val)).Unflagged (calls ++ [call]) := by
  refine ⟨fun a => ?_, fun a ha => ?_⟩
  · change ((s.logger.setFormatter s.heap val).2 a).m_hasFormatter = false
    rw [setFormatter_heap hs]
    split
    · exact hs.flag a
    · exact hs.flag a
  · have hout : a ∉ s.logger.m_appenders := ha
    change ((s.logger.setFormatter s.heap val).2 a).m_formatter = _
    rw [setFormatter_heap hs, if_neg hout, hs.apart a hout, lastSet_concat, hcall, Option.none_or]

/-- A call that changes nothing keeps what always holds. -/
theorem Unflagged.idle (hs : s.Unflagged calls) {call : LogCall} (hcall : ∀ a, setOn a call = none) :
    s.Unflagged (calls ++ [call]) := by
  refine ⟨hs.flag, fun a ha => ?_⟩
  rw [hs.apart a ha, lastSet_concat, hcall, Option.none_or]

/-- Every call keeps what always holds. -/
theorem Unflagged.run (hs : s.Unflagged calls) (call : LogCall) : (s.run call).Unflagged (calls ++ [call]) := by
  cases call with
  | addAppender a =>
    refine ⟨fun b => ?_, fun b hb => ?_⟩
    · change ((s.logger.addAppender s.heap a).2 b).m_hasFormatter = false
      rw [Logger.addAppender_heap]
      split
      · exact hs.flag b
      · exact hs.flag b
    · have hout : b ∉ s.logger.m_appenders ++ [a] := hb
      simp only [List.mem_append, List.mem_singleton, not_or] at hout
      change ((s.logger.addAppender s.heap a).2 b).m_formatter = _
      rw [Logger.addAppender_heap, if_neg hout.2, hs.apart b hout.1, lastSet_concat]
      rfl
  | setFormatter val => exact hs.run_setFormatter val fun _ => rfl
  | setPattern val =>
    cases herror : (LogFormatter.new val).m_error with
    | true =>
      rw [run_setPattern_of_error s herror]
      exact hs.idle fun _ => rfl
    | false =>
      rw [run_setPattern_of_valid s herror]
      exact hs.run_setFormatter _ fun _ => rfl
  | setAppenderFormatter a val =>
    refine ⟨fun b => ?_, fun b hb => ?_⟩
    · change (Function.update s.heap a _ b).m_hasFormatter = false
      by_cases hba : b = a
      · subst hba
        rw [Function.update_self]
        exact hs.flag b
      · rw [Function.update_of_ne hba]
        exact hs.flag b
    · have hout : b ∉ s.logger.m_appenders := hb
      change (Function.update s.heap a _ b).m_formatter = _
      rw [lastSet_concat]
      by_cases hba : b = a
      · subst hba
        simp [setOn, LogAppender.setFormatter]
      · have hab : ¬ a = b := fun h => hba h.symm
        rw [Function.update_of_ne hba, hs.apart b hout]
        simp [setOn, hab]

/-- Setting a formatter of the logger keeps the formatters exactly if its appenders were given no other one. -/
theorem keepsFormatters_setFormatter_iff (hs : s.Unflagged calls) (val : Option LogFormatter) {call : LogCall}
    (hcall : ∀ a, setOn a call = none) :
    (s.run (.setFormatter val)).KeepsFormatters (calls ++ [call]) ↔
      ∀ a ∈ s.logger.m_appenders, ∀ given, lastSet calls a = some given → given = val := by
  refine forall₂_congr fun a ha => ?_
  have hin : a ∈ s.logger.m_appenders := ha
  change ((s.logger.setFormatter s.heap val).2 a).m_formatter = (lastSet (calls ++ [call]) a).getD val ↔ _
  rw [setFormatter_heap hs, if_pos hin, lastSet_concat, hcall, Option.none_or]
  cases lastSet calls a with
  | none => simp
  | some given => simp [eq_comm]

/-- An appender that is attached keeps its formatter unless this was set to none, which is taken for not set. -/
theorem keepsFormatters_addAppender_iff (hs : s.Unflagged calls) (hkeep : s.KeepsFormatters calls) (a : ℕ) :
    (s.run (.addAppender a)).KeepsFormatters (calls ++ [.addAppender a]) ↔ s.Respects calls (.addAppender a) := by
  have hlast : ∀ b, lastSet (calls ++ [.addAppender a]) b = lastSet calls b := fun b => by
    rw [lastSet_concat]
    rfl
  have hheap : ∀ b, (s.run (.addAppender a)).heap b = if b = a then
      { s.heap b with m_formatter := (s.heap b).m_formatter.or s.logger.m_formatter } else s.heap b :=
    Logger.addAppender_heap s.logger s.heap a
  -- Whether it was attached before or not, the appender has what was set on it.
  have hgiven : ∀ given, lastSet calls a = some given → (s.heap a).m_formatter = given := by
    intro given hlast
    by_cases ha : a ∈ s.logger.m_appenders
    · rw [hkeep a ha, hlast, Option.getD_some]
    · rw [hs.apart a ha, hlast, Option.getD_some]
  have hfree : lastSet calls a = none → (s.heap a).m_formatter.or s.logger.m_formatter = s.logger.m_formatter := by
    intro hlast
    by_cases ha : a ∈ s.logger.m_appenders
    · rw [hkeep a ha, hlast, Option.getD_none, Option.or_self]
    · rw [hs.apart a ha, hlast, Option.getD_none, Option.none_or]
  have hiff : (s.run (.addAppender a)).KeepsFormatters (calls ++ [.addAppender a]) ↔
      (s.heap a).m_formatter.or s.logger.m_formatter = (lastSet calls a).getD s.logger.m_formatter := by
    constructor
    · intro hafter
      have ha := hafter a (List.mem_append_right _ List.mem_cons_self)
      rw [hheap, if_pos rfl, hlast] at ha
      exact ha
    · intro heq b hb
      rw [hlast, hheap]
      by_cases hba : b = a
      · subst hba
        rw [if_pos rfl]
        exact heq
      · rw [if_neg hba]
        exact hkeep b ((List.mem_append.mp hb).resolve_right fun h => hba (List.mem_singleton.mp h))
  rw [hiff, Respects]
  cases hcase : lastSet calls a with
  | none => simp [hfree hcase]
  | some given =>
    rw [hgiven given hcase]
    cases given with
    | none => simp
    | some f => simp

/-- **One call.** Where all formatters are kept, they are kept by a call exactly if it respects them. -/
theorem keepsFormatters_run_iff (hs : s.Unflagged calls) (hkeep : s.KeepsFormatters calls) (call : LogCall) :
    (s.run call).KeepsFormatters (calls ++ [call]) ↔ s.Respects calls call := by
  cases call with
  | addAppender a => exact keepsFormatters_addAppender_iff hs hkeep a
  | setFormatter val => exact keepsFormatters_setFormatter_iff hs val fun _ => rfl
  | setPattern val =>
    cases herror : (LogFormatter.new val).m_error with
    | true =>
      rw [run_setPattern_of_error s herror, Respects, herror]
      refine iff_of_true (fun a ha => ?_) fun hvalid => absurd hvalid Bool.noConfusion
      rw [lastSet_concat]
      exact hkeep a ha
    | false =>
      rw [run_setPattern_of_valid s herror, Respects, herror]
      simp only [true_imp_iff]
      exact keepsFormatters_setFormatter_iff hs _ fun _ => rfl
  | setAppenderFormatter a val =>
    refine iff_of_true (fun b hb => ?_) trivial
    change (Function.update s.heap a _ b).m_formatter = _
    rw [lastSet_concat]
    by_cases hba : b = a
    · subst hba
      simp [setOn, LogAppender.setFormatter]
    · have hab : ¬ a = b := fun h => hba h.symm
      rw [Function.update_of_ne hba, hkeep b hb]
      simp [setOn, hab, run]

/-- What always holds, after any calls on a new logger. -/
theorem unflagged_after (name : Bytes) (classes : ℕ → AppenderClass) (calls : List LogCall) :
    ((new name classes).after calls).Unflagged calls := by
  induction calls using List.reverseRecOn with
  | nil => exact ⟨fun _ => rfl, fun _ _ => rfl⟩
  | append_singleton earlier call ih =>
    rw [after, List.foldl_concat]
    exact ih.run call

/-- **When formatters are kept.** A pattern with an error changes nothing. Along any calls on a new logger and its
appenders each attached appender has the formatter most recently set on it, or the one of the logger if none was,
exactly if each of the calls respects the formatters where it is made. -/
theorem keepsFormatters_iff (name : Bytes) (classes : ℕ → AppenderClass) (calls : List LogCall) :
    (∀ (s : Logging) (val : Bytes), (LogFormatter.new val).m_error = true → s.run (.setPattern val) = s) ∧
      ((∀ earlier later, calls = earlier ++ later → ((new name classes).after earlier).KeepsFormatters earlier) ↔
        ∀ earlier call later, calls = earlier ++ call :: later →
          ((new name classes).after earlier).Respects earlier call) := by
  refine ⟨fun s _ herror => run_setPattern_of_error s herror, ?_⟩
  refine Runs.forall_earlier_iff (fun a ha => absurd ha List.not_mem_nil) (fun earlier call hkeep => ?_) calls
  rw [after, List.foldl_concat]
  exact keepsFormatters_run_iff (unflagged_after name classes earlier) hkeep call

/-- Setting the formatter of a logger takes the one that its appender was given. -/
theorem not_keepsFormatters :
    ¬ ∀ (name : Bytes) (classes : ℕ → AppenderClass) (calls : List LogCall),
      ((new name classes).after calls).KeepsFormatters calls := by
  intro h
  have hkeep := h [] (fun _ => .stdoutLogAppender)
    [.addAppender 0, .setAppenderFormatter 0 (some (LogFormatter.new [109])),
      .setFormatter (some (LogFormatter.new [110]))] 0 (by decide)
  exact absurd hkeep (by decide)

end Logging

end Bobliew
