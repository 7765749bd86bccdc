import Bobliew.Log.Defines

/-!
# Loggers follow the configuration

When the configured definitions change, the listener goes over the new set. A definition that the old set does
not hold in this form sets the level, the formatter and the appenders of its logger. Then the loggers that only
the old set names are silenced.

The listener makes an appender of the type 1 or 2 and none of another one, which the reader lets through with
the type 0: setting its level calls a member of a null pointer. It never gives an appender the formatter in its
definition. The loggers follow the definitions exactly if neither matters.
-/

namespace Bobliew

open Http (Bytes asciiText)

/-- The loggers by their names, and the appenders with the next address that is free. -/
structure LoggerManager where
  m_loggers : Bytes → Option Logger
  heap : AppenderHeap
  next : ℕ

namespace LoggerManager

/-- `BOBLIEW_LOG_NAME`: the logger of a name, made when there is none. -/
def getLogger (m : LoggerManager) (name : Bytes) : Logger := (m.m_loggers name).getD (Logger.new name)

/-- The appender that the listener makes for a definition; none for a type that is neither 1 nor 2. -/
def newAppender (a : LogAppenderDefine) : Option LogAppender :=
  if a.type = 1 then some (LogAppender.new (.fileLogAppender a.file))
  else if a.type = 2 then some (LogAppender.new .stdoutLogAppender)
  else none

/-- The loop of the listener over the appenders of a definition; `none` when a null pointer is dereferenced. -/
def addAppenders : List LogAppenderDefine → Logger → AppenderHeap → ℕ → Option (Logger × AppenderHeap × ℕ)
  | [], logger, heap, next => some (logger, heap, next)
  | a :: rest, logger, heap, next =>
    match newAppender a with
    | none => none
    | some ap =>
      let added := logger.addAppender (Function.update heap next (ap.setLevel a.level)) next
      addAppenders rest added.1 added.2 (next + 1)

/-- The level and the formatter of a definition, on its logger. -/
def setFields (m : LoggerManager) (i : LogDefine) : Logger × AppenderHeap :=
  let logger := (m.getLogger i.name).setLevel i.level
  if i.formatter ≠ [] then logger.setPattern m.heap i.formatter else (logger, m.heap)

/-- What the listener does for a definition that is new or changed. -/
def configure (m : LoggerManager) (i : LogDefine) : Option LoggerManager :=
  let fields := m.setFields i
  match addAppenders i.appenders fields.1.clearAppenders fields.2 m.next with
  | none => none
  | some (logger, heap, next) => some ⟨Function.update m.m_loggers i.name (some logger), heap, next⟩

/-- The loop of the listener over the new definitions. -/
def applyNew (old : List LogDefine) : List LogDefine → LoggerManager → Option LoggerManager
  | [], m => some m
  | i :: rest, m =>
    match OrderedList.find LogDefine.less i old with
    | none => (m.configure i).bind (applyNew old rest)
    | some it => if i = it then applyNew old rest m else (m.configure i).bind (applyNew old rest)

/-- What the listener does for a definition that is gone. -/
def silence (m : LoggerManager) (i : LogDefine) : LoggerManager :=
  { m with m_loggers :=
      Function.update m.m_loggers i.name (some ((m.getLogger i.name).setLevel .unknow).clearAppenders) }

/-- The loop of the listener over the old definitions. -/
def removeOld (new : List LogDefine) : List LogDefine → LoggerManager → LoggerManager
  | [], m => m
  | i :: rest, m =>
    match OrderedList.find LogDefine.less i new with
    | none => removeOld new rest (m.silence i)
    | some _ => removeOld new rest m

/-- The listener of `LogIniter`; `none` when it dereferences a null pointer. -/
def listener (m : LoggerManager) (old new : List LogDefine) : Option LoggerManager :=
  (applyNew old new m).map (removeOld new old)

/-! ## What is expected -/

/-- The addresses of the appenders of a logger. -/
def appendersOf (m : LoggerManager) (name : Bytes) : List ℕ := ((m.m_loggers name).map Logger.m_appenders).getD []

/-- The appenders of all loggers have been made. -/
def Allocated (m : LoggerManager) : Prop := ∀ name, ∀ a ∈ m.appendersOf name, a < m.next

/-- The formatter of the logger of a definition, once the definition is applied. -/
def formatterFor (m : LoggerManager) (i : LogDefine) : Option LogFormatter :=
  if i.formatter ≠ [] ∧ (LogFormatter.new i.formatter).m_error = false then some (LogFormatter.new i.formatter)
  else (m.getLogger i.name).m_formatter

/-- An appender is the one of a definition. -/
structure Matches (a : LogAppenderDefine) (ap : LogAppender) : Prop where
  cls : (a.type = 1 ∧ ap.cls = .fileLogAppender a.file) ∨ (a.type = 2 ∧ ap.cls = .stdoutLogAppender)
  level : ap.m_level = a.level
  formatter : a.formatter ≠ [] → ap.m_formatter = some (LogFormatter.new a.formatter)

/-- The logger of a definition is as the definition says: its level, its formatter where it has a valid one, and
its appenders in order. -/
def Follows (m m' : LoggerManager) (i : LogDefine) : Prop :=
  ∃ logger, m'.m_loggers i.name = some logger ∧ logger.m_level = i.level ∧
    logger.m_formatter = m.formatterFor i ∧
    List.Forall₂ Matches i.appenders (logger.m_appenders.map m'.heap)

/-- Loggers follow a change of the definitions: those of definitions that are new or changed are as these say,
those of unchanged definitions are as they were, with their appenders unless such a one shares them, and those
that only the old set names are silenced. -/
structure Followed (m m' : LoggerManager) (old new : List LogDefine) : Prop where
  changed : ∀ i ∈ new, i ∉ old → Follows m m' i
  unchanged : ∀ i ∈ new, i ∈ old → m'.m_loggers i.name = m.m_loggers i.name ∧
    ∀ a ∈ m.appendersOf i.name, (∀ j ∈ new, j ∉ old → a ∉ m.appendersOf j.name) → m'.heap a = m.heap a
  removed : ∀ i ∈ old, (∀ j ∈ new, j.name ≠ i.name) →
    ∃ logger, m'.m_loggers i.name = some logger ∧ logger.m_level = .unknow ∧ logger.m_appenders = []

/-! ## One definition -/

variable {m m' : LoggerManager} {i : LogDefine}

/-- An appender is what is left of a definition, with the formatter of its logger. -/
def Attached (formatter : Option LogFormatter) (a : LogAppenderDefine) (ap : LogAppender) : Prop :=
  ∃ made, newAppender a = some made ∧ ap = { made.setLevel a.level with m_formatter := formatter }

/-- Where the loop over appenders ends: each one is at a new address, with its level and the formatter of the
logger. -/
theorem addAppenders_spec {appenders : List LogAppenderDefine} {logger : Logger} {heap : AppenderHeap} {next : ℕ}
    {r : Logger × AppenderHeap × ℕ} (h : addAppenders appenders logger heap next = some r) :
    r.1 = { logger with m_appenders := logger.m_appenders ++ List.range' next appenders.length } ∧
      r.2.2 = next + appenders.length ∧ (∀ a < next, r.2.1 a = heap a) ∧
      List.Forall₂ (Attached logger.m_formatter) appenders ((List.range' next appenders.length).map r.2.1) := by
  induction appenders generalizing logger heap next with
  | nil =>
    obtain rfl := Option.some.inj h
    exact ⟨by simp, rfl, fun _ _ => rfl, .nil⟩
  | cons a rest ih =>
    rw [addAppenders] at h
    cases hap : newAppender a with
    | none => simp [hap] at h
    | some ap =>
      rw [hap] at h
      obtain ⟨hlogger, hnext, hheap, hforall⟩ := ih h
      have hadded : ∀ b, (logger.addAppender (Function.update heap next (ap.setLevel a.level)) next).2 b =
          if b = next then { ap.setLevel a.level with m_formatter := logger.m_formatter } else heap b := by
        intro b
        rw [Logger.addAppender_heap]
        by_cases hb : b = next
        · subst hb
          have hnone : ap.m_formatter = none := by
            unfold newAppender at hap
            split_ifs at hap <;> obtain rfl := Option.some.inj hap <;> rfl
          simp [LogAppender.setLevel, hnone]
        · simp [hb]
      refine ⟨?_, ?_, fun b hb => ?_, ?_⟩
      · rw [hlogger]
        simp [Logger.addAppender, List.range'_succ]
      · rw [hnext, List.length_cons]
        omega
      · rw [hheap b (by omega), hadded, if_neg (by omega)]
      · rw [List.length_cons, List.range'_succ, List.map_cons]
        refine .cons ⟨ap, hap, ?_⟩ hforall
        rw [hheap next (Nat.lt_succ_self _), hadded, if_pos rfl]

/-- The loop dereferences a null pointer exactly if a type is neither 1 nor 2. -/
theorem addAppenders_eq_none_iff (appenders : List LogAppenderDefine) (logger : Logger) (heap : AppenderHeap)
    (next : ℕ) :
    addAppenders appenders logger heap next = none ↔ ∃ a ∈ appenders, newAppender a = none := by
  induction appenders generalizing logger heap next with
  | nil => simp [addAppenders]
  | cons a rest ih =>
    rw [addAppenders]
    cases hap : newAppender a with
    | none => simp [hap]
    | some ap =>
      simp only [ih, List.mem_cons, exists_eq_or_imp, hap, reduceCtorEq, false_or]

/-- An appender is made for the types 1 and 2. -/
theorem newAppender_eq_none_iff (a : LogAppenderDefine) : newAppender a = none ↔ ¬ (a.type = 1 ∨ a.type = 2) := by
  unfold newAppender
  split_ifs <;> simp_all

/-- A logger that is made has no appenders. -/
theorem m_appenders_getLogger (m : LoggerManager) (name : Bytes) :
    (m.getLogger name).m_appenders = m.appendersOf name := by
  unfold getLogger appendersOf
  cases m.m_loggers name <;> rfl

/-- The level and the formatter of a definition on its logger; only its own appenders change with them. -/
theorem setFields_spec (m : LoggerManager) (i : LogDefine) :
    (m.setFields i).1 =
        { m.getLogger i.name with m_level := i.level, m_formatter := m.formatterFor i } ∧
      ∀ a, a ∉ m.appendersOf i.name → (m.setFields i).2 a = m.heap a := by
  unfold setFields formatterFor
  by_cases hempty : i.formatter = []
  · simp [hempty, Logger.setLevel]
  · cases herror : (LogFormatter.new i.formatter).m_error with
    | true => simp [hempty, herror, Logger.setPattern, Logger.setLevel]
    | false =>
      simp only [hempty, herror, ne_eq, not_false_eq_true, if_true, and_self, Logger.setPattern, Bool.false_eq_true,
        if_false]
      refine ⟨rfl, fun a ha => ?_⟩
      rw [← m_appenders_getLogger] at ha
      change Logger.passOn _ (m.getLogger i.name).m_appenders m.heap a = _
      rw [Logger.passOn_apply, if_neg fun h => ha h.1]

/-- What the definitions that were applied leave: their loggers with new appenders, and everything else as it
was. -/
structure Configured (m m' : LoggerManager) (defines : List LogDefine) : Prop where
  next_le : m.next ≤ m'.next
  others : ∀ name, name ∉ defines.map LogDefine.name → m'.m_loggers name = m.m_loggers name
  each : ∀ i ∈ defines, ∃ logger, m'.m_loggers i.name = some logger ∧ logger.m_level = i.level ∧
    logger.m_formatter = m.formatterFor i ∧
    List.Forall₂ (Attached (m.formatterFor i)) i.appenders (logger.m_appenders.map m'.heap) ∧
    ∀ a ∈ logger.m_appenders, m.next ≤ a ∧ a < m'.next
  frame : ∀ a < m.next, (∀ i ∈ defines, a ∉ m.appendersOf i.name) → m'.heap a = m.heap a

/-- The appenders of all loggers have been made when definitions were applied. -/
theorem Configured.allocated {defines : List LogDefine} (h : Configured m m' defines) (hm : m.Allocated) :
    m'.Allocated := by
  intro name a ha
  by_cases hname : name ∈ defines.map LogDefine.name
  · obtain ⟨i, hi, rfl⟩ := List.mem_map.mp hname
    obtain ⟨logger, hlogger, -, -, -, hnew⟩ := h.each i hi
    rw [appendersOf, hlogger] at ha
    exact (hnew a ha).2
  · rw [appendersOf, h.others name hname] at ha
    exact lt_of_lt_of_le (hm name a ha) h.next_le

/-- Applying one definition. -/
theorem configured_of_configure (h : m.configure i = some m') : Configured m m' [i] := by
  obtain ⟨hfields, hheap⟩ := m.setFields_spec i
  unfold configure at h
  dsimp only at h
  cases hadded : addAppenders i.appenders (m.setFields i).1.clearAppenders (m.setFields i).2 m.next with
  | none => simp [hadded] at h
  | some r =>
    rw [hadded] at h
    obtain ⟨logger, heap, next⟩ := r
    obtain rfl := Option.some.inj h
    obtain ⟨hlogger, hnext, hbelow, hforall⟩ := addAppenders_spec hadded
    simp only [hfields, Logger.clearAppenders, List.nil_append] at hlogger hnext hforall
    refine ⟨?_, fun name hname => ?_, fun j hj => ?_, fun a ha hout => ?_⟩
    · change m.next ≤ next
      omega
    · have hne : name ≠ i.name := by simpa using hname
      exact Function.update_of_ne hne _ _
    · obtain rfl := List.mem_singleton.mp hj
      refine ⟨logger, Function.update_self _ _ _, ?_, ?_, ?_, fun a ha => ?_⟩
      · rw [hlogger]
      · rw [hlogger]
      · rw [hlogger]
        exact hforall
      · rw [hlogger] at ha
        have hrange := List.mem_range'_1.mp ha
        exact ⟨hrange.1, by change a < next; omega⟩
    · exact (hbelow a ha).trans (hheap a (hout i List.mem_cons_self))

/-- Applying definitions after one with another name. -/
theorem Configured.cons {m₁ : LoggerManager} {rest : List LogDefine} (hm : m.Allocated)
    (hname : i.name ∉ rest.map LogDefine.name) (hfirst : Configured m m₁ [i]) (hrest : Configured m₁ m' rest) :
    Configured m m' (i :: rest) := by
  -- The loggers of the rest are still as they were before the first definition.
  have hother : ∀ j ∈ rest, m₁.m_loggers j.name = m.m_loggers j.name := by
    intro j hj
    refine hfirst.others j.name fun hmem => hname ?_
    have heq : j.name = i.name := by simpa using hmem
    exact heq ▸ List.mem_map_of_mem hj
  refine ⟨hfirst.next_le.trans hrest.next_le, fun name hout => ?_, fun j hj => ?_, fun a ha hout => ?_⟩
  · simp only [List.map_cons, List.mem_cons, not_or] at hout
    rw [hrest.others name hout.2, hfirst.others name (by simpa using hout.1)]
  · rcases List.mem_cons.mp hj with rfl | hj
    · obtain ⟨logger, hlogger, hlevel, hformatter, hforall, hnew⟩ := hfirst.each j List.mem_cons_self
      refine ⟨logger, (hrest.others j.name hname).trans hlogger, hlevel, hformatter, ?_, fun a ha =>
        ⟨(hnew a ha).1, lt_of_lt_of_le (hnew a ha).2 hrest.next_le⟩⟩
      -- Its appenders are new, so they are not among those that the rest finds.
      have hkept : logger.m_appenders.map m'.heap = logger.m_appenders.map m₁.heap := by
        refine List.map_congr_left fun a ha => hrest.frame a (hnew a ha).2 fun k hk hmem => ?_
        rw [appendersOf, hother k hk] at hmem
        exact absurd (hm k.name a hmem) (not_lt.mpr (hnew a ha).1)
      rwa [hkept]
    · obtain ⟨logger, hlogger, hlevel, hformatter, hforall, hnew⟩ := hrest.each j hj
      have hsame : m₁.formatterFor j = m.formatterFor j := by
        unfold formatterFor getLogger
        rw [hother j hj]
      rw [hsame] at hformatter hforall
      exact ⟨logger, hlogger, hlevel, hformatter, hforall, fun a ha =>
        ⟨hfirst.next_le.trans (hnew a ha).1, (hnew a ha).2⟩⟩
  · have hrest' : ∀ j ∈ rest, a ∉ m₁.appendersOf j.name := by
      intro j hj
      rw [appendersOf, hother j hj]
      exact hout j (List.mem_cons_of_mem i hj)
    rw [hrest.frame a (lt_of_lt_of_le ha hfirst.next_le) hrest']
    exact hfirst.frame a ha fun j hj => hout j (List.mem_singleton.mp hj ▸ List.mem_cons_self)

/-! ## Sets of definitions -/

/-- Definitions are ordered by their names alone. -/
theorem less_eq (a b : LogDefine) : LogDefine.less a b = Json.keyLess a.name b.name := rfl

/-- No definition is before itself. -/
theorem less_irrefl (a : LogDefine) : LogDefine.less a a = false := by
  rw [Bool.eq_false_iff, LogDefine.less, ne_eq, Http.lexLess_iff]
  exact lt_irrefl _

/-- A set does not hold two definitions of one name. -/
theorem names_nodup {l : List LogDefine} (h : OrderedList.Sorted LogDefine.less l) : (l.map LogDefine.name).Nodup := by
  refine List.pairwise_map.mpr (h.imp fun {a b} hab hname => ?_)
  rw [less_eq, hname, ← less_eq, less_irrefl] at hab
  cases hab

/-- Definitions of one name are found together. -/
theorem find_congr {i j : LogDefine} (h : i.name = j.name) (l : List LogDefine) :
    OrderedList.find LogDefine.less i l = OrderedList.find LogDefine.less j l := by
  have hleft : (fun y => LogDefine.less y i) = fun y => LogDefine.less y j := by
    funext y
    rw [less_eq, less_eq, h]
  have hright : ∀ y, LogDefine.less i y = LogDefine.less j y := fun y => by rw [less_eq, less_eq, h]
  unfold OrderedList.find OrderedList.lowerBound
  rw [hleft]
  simp only [hright]

/-- A set is searched for a name. -/
theorem find_eq_none_iff {l : List LogDefine} (h : OrderedList.Sorted LogDefine.less l) (i : LogDefine) :
    OrderedList.find LogDefine.less i l = none ↔ ∀ j ∈ l, j.name ≠ i.name := by
  constructor
  · intro hnone j hj hname
    rw [find_congr hname.symm, h.find_mem less_irrefl hj] at hnone
    cases hnone
  · intro hall
    by_contra hne
    obtain ⟨j, hj⟩ := Option.ne_none_iff_exists'.mp hne
    obtain ⟨hmem, hless, hless'⟩ := OrderedList.find_spec hj
    exact hall j hmem (Json.eq_of_not_keyLess hless hless')

/-- The listener leaves a definition alone exactly if the old set holds it as it is. -/
theorem applyNew_cons {old : List LogDefine} (hold : OrderedList.Sorted LogDefine.less old) (i : LogDefine)
    (rest : List LogDefine) (m : LoggerManager) :
    applyNew old (i :: rest) m =
      if i ∈ old then applyNew old rest m else (m.configure i).bind (applyNew old rest) := by
  rw [applyNew]
  cases hfind : OrderedList.find LogDefine.less i old with
  | none =>
    have hout : i ∉ old := fun hmem => (find_eq_none_iff hold i).mp hfind i hmem rfl
    rw [if_neg hout]
  | some it =>
    by_cases hmem : i ∈ old
    · rw [hold.find_mem less_irrefl hmem] at hfind
      obtain rfl := Option.some.inj hfind
      rw [if_pos hmem]
      exact if_pos rfl
    · have hne : i ≠ it := fun heq => hmem (heq ▸ (OrderedList.find_spec hfind).1)
      rw [if_neg hmem]
      exact if_neg hne

/-- The definitions that the listener applies. -/
def changedIn (old new : List LogDefine) : List LogDefine := new.filter fun i => decide (i ∉ old)

/-- The loop over the new definitions applies those that are new or changed. -/
theorem configured_of_applyNew {old new : List LogDefine} (hold : OrderedList.Sorted LogDefine.less old)
    (hnew : (new.map LogDefine.name).Nodup) (hm : m.Allocated) (h : applyNew old new m = some m') :
    Configured m m' (changedIn old new) := by
  induction new generalizing m with
  | nil =>
    obtain rfl := Option.some.inj h
    exact ⟨le_refl _, fun _ _ => rfl, fun i hi => absurd hi List.not_mem_nil, fun _ _ _ => rfl⟩
  | cons i rest ih =>
    obtain ⟨hname, hrest⟩ := List.nodup_cons.mp hnew
    rw [applyNew_cons hold] at h
    unfold changedIn at ih ⊢
    split at h
    · rename_i hmem
      rw [List.filter_cons_of_neg (by simpa using hmem)]
      exact ih hrest hm h
    · rename_i hmem
      rw [List.filter_cons_of_pos (by simpa using hmem)]
      obtain ⟨m₁, hfirst, hlast⟩ := Option.bind_eq_some_iff.mp h
      have hone := configured_of_configure hfirst
      refine Configured.cons hm (fun hin => hname ?_) hone (ih hrest (hone.allocated hm) hlast)
      exact (List.filter_sublist.map LogDefine.name).mem hin

/-- Setting up a logger dereferences a null pointer exactly if one of its appenders has another type than 1 or 2. -/
theorem configure_eq_none_iff (m : LoggerManager) (i : LogDefine) :
    m.configure i = none ↔ ∃ a ∈ i.appenders, newAppender a = none := by
  unfold configure
  dsimp only
  split
  · rename_i hnone
    exact iff_of_true rfl ((addAppenders_eq_none_iff _ _ _ _).mp hnone)
  · rename_i hsome
    refine iff_of_false (fun hnone => by cases hnone) fun hnull => ?_
    rw [(addAppenders_eq_none_iff _ _ _ _).mpr hnull] at hsome
    cases hsome

/-- A null pointer is dereferenced exactly if a definition that is applied has an appender that is neither of
the type 1 nor of the type 2. -/
theorem applyNew_eq_none_iff {old : List LogDefine} (hold : OrderedList.Sorted LogDefine.less old)
    (new : List LogDefine) (m : LoggerManager) :
    applyNew old new m = none ↔ ∃ i ∈ new, i ∉ old ∧ ∃ a ∈ i.appenders, newAppender a = none := by
  induction new generalizing m with
  | nil => simp [applyNew]
  | cons i rest ih =>
    rw [applyNew_cons hold]
    split
    · rename_i hmem
      simp [ih, hmem]
    · rename_i hmem
      have hnull := m.configure_eq_none_iff i
      cases hconfigure : m.configure i with
      | none => exact iff_of_true rfl ⟨i, List.mem_cons_self, hmem, hnull.mp hconfigure⟩
      | some m₁ =>
        rw [hconfigure] at hnull
        have hnone : ¬ ∃ a ∈ i.appenders, newAppender a = none := fun h => by cases hnull.mpr h
        change applyNew old rest m₁ = none ↔ _
        rw [ih]
        simp only [List.mem_cons, exists_eq_or_imp, hnone, and_false, false_or]

/-- The loop over the old definitions silences the loggers of the names that are gone and no others. -/
theorem removeOld_spec {new : List LogDefine} (hnew : OrderedList.Sorted LogDefine.less new) (gone : List LogDefine)
    (m : LoggerManager) :
    ((removeOld new gone m).heap = m.heap ∧ (removeOld new gone m).next = m.next) ∧
      (∀ name, (∀ i ∈ gone, i.name = name → ∃ j ∈ new, j.name = name) →
        (removeOld new gone m).m_loggers name = m.m_loggers name) ∧
      ∀ i ∈ gone, (∀ j ∈ new, j.name ≠ i.name) → ∃ logger, (removeOld new gone m).m_loggers i.name = some logger ∧
        logger.m_level = .unknow ∧ logger.m_appenders = [] := by
  induction gone generalizing m with
  | nil => exact ⟨⟨rfl, rfl⟩, fun _ _ => rfl, fun i hi => absurd hi List.not_mem_nil⟩
  | cons i rest ih =>
    rw [removeOld]
    cases hfind : OrderedList.find LogDefine.less i new with
    | some it =>
      obtain ⟨hheap, hothers, hremoved⟩ := ih m
      have hstays : ¬ ∀ j ∈ new, j.name ≠ i.name := by
        rw [← find_eq_none_iff hnew, hfind]
        exact Option.some_ne_none it
      refine ⟨hheap, fun name hname => hothers name fun k hk => hname k (List.mem_cons_of_mem i hk),
        fun k hk hgone => ?_⟩
      rcases List.mem_cons.mp hk with rfl | hk
      · exact absurd hgone hstays
      · exact hremoved k hk hgone
    | none =>
      obtain ⟨hheap, hothers, hremoved⟩ := ih (m.silence i)
      have hgone := (find_eq_none_iff hnew i).mp hfind
      refine ⟨hheap, fun name hname => ?_, fun k hk hk' => ?_⟩
      · have hne : name ≠ i.name := by
          rintro rfl
          obtain ⟨j, hj, hjname⟩ := hname i List.mem_cons_self rfl
          exact hgone j hj hjname
        rw [hothers name fun k hk => hname k (List.mem_cons_of_mem i hk)]
        exact Function.update_of_ne hne _ _
      · rcases List.mem_cons.mp hk with rfl | hk
        · by_cases hagain : ∃ l ∈ rest, l.name = k.name
          · obtain ⟨l, hl, hlname⟩ := hagain
            rw [← hlname]
            exact hremoved l hl (hlname ▸ hgone)
          · push Not at hagain
            rw [hothers k.name fun l hl hlname => absurd hlname (hagain l hl)]
            exact ⟨_, Function.update_self _ _ _, rfl, rfl⟩
        · exact hremoved k hk hk'

/-! ## The listener -/

/-- What the definitions must be for their loggers to follow them: every appender of one that is applied is of the
type 1 or 2, and its formatter is empty or the one that its logger has then. -/
def Plain (m : LoggerManager) (old new : List LogDefine) : Prop :=
  ∀ i ∈ new, i ∉ old → ∀ a ∈ i.appenders, (a.type = 1 ∨ a.type = 2) ∧
    (a.formatter = [] ∨ m.formatterFor i = some (LogFormatter.new a.formatter))

/-- An appender that was attached is the one of its definition if that has no formatter of its own. -/
theorem matches_iff_of_attached {formatter : Option LogFormatter} {a : LogAppenderDefine} {ap : LogAppender}
    (h : Attached formatter a ap) :
    Matches a ap ↔ a.formatter = [] ∨ formatter = some (LogFormatter.new a.formatter) := by
  obtain ⟨made, hmade, rfl⟩ := h
  have hcls : (a.type = 1 ∧ made.cls = .fileLogAppender a.file) ∨ (a.type = 2 ∧ made.cls = .stdoutLogAppender) := by
    unfold newAppender at hmade
    split_ifs at hmade with hone htwo <;> obtain rfl := Option.some.inj hmade
    · exact .inl ⟨hone, rfl⟩
    · exact .inr ⟨htwo, rfl⟩
  constructor
  · intro hmatches
    exact or_iff_not_imp_left.mpr hmatches.formatter
  · intro hformatter
    exact ⟨hcls, rfl, fun hne => hformatter.resolve_left hne⟩

/-- Appenders that were attached are those of their definitions if none has a formatter of its own. -/
theorem forall₂_matches_iff {formatter : Option LogFormatter} {appenders : List LogAppenderDefine}
    {aps : List LogAppender} (h : List.Forall₂ (Attached formatter) appenders aps) :
    List.Forall₂ Matches appenders aps ↔
      ∀ a ∈ appenders, a.formatter = [] ∨ formatter = some (LogFormatter.new a.formatter) := by
  induction h with
  | nil => simp
  | cons hfirst _ ih => rw [List.forall₂_cons, List.forall_mem_cons, matches_iff_of_attached hfirst, ih]

/-- Where no null pointer is dereferenced, unchanged loggers and those of names that are gone are as expected, and
the others have what was attached to them. -/
theorem listener_spec {old new : List LogDefine} (hold : OrderedList.Sorted LogDefine.less old)
    (hnew : OrderedList.Sorted LogDefine.less new) (hm : m.Allocated) (h : m.listener old new = some m') :
    m'.Allocated ∧ (Followed m m' old new ↔ ∀ i ∈ new, i ∉ old → ∀ a ∈ i.appenders,
      a.formatter = [] ∨ m.formatterFor i = some (LogFormatter.new a.formatter)) := by
  obtain ⟨m₁, happly, rfl⟩ := Option.map_eq_some_iff.mp h
  have hconfigured := configured_of_applyNew hold (names_nodup hnew) hm happly
  obtain ⟨⟨hheap, hnext⟩, hothers, hremoved⟩ := removeOld_spec hnew old m₁
  -- A name of the new set is not silenced, and it stands for one definition.
  have hstays : ∀ i ∈ new, (removeOld new old m₁).m_loggers i.name = m₁.m_loggers i.name :=
    fun i hi => hothers i.name fun _ _ _ => ⟨i, hi, rfl⟩
  have hinj : ∀ i ∈ new, ∀ j ∈ new, i.name = j.name → i = j := fun i hi j hj hname =>
    List.inj_on_of_nodup_map (names_nodup hnew) hi hj hname
  refine ⟨fun name a ha => ?_, fun hfollowed i hi hout => ?_, fun hplain => ⟨fun i hi hout => ?_, fun i hi hin => ?_,
    hremoved⟩⟩
  · rw [hnext]
    by_cases hgone : ∃ i ∈ old, i.name = name ∧ ∀ j ∈ new, j.name ≠ i.name
    · obtain ⟨i, hi, rfl, hgone⟩ := hgone
      obtain ⟨logger, hlogger, -, hnil⟩ := hremoved i hi hgone
      rw [appendersOf, hlogger, Option.map_some, hnil] at ha
      exact absurd ha List.not_mem_nil
    · push Not at hgone
      rw [appendersOf, hothers name fun i hi hname => hname ▸ hgone i hi hname] at ha
      exact hconfigured.allocated hm name a ha
  · obtain ⟨logger, hlogger, -, -, hmatches⟩ := hfollowed.changed i hi hout
    obtain ⟨logger', hlogger', -, -, hattached, -⟩ :=
      hconfigured.each i (List.mem_filter.mpr ⟨hi, by simpa using hout⟩)
    rw [hstays i hi, hlogger'] at hlogger
    obtain rfl := Option.some.inj hlogger
    rw [hheap] at hmatches
    exact (forall₂_matches_iff hattached).mp hmatches
  · obtain ⟨logger, hlogger, hlevel, hformatter, hattached, -⟩ :=
      hconfigured.each i (List.mem_filter.mpr ⟨hi, by simpa using hout⟩)
    refine ⟨logger, (hstays i hi).trans hlogger, hlevel, hformatter, ?_⟩
    rw [hheap]
    exact (forall₂_matches_iff hattached).mpr (hplain i hi hout)
  · have hsame : i.name ∉ (changedIn old new).map LogDefine.name := by
      intro hmem
      obtain ⟨j, hj, hname⟩ := List.mem_map.mp hmem
      obtain ⟨hjnew, hjout⟩ := List.mem_filter.mp hj
      obtain rfl := hinj j hjnew i hi hname
      exact absurd hin (by simpa using hjout)
    refine ⟨(hstays i hi).trans (hconfigured.others i.name hsame), fun a ha hshared => ?_⟩
    rw [hheap]
    refine hconfigured.frame a (hm i.name a ha) fun j hj => ?_
    obtain ⟨hjnew, hjout⟩ := List.mem_filter.mp hj
    exact hshared j hjnew (by simpa using hjout)

/-- The listener dereferences no null pointer and the loggers follow exactly if the definitions are plain. -/
theorem listener_followed_iff {old new : List LogDefine} (hold : OrderedList.Sorted LogDefine.less old)
    (hnew : OrderedList.Sorted LogDefine.less new) (hm : m.Allocated) :
    (∃ m', m.listener old new = some m' ∧ Followed m m' old new) ↔ m.Plain old new := by
  cases hlistener : m.listener old new with
  | none =>
    obtain ⟨i, hi, hout, a, ha, hnull⟩ := (applyNew_eq_none_iff hold new m).mp (Option.map_eq_none_iff.mp hlistener)
    refine iff_of_false (fun ⟨m', h, _⟩ => by cases h) fun hplain => ?_
    exact (newAppender_eq_none_iff a).mp hnull (hplain i hi hout a ha).1
  | some m' =>
    obtain ⟨_, hfollowed⟩ := listener_spec hold hnew hm hlistener
    have htypes : ∀ i ∈ new, i ∉ old → ∀ a ∈ i.appenders, a.type = 1 ∨ a.type = 2 := by
      intro i hi hout a ha
      by_contra htype
      have hnone := (applyNew_eq_none_iff hold new m).mpr ⟨i, hi, hout, a, ha, (newAppender_eq_none_iff a).mpr htype⟩
      rw [listener, hnone] at hlistener
      cases hlistener
    constructor
    · rintro ⟨m'', h, hfollow⟩
      obtain rfl := Option.some.inj h
      exact fun i hi hout a ha => ⟨htypes i hi hout a ha, hfollowed.mp hfollow i hi hout a ha⟩
    · intro hplain
      exact ⟨m', rfl, hfollowed.mpr fun i hi hout a ha => (hplain i hi hout a ha).2⟩

/-- What the reader gives is a set. -/
theorem sorted_of_readSet {tree : Yaml} {defines : List LogDefine} (h : LogDefine.readSet tree = some defines) :
    OrderedList.Sorted LogDefine.less defines := by
  have htrans : ∀ a b c : LogDefine, LogDefine.less a b = true → LogDefine.less b c = true →
      LogDefine.less a c = true := by
    intro a b c hab hbc
    rw [LogDefine.less, Http.lexLess_iff] at hab hbc ⊢
    exact lt_trans hab hbc
  suffices hall : ∀ (elements : List (Option Yaml)) (start : List LogDefine),
      OrderedList.Sorted LogDefine.less start →
      elements.foldlM (fun defines element => do
        let define ← LogDefine.read (element.getD .null)
        pure (OrderedList.insert LogDefine.less define defines)) start = some defines →
      OrderedList.Sorted LogDefine.less defines from hall _ [] List.Pairwise.nil h
  intro elements
  induction elements with
  | nil =>
    intro start hstart heq
    obtain rfl := Option.some.inj heq
    exact hstart
  | cons element rest ih =>
    intro start hstart heq
    rw [List.foldlM_cons] at heq
    obtain ⟨next, hnext, hrest⟩ := Option.bind_eq_some_iff.mp heq
    obtain ⟨define, _, hinsert⟩ := Option.bind_eq_some_iff.mp hnext
    obtain rfl := Option.some.inj hinsert
    exact ih _ (hstart.insert htrans define) hrest

end LoggerManager

/-- The loggers of a process, with their appenders made. -/
structure LogSystem extends LoggerManager where
  allocated : toLoggerManager.Allocated

namespace LogSystem

/-- `LoggerManager::LoggerManager`: a root logger that writes to the standard output. -/
def new : LogSystem where
  m_loggers := fun name =>
    if name = asciiText ['r', 'o', 'o', 't'] then
      some ((Logger.new (asciiText ['r', 'o', 'o', 't'])).addAppender
        (fun _ => LogAppender.new .stdoutLogAppender) 0).1
    else none
  heap := ((Logger.new (asciiText ['r', 'o', 'o', 't'])).addAppender
    (fun _ => LogAppender.new .stdoutLogAppender) 0).2
  next := 1
  allocated := by
    intro name a ha
    unfold LoggerManager.appendersOf at ha
    dsimp only at ha
    split at ha
    · obtain rfl : a = 0 := by simpa [Logger.addAppender, Logger.new] using ha
      exact Nat.zero_lt_one
    · exact absurd ha List.not_mem_nil

/-- **When loggers follow the configuration.** For sets of definitions that the reader gives, the listener
dereferences no null pointer and leaves the loggers as the new set says exactly if every appender of a
definition that is new or changed is of the type 1 or 2 and has an empty formatter or the one of its logger. -/
theorem listener_iff (system : LogSystem) (oldTree newTree : Yaml) (old new : List LogDefine)
    (hold : LogDefine.readSet oldTree = some old) (hnew : LogDefine.readSet newTree = some new) :
    (∃ m', system.listener old new = some m' ∧ LoggerManager.Followed system.toLoggerManager m' old new) ↔
      system.Plain old new :=
  LoggerManager.listener_followed_iff (LoggerManager.sorted_of_readSet hold) (LoggerManager.sorted_of_readSet hnew)
    system.allocated

/-- A configuration with one logger and one appender, of a type. -/
def oneLogger (type : Bytes) : Yaml :=
  .sequence [.map [(.scalar LogDefine.nameKey, .scalar [97]),
    (.scalar LogDefine.appendersKey, .sequence [.map [(.scalar LogDefine.typeKey, .scalar type)]])]]

/-- A logger that writes to the standard output is set up. -/
theorem listener_stdout : ∃ m', new.listener [] [⟨[97], .unknow, [], [⟨2, .unknow, [], []⟩]⟩] = some m' ∧
    LoggerManager.Followed new.toLoggerManager m' [] [⟨[97], .unknow, [], [⟨2, .unknow, [], []⟩]⟩] :=
  (listener_iff new (.sequence []) (oneLogger LogDefine.stdoutType) [] _ (by decide) (by decide)).mpr
    fun i hi _ a ha => by
      obtain rfl := List.mem_singleton.mp hi
      obtain rfl := List.mem_singleton.mp ha
      exact ⟨.inr rfl, .inl rfl⟩

/-- An appender of an unknown type is read, and the listener dereferences a null pointer for it. -/
theorem not_listener_followed : ¬ ∀ (system : LogSystem) (oldTree newTree : Yaml) (old new : List LogDefine),
    LogDefine.readSet oldTree = some old → LogDefine.readSet newTree = some new →
      ∃ m', system.listener old new = some m' ∧ LoggerManager.Followed system.toLoggerManager m' old new := by
  intro h
  have hread : LogDefine.readSet (oneLogger [88]) = some [⟨[97], .unknow, [], [⟨0, .unknow, [], []⟩]⟩] := by decide
  have hsorted := LoggerManager.sorted_of_readSet hread
  have hplain := (LoggerManager.listener_followed_iff List.Pairwise.nil hsorted new.allocated).mp
    (h new (.sequence []) (oneLogger [88]) [] _ rfl hread)
  have htype := (hplain _ List.mem_cons_self List.not_mem_nil _ List.mem_cons_self).1
  exact absurd htype (by decide)

end LogSystem

end Bobliew
