import Bobliew.Log.Appenders

/-!
# What a file appender leaves in its file

`FileLogAppender::log` opens the file anew for the first message and for each message that comes three seconds or
more after the one for which it was opened last. `reopen` opens it as `std::ofstream` does when nothing else is
said: what is in the file is dropped. So the file holds the last messages only, no two of them three seconds or more
behind the first.

A stream that could not write a message is not closed by `reopen`, and an open one cannot be opened: nothing is
written any more.

The formatter of the appender ends with `%n`, which flushes the stream: what is between is in one piece here.
-/

namespace Bobliew

open Http (Bytes)

/-- The numbers of the levels. -/
def LogLevel.value : LogLevel → ℕ
  | .unknow => 0
  | .debug => 1
  | .info => 2
  | .warn => 3
  | .error => 4
  | .fatal => 5

/-- A `std::ofstream`, with what is in its file. -/
structure FileStream where
  isOpen : Bool
  fail : Bool
  content : Bytes

namespace FileStream

/-- `close`, which fails for a stream that is not open. -/
def close (s : FileStream) : FileStream :=
  if s.isOpen then { s with isOpen := false } else { s with fail := true }

/-- `open`, which fails for a stream that is open; whether the file can be opened is given. -/
def openFile (s : FileStream) (opens : Bool) : FileStream :=
  if s.isOpen then { s with fail := true }
  else if opens then ⟨true, false, []⟩
  else { s with fail := true }

/-- `<<` up to the flush; how many bytes there is room for is given. -/
def write (s : FileStream) (text : Bytes) (room : ℕ) : FileStream :=
  if s.fail then s
  else if !s.isOpen then { s with fail := true }
  else if text.length ≤ room then { s with content := s.content ++ text }
  else { s with content := s.content ++ text.take room, fail := true }

end FileStream

/-- A message, as the formatter of the appender writes it, up to the `%n` at its end. -/
structure LoggedEvent where
  level : LogLevel
  time : UInt64
  text : Bytes

/-- What the file system does in a call: whether the file can be opened, and how many bytes there is room for. -/
structure FileOutcome where
  opens : Bool
  room : ℕ

/-- The members of a `FileLogAppender` that logging reads and writes. -/
structure FileLogAppender where
  m_level : LogLevel
  m_lastTime : UInt64
  m_filestream : FileStream

namespace FileLogAppender

/-- `FileLogAppender::reopen`. -/
def reopen (appender : FileLogAppender) (opens : Bool) : FileLogAppender :=
  let closed := if appender.m_filestream.fail then appender.m_filestream else appender.m_filestream.close
  { appender with m_filestream := closed.openFile opens }

/-- `FileLogAppender::FileLogAppender`, for a file with some content. -/
def new (m_level : LogLevel) (content : Bytes) (opens : Bool) : FileLogAppender :=
  reopen ⟨m_level, 0, ⟨false, false, content⟩⟩ opens

/-- The appender when `log` comes to write a message, with the file opened anew if it is time. -/
def ready (appender : FileLogAppender) (event : LoggedEvent) (outcome : FileOutcome) : FileLogAppender :=
  if event.time ≥ appender.m_lastTime + 3 then { appender.reopen outcome.opens with m_lastTime := event.time }
  else appender

/-- `FileLogAppender::log`. -/
def log (appender : FileLogAppender) (event : LoggedEvent) (outcome : FileOutcome) : FileLogAppender :=
  if event.level.value ≥ appender.m_level.value then
    let appender := appender.ready event outcome
    { appender with m_filestream := appender.m_filestream.write event.text outcome.room }
  else appender

/-- Messages, one after the other. -/
def logAll (appender : FileLogAppender) (calls : List (LoggedEvent × FileOutcome)) : FileLogAppender :=
  calls.foldl (fun appender call => appender.log call.1 call.2) appender

/-- The messages of a level that the appender writes. -/
def accepted (m_level : LogLevel) (calls : List (LoggedEvent × FileOutcome)) : List LoggedEvent :=
  (calls.map Prod.fst).filter fun event => decide (event.level.value ≥ m_level.value)

/-- The file can be opened, and has room for the message. -/
def Succeeds (call : LoggedEvent × FileOutcome) : Prop :=
  call.2.opens = true ∧ call.1.text.length ≤ call.2.room

/-- Messages none of which is three seconds or more behind the first. -/
def Close : List LoggedEvent → Prop
  | [] => True
  | first :: rest => ∀ event ∈ rest, event.time < first.time + 3

/-- The stream works, and the file holds the last of the messages that were accepted. -/
structure Holds (lost kept : List LoggedEvent) (appender : FileLogAppender) : Prop where
  isOpen : appender.m_filestream.isOpen = true
  works : appender.m_filestream.fail = false
  content : appender.m_filestream.content = kept.flatMap LoggedEvent.text
  close : Close kept
  /-- The file was opened for the first of them, or not since it was opened by the constructor. -/
  opened : ∀ first ∈ kept.head?, appender.m_lastTime = first.time ∨ appender.m_lastTime = 0 ∧ first.time < 3
  last : kept = [] → lost = [] ∧ appender.m_lastTime = 0

variable {appender : FileLogAppender} {lost kept : List LoggedEvent} {event : LoggedEvent} {outcome : FileOutcome}

/-- A stream that works writes a message that there is room for. -/
theorem write_of_works {s : FileStream} (hopen : s.isOpen = true) (hworks : s.fail = false) {text : Bytes} {room : ℕ}
    (hroom : text.length ≤ room) : s.write text room = ⟨true, false, s.content ++ text⟩ := by
  obtain ⟨isOpen, fail, content⟩ := s
  cases hopen
  cases hworks
  exact if_pos hroom

/-- `reopen` of a stream that works drops what is in the file. -/
theorem reopen_of_works (hopen : appender.m_filestream.isOpen = true) (hworks : appender.m_filestream.fail = false) :
    (appender.reopen true).m_filestream = ⟨true, false, []⟩ := by
  obtain ⟨level, lastTime, isOpen, fail, content⟩ := appender
  cases hopen
  cases hworks
  rfl

/-- A message less than three seconds after the file was opened is less than three seconds behind the first. -/
theorem time_lt {first time lastTime : UInt64} (hopened : lastTime = first ∨ lastTime = 0 ∧ first < 3)
    (htime : time < lastTime + 3) : time < first + 3 := by
  obtain rfl | ⟨rfl, hfirst⟩ := hopened
  · exact htime
  · rw [UInt64.lt_iff_toNat_lt] at hfirst htime ⊢
    have hthree : (3 : UInt64).toNat = 3 := rfl
    rw [UInt64.toNat_add, hthree] at htime ⊢
    rw [hthree] at hfirst
    rw [UInt64.toNat_zero] at htime
    omega

/-- **A message that is written.** Either the file is opened anew and holds this message only, or it is behind those
that the file holds. -/
theorem Holds.log (h : Holds lost kept appender) (hlevel : event.level.value ≥ appender.m_level.value)
    (hopens : outcome.opens = true) (hroom : event.text.length ≤ outcome.room) :
    (appender.log event outcome).m_level = appender.m_level ∧
      (Holds (lost ++ kept) [event] (appender.log event outcome) ∨
        Holds lost (kept ++ [event]) (appender.log event outcome)) := by
  rw [FileLogAppender.log, if_pos hlevel, ready]
  by_cases htime : event.time ≥ appender.m_lastTime + 3
  · rw [if_pos htime, hopens]
    have hstream := reopen_of_works h.isOpen h.works
    refine ⟨rfl, Or.inl ?_⟩
    dsimp only
    rw [hstream, write_of_works rfl rfl hroom]
    refine ⟨rfl, rfl, ?_, fun other hother => absurd hother List.not_mem_nil, fun first hfirst => ?_, fun hnil => ?_⟩
    · rw [List.nil_append, List.flatMap_singleton]
    · cases hfirst
      exact Or.inl rfl
    · exact absurd hnil (List.cons_ne_nil _ _)
  · rw [if_neg htime]
    have hsoon : event.time < appender.m_lastTime + 3 := UInt64.not_le.mp htime
    refine ⟨rfl, Or.inr ?_⟩
    dsimp only
    rw [write_of_works h.isOpen h.works hroom]
    cases kept with
    | nil =>
      obtain ⟨_, hzero⟩ := h.last rfl
      rw [hzero] at hsoon
      refine ⟨rfl, rfl, ?_, fun other hother => absurd hother List.not_mem_nil, fun first hfirst => ?_, fun hnil => ?_⟩
      · rw [h.content, List.flatMap_nil, List.nil_append, List.nil_append, List.flatMap_singleton]
      · cases hfirst
        exact Or.inr ⟨hzero, hsoon⟩
      · exact absurd hnil (List.cons_ne_nil _ _)
    | cons first rest =>
      have hopened := h.opened first rfl
      refine ⟨rfl, rfl, ?_, fun other hother => ?_, fun first' hfirst => h.opened first' hfirst, fun hnil => ?_⟩
      · rw [h.content, List.flatMap_append, List.flatMap_singleton]
      · cases List.mem_append.mp hother with
        | inl hold => exact h.close other hold
        | inr hnew =>
          rw [List.mem_singleton.mp hnew]
          exact time_lt hopened hsoon
      · exact absurd hnil (List.cons_ne_nil _ _)

/-- **What is in the file.** When the file can be opened and has room, it holds the last of the messages of the level
of the appender: those before are lost, no message that it holds is three seconds or more behind the first, and it
holds the last message of all. -/
theorem file_holds (m_level : LogLevel) (content : Bytes) (calls : List (LoggedEvent × FileOutcome))
    (hsucceeds : ∀ call ∈ calls, Succeeds call) :
    ∃ lost kept, accepted m_level calls = lost ++ kept ∧ (kept = [] → lost = []) ∧ Close kept ∧
      ((new m_level content true).logAll calls).m_filestream.content = kept.flatMap LoggedEvent.text := by
  have hrun : ∃ lost kept, accepted m_level calls = lost ++ kept ∧
      ((new m_level content true).logAll calls).m_level = m_level ∧
      Holds lost kept ((new m_level content true).logAll calls) := by
    induction calls using List.reverseRecOn with
    | nil =>
      refine ⟨[], [], rfl, rfl, rfl, rfl, rfl, trivial, fun first hfirst => ?_, fun _ => ⟨rfl, rfl⟩⟩
      cases hfirst
    | append_singleton calls call ih =>
      obtain ⟨lost, kept, haccepted, hlevel, hholds⟩ := ih fun c hc => hsucceeds c (List.mem_append_left _ hc)
      obtain ⟨hopens, hroom⟩ := hsucceeds call (List.mem_append_right _ List.mem_cons_self)
      have hafter : (new m_level content true).logAll (calls ++ [call]) =
          ((new m_level content true).logAll calls).log call.1 call.2 := List.foldl_concat _ _ _ _
      have hmore : accepted m_level (calls ++ [call]) =
          accepted m_level calls ++ if call.1.level.value ≥ m_level.value then [call.1] else [] := by
        rw [accepted, List.map_append, List.filter_append, List.map_singleton, List.filter_singleton,
          Bool.cond_decide, accepted]
      rw [hafter, hmore, haccepted]
      by_cases hpasses : call.1.level.value ≥ m_level.value
      · rw [if_pos hpasses]
        rw [← hlevel] at hpasses
        obtain ⟨hsame, hanew | hbehind⟩ := hholds.log hpasses hopens hroom
        · exact ⟨_, _, rfl, hsame.trans hlevel, hanew⟩
        · exact ⟨_, _, List.append_assoc _ _ _, hsame.trans hlevel, hbehind⟩
      · have hskipped : ((new m_level content true).logAll calls).log call.1 call.2 =
            (new m_level content true).logAll calls := by
          rw [FileLogAppender.log, hlevel, if_neg hpasses]
        rw [if_neg hpasses, List.append_nil, hskipped]
        exact ⟨lost, kept, rfl, hlevel, hholds⟩
  obtain ⟨lost, kept, haccepted, _, hholds⟩ := hrun
  exact ⟨lost, kept, haccepted, fun hnil => (hholds.last hnil).1, hholds.close, hholds.content⟩

/-- Three messages, the last one four seconds behind the first. -/
def threeMessages : List (LoggedEvent × FileOutcome) :=
  [(⟨.info, 100, [97, 10]⟩, ⟨true, 2⟩), (⟨.warn, 102, [98, 10]⟩, ⟨true, 2⟩), (⟨.info, 104, [99, 10]⟩, ⟨true, 2⟩)]

/-- Only the last one is left. -/
theorem file_holds_threeMessages :
    ((new .debug [] true).logAll threeMessages).m_filestream.content = [99, 10] ∧
      ∃ lost kept, accepted .debug threeMessages = lost ++ kept ∧ Close kept ∧
        kept.flatMap LoggedEvent.text = [99, 10] := by
  have hcontent : ((new .debug [] true).logAll threeMessages).m_filestream.content = [99, 10] := by decide
  have hsucceeds : ∀ call ∈ threeMessages, Succeeds call := by
    intro call hcall
    rcases List.mem_cons.mp hcall with rfl | hcall
    · exact ⟨rfl, le_rfl⟩
    · rcases List.mem_pair.mp hcall with rfl | rfl
      · exact ⟨rfl, le_rfl⟩
      · exact ⟨rfl, le_rfl⟩
  obtain ⟨lost, kept, haccepted, _, hclose, hkept⟩ := file_holds .debug [] threeMessages hsucceeds
  exact ⟨hcontent, lost, kept, haccepted, hclose, hkept.symm.trans hcontent⟩

end FileLogAppender

end Bobliew
