import Bobliew.Lib.Runs
import Bobliew.TcpServer.Bind

/-!
# Starting and stopping a server

`TcpServer::start` schedules an accept loop for each socket, which goes on as long as `m_isStop` is false.
`TcpServer::stop` sets `m_isStop` and schedules a task that closes the sockets. It waits neither for that task nor
for the loops, so that the server may be started again before they are through: the closing task then closes the
sockets of the new loops, and loops that had not ended yet find `m_isStop` false again. Such loops call `accept` on a
closed socket over and over.

A loop that waits in `accept` is woken when its socket is closed and tries once more with the descriptor that it was
called with, which another socket may have by then. A socket that was closed before the call has the descriptor -1.
The listening sockets are those of the server. The closing task, which does not yield, is one step.
-/

namespace Bobliew

/-- Where an accept loop is: at its condition, in `accept`, with whether the socket was open when it was called, or
through. -/
inductive LoopPhase where
  | checking
  | accepting (opened : Bool)
  | ended
  deriving DecidableEq, Repr

/-- A call of `TcpServer::startAccept` for a socket. -/
structure AcceptLoop (Sock : Type) where
  sock : Sock
  phase : LoopPhase
  deriving DecidableEq

/-- A call of `handleClient` that was scheduled: by which loop, and for a client of which socket. -/
structure HandedClient (Sock Client : Type) where
  loop : ℕ
  sock : Sock
  client : Client
  deriving DecidableEq

/-- A server with its accept loops and the closing tasks that have not run yet, and the calls of `handleClient` that
were scheduled. -/
structure RunningServer (Sock Client : Type) extends TcpServer Sock where
  m_isStop : Bool
  isOpen : Sock → Bool
  loops : List (AcceptLoop Sock)
  closings : ℕ
  handed : List (HandedClient Sock Client)

/-- What happens next: a call on the server, the next closing task, or a step of a loop with the client that the
kernel has in `accept`, if any, and the socket that it is for. -/
inductive ServerAction (K Addr Sock Client : Type) where
  | bind (ops : SocketOps K Addr Sock) (addrs : List Addr) (ssl : Bool) (kernel : K)
  | start
  | stop
  | close
  | advance (i : ℕ) (client : Option (Sock × Client))

/-- The loop that takes a step. -/
def ServerAction.loop? {K Addr Sock Client : Type} : ServerAction K Addr Sock Client → Option ℕ
  | .advance i _ => some i
  | _ => none

namespace RunningServer

variable {K Addr Sock Client : Type}

/-- `TcpServer::TcpServer`. -/
def new : RunningServer Sock Client where
  toTcpServer := .new
  m_isStop := true
  isOpen := fun _ => false
  loops := []
  closings := 0
  handed := []

/-- A loop goes to a phase. -/
def setPhase (s : RunningServer Sock Client) (i : ℕ) (sock : Sock) (phase : LoopPhase) : RunningServer Sock Client :=
  { s with loops := s.loops.set i ⟨sock, phase⟩ }

/-- `TcpServer::start`. -/
def start (s : RunningServer Sock Client) : RunningServer Sock Client :=
  if !s.m_isStop then s
  else { s with
    m_isStop := false
    loops := s.loops ++ s.m_socks.map fun sock => ⟨sock, .checking⟩ }

/-- `TcpServer::stop`. -/
def stop (s : RunningServer Sock Client) : RunningServer Sock Client :=
  { s with
    m_isStop := true
    closings := s.closings + 1 }

/-- The sockets that `bind` makes are new ones. -/
def Fresh (s : RunningServer Sock Client) : ServerAction K Addr Sock Client → Prop
  | .bind ops addrs ssl kernel => ∀ a ∈ TcpServer.attempts ops ssl addrs kernel,
      a.sock ∉ s.m_socks ∧ ∀ loop ∈ s.loops, loop.sock ≠ a.sock
  | _ => True

/-- All loops have ended. -/
def Idle (s : RunningServer Sock Client) : Prop := ∀ loop ∈ s.loops, loop.phase = .ended

/-- The clients that were accepted by a loop. -/
def handedBy (s : RunningServer Sock Client) (i : ℕ) : List (HandedClient Sock Client) :=
  s.handed.filter fun h => decide (h.loop = i)

section Calls

variable [DecidableEq Sock] (descriptor : Sock → ℕ)

/-- `Socket::accept` in the body of the loop: the client is one of an open socket that has the descriptor. -/
def accept (s : RunningServer Sock Client) (i : ℕ) (client : Option (Sock × Client)) : RunningServer Sock Client :=
  match s.loops[i]? with
  | some ⟨sock, .accepting opened⟩ =>
    match client with
    | some (owner, client) =>
      if opened ∧ s.isOpen owner ∧ descriptor owner = descriptor sock then
        { s.setPhase i sock .checking with handed := s.handed ++ [⟨i, owner, client⟩] }
      else s.setPhase i sock .checking
    | none => s.setPhase i sock .checking
  | _ => s

/-- The sockets to which nobody refers are destroyed. -/
def collect (s : RunningServer Sock Client) : RunningServer Sock Client :=
  { s with isOpen := fun sock => s.isOpen sock &&
      decide (sock ∈ s.m_socks ∨ ∃ loop ∈ s.loops, loop.sock = sock ∧ loop.phase ≠ .ended) }

/-- `TcpServer::bind`. -/
def bind (s : RunningServer Sock Client) (ops : SocketOps K Addr Sock) (addrs : List Addr) (ssl : Bool) (kernel : K) :
    RunningServer Sock Client :=
  let binding := s.toTcpServer.bind ops addrs [] ssl kernel
  collect { s with
    toTcpServer := binding.server
    isOpen := fun sock => s.isOpen sock || decide (sock ∈ binding.server.m_socks) }

/-- The task that `stop` schedules. -/
def close (s : RunningServer Sock Client) : RunningServer Sock Client :=
  match s.closings with
  | 0 => s
  | closings + 1 => { s with
      m_socks := []
      isOpen := fun sock => s.isOpen sock && decide (sock ∉ s.m_socks)
      closings := closings }

/-- The condition of the loop of `startAccept`, and the call of `accept` behind it. -/
def check (s : RunningServer Sock Client) (i : ℕ) : RunningServer Sock Client :=
  match s.loops[i]? with
  | some ⟨sock, .checking⟩ =>
    if s.m_isStop then (s.setPhase i sock .ended).collect else s.setPhase i sock (.accepting (s.isOpen sock))
  | _ => s

/-- A step of one loop. -/
def advance (s : RunningServer Sock Client) (i : ℕ) (client : Option (Sock × Client)) : RunningServer Sock Client :=
  match s.loops[i]? with
  | some ⟨_, .checking⟩ => s.check i
  | some ⟨_, .accepting _⟩ => s.accept descriptor i client
  | _ => s

/-- Perform one action; what is not possible changes nothing. -/
def step (s : RunningServer Sock Client) : ServerAction K Addr Sock Client → RunningServer Sock Client
  | .bind ops addrs ssl kernel => s.bind ops addrs ssl kernel
  | .start => s.start
  | .stop => s.stop
  | .close => s.close
  | .advance i client => s.advance descriptor i client

/-- Perform some actions, one after the other. -/
def performed (s : RunningServer Sock Client) (actions : List (ServerAction K Addr Sock Client)) :
    RunningServer Sock Client :=
  actions.foldl (step descriptor) s

end Calls

/-- The server is started only when the closing tasks and the loops of the time before are through. No address fails
to be bound while loops run, and no new socket gets the descriptor that a loop may still have. -/
def Orderly (descriptor : Sock → ℕ) (s : RunningServer Sock Client) : ServerAction K Addr Sock Client → Prop
  | .bind ops addrs ssl kernel =>
    ((∀ a ∈ TcpServer.attempts ops ssl addrs kernel, a.listening = true) ∨ s.Idle) ∧
      ∀ a ∈ TcpServer.attempts ops ssl addrs kernel, ∀ loop ∈ s.loops, loop.phase ≠ .ended →
        descriptor a.sock ≠ descriptor loop.sock
  | .start => s.m_isStop = true → s.closings = 0 ∧ s.Idle
  | _ => True

/-- An orderly action, with new sockets. -/
def Permitted (descriptor : Sock → ℕ) (s : RunningServer Sock Client) (action : ServerAction K Addr Sock Client) :
    Prop :=
  s.Fresh action ∧ s.Orderly descriptor action

/-- Orderly actions one after the other, without a start. -/
def Unstarted [DecidableEq Sock] (descriptor : Sock → ℕ) (s : RunningServer Sock Client) :
    List (ServerAction K Addr Sock Client) → Prop
  | [] => True
  | action :: rest =>
    s.Permitted descriptor action ∧ action ≠ .start ∧ (s.step descriptor action).Unstarted descriptor rest

/-- No open socket has the descriptor of a socket. -/
def Away (descriptor : Sock → ℕ) (s : RunningServer Sock Client) (sock : Sock) : Prop :=
  ∀ other, s.isOpen other = true → descriptor other ≠ descriptor sock

/-- What an orderly server keeps: its sockets are those that are open, a loop that has not ended is for one of them
while it runs, and has the descriptor of none of them when it was stopped and the closing tasks are through. -/
structure Tidy (descriptor : Sock → ℕ) (s : RunningServer Sock Client) : Prop where
  opened : ∀ sock, s.isOpen sock = true ↔ sock ∈ s.m_socks
  running : s.m_isStop = false → s.closings = 0 ∧ ∀ loop ∈ s.loops, loop.phase ≠ .ended → loop.sock ∈ s.m_socks
  stopped : s.m_isStop = true → s.closings = 0 → ∀ loop ∈ s.loops, loop.phase ≠ .ended → s.Away descriptor loop.sock
  held : ∀ loop ∈ s.loops, loop.phase ≠ .ended → loop.sock ∈ s.m_socks ∨ s.Away descriptor loop.sock

/-- Where a loop has not ended now, one for the same socket had not ended before. -/
theorem live_before {s : RunningServer Sock Client} {i : ℕ} {sock : Sock} {phase phase' : LoopPhase}
    {loop : AcceptLoop Sock} (hloop : s.loops[i]? = some ⟨sock, phase⟩) (hlive : phase ≠ .ended)
    (hin : loop ∈ (s.setPhase i sock phase').loops) (hphase : loop.phase ≠ .ended) :
    ∃ old ∈ s.loops, old.sock = loop.sock ∧ old.phase ≠ .ended := by
  cases List.mem_or_eq_of_mem_set hin with
  | inl hold => exact ⟨loop, hold, rfl, hphase⟩
  | inr heq =>
    rw [heq]
    exact ⟨_, List.mem_of_getElem? hloop, rfl, hlive⟩

variable {descriptor : Sock → ℕ}

namespace Tidy

variable {s : RunningServer Sock Client} {i : ℕ} {sock : Sock} {phase phase' : LoopPhase}

/-- A loop that has not ended goes to another phase. -/
theorem setPhase (h : s.Tidy descriptor) (hloop : s.loops[i]? = some ⟨sock, phase⟩) (hlive : phase ≠ .ended) :
    (s.setPhase i sock phase').Tidy descriptor := by
  refine ⟨h.opened, fun hrun => ⟨(h.running hrun).1, ?_⟩, fun hstop hclosings => ?_, ?_⟩
  · intro loop hin hphase
    obtain ⟨old, hold, hsock, holdlive⟩ := live_before hloop hlive hin hphase
    rw [← hsock]
    exact (h.running hrun).2 old hold holdlive
  · intro loop hin hphase
    obtain ⟨old, hold, hsock, holdlive⟩ := live_before hloop hlive hin hphase
    rw [← hsock]
    exact h.stopped hstop hclosings old hold holdlive
  · intro loop hin hphase
    obtain ⟨old, hold, hsock, holdlive⟩ := live_before hloop hlive hin hphase
    rw [← hsock]
    exact h.held old hold holdlive

/-- The calls that were scheduled do not matter. -/
theorem handed (h : s.Tidy descriptor) (handed : List (HandedClient Sock Client)) :
    ({ s with handed := handed }).Tidy descriptor :=
  ⟨h.opened, h.running, h.stopped, h.held⟩

/-- The server is started. -/
theorem start (h : s.Tidy descriptor) (hready : s.m_isStop = true → s.closings = 0 ∧ s.Idle) :
    s.start.Tidy descriptor := by
  unfold RunningServer.start
  cases hstop : s.m_isStop with
  | false => exact h
  | true =>
    obtain ⟨hclosings, hidle⟩ := hready hstop
    have hloops : ∀ loop ∈ s.loops ++ s.m_socks.map fun sock => ⟨sock, .checking⟩, loop.phase ≠ .ended →
        loop.sock ∈ s.m_socks := by
      intro loop hloop hlive
      cases List.mem_append.mp hloop with
      | inl hold => exact (hlive (hidle loop hold)).elim
      | inr hnew =>
        obtain ⟨sock, hsock, rfl⟩ := List.mem_map.mp hnew
        exact hsock
    exact ⟨h.opened, fun _ => ⟨hclosings, hloops⟩, fun hfalse => (Bool.false_ne_true hfalse).elim,
      fun loop hloop hlive => Or.inl (hloops loop hloop hlive)⟩

/-- The server is stopped. -/
theorem stop (h : s.Tidy descriptor) : s.stop.Tidy descriptor :=
  ⟨h.opened, fun hrun => (Bool.false_ne_true hrun.symm).elim, fun _ hzero => (Nat.succ_ne_zero _ hzero).elim, h.held⟩

/-- A loop comes back from `accept`. -/
theorem accept (h : s.Tidy descriptor) (i : ℕ) (client : Option (Sock × Client)) :
    (s.accept descriptor i client).Tidy descriptor := by
  unfold RunningServer.accept
  split
  · rename_i sock opened hloop
    split
    · split_ifs
      · exact (h.setPhase hloop nofun).handed _
      · exact h.setPhase hloop nofun
    · exact h.setPhase hloop nofun
  · exact h

variable [DecidableEq Sock]

/-- In a tidy server nothing is destroyed. -/
theorem collect (h : s.Tidy descriptor) : s.collect.Tidy descriptor := by
  have hsame : s.collect.isOpen = s.isOpen := by
    funext sock
    rw [RunningServer.collect, Bool.and_eq_left_iff_imp, decide_eq_true_iff]
    exact fun hopen => Or.inl ((h.opened sock).mp hopen)
  refine ⟨fun sock => ?_, h.running, fun hstop hclosings loop hloop hlive => ?_, fun loop hloop hlive => ?_⟩
  · rw [hsame]
    exact h.opened sock
  · rw [Away, hsame]
    exact h.stopped hstop hclosings loop hloop hlive
  · rw [Away, hsame]
    exact h.held loop hloop hlive

/-- New sockets are bound. -/
theorem bound_new (h : s.Tidy descriptor) (server : TcpServer Sock) (socks : List Sock)
    (hsocks : server.m_socks = s.m_socks ++ socks)
    (hapart : ∀ sock ∈ socks, ∀ loop ∈ s.loops, loop.phase ≠ .ended → descriptor sock ≠ descriptor loop.sock) :
    ({ s with toTcpServer := server, isOpen := fun sock => s.isOpen sock || decide (sock ∈ server.m_socks) }).Tidy
      descriptor := by
  have hopened (sock : Sock) :
      (s.isOpen sock || decide (sock ∈ server.m_socks)) = true ↔ sock ∈ server.m_socks := by
    rw [Bool.or_eq_true, decide_eq_true_iff, hsocks, List.mem_append, h.opened]
    tauto
  -- No new socket has the descriptor of a loop.
  have haway : ∀ loop ∈ s.loops, loop.phase ≠ .ended → s.Away descriptor loop.sock →
      ∀ other, (s.isOpen other || decide (other ∈ server.m_socks)) = true →
        descriptor other ≠ descriptor loop.sock := by
    intro loop hloop hlive hold other hother
    rw [hopened, hsocks, List.mem_append] at hother
    cases hother with
    | inl hbefore => exact hold other ((h.opened other).mpr hbefore)
    | inr hnew => exact hapart other hnew loop hloop hlive
  refine ⟨hopened, fun hrun => ⟨(h.running hrun).1, ?_⟩, fun hstop hclosings => ?_, ?_⟩
  · intro loop hloop hlive
    have hold := (h.running hrun).2 loop hloop hlive
    exact hsocks ▸ List.mem_append_left socks hold
  · intro loop hloop hlive
    exact haway loop hloop hlive (h.stopped hstop hclosings loop hloop hlive)
  · intro loop hloop hlive
    cases h.held loop hloop hlive with
    | inl hold => exact Or.inl (hsocks ▸ List.mem_append_left socks hold)
    | inr hout => exact Or.inr (haway loop hloop hlive hout)

/-- Nothing is left in an idle server whose `bind` failed. -/
theorem bind_failed (h : s.Tidy descriptor) (hidle : s.Idle) (server : TcpServer Sock)
    (hsocks : server.m_socks = []) :
    (RunningServer.collect { s with
      toTcpServer := server
      isOpen := fun sock => s.isOpen sock || decide (sock ∈ server.m_socks) }).Tidy descriptor where
  opened sock := by
    have hunused : ¬(sock ∈ server.m_socks ∨ ∃ loop ∈ s.loops, loop.sock = sock ∧ loop.phase ≠ .ended) := by
      rw [hsocks]
      rintro (hin | ⟨loop, hloop, -, hlive⟩)
      · cases hin
      · exact hlive (hidle loop hloop)
    dsimp only [RunningServer.collect]
    rw [decide_eq_false hunused, Bool.and_false]
    exact iff_of_false Bool.false_ne_true fun hin => hunused (Or.inl hin)
  running hrun := ⟨(h.running hrun).1, fun loop hloop hlive => (hlive (hidle loop hloop)).elim⟩
  stopped _ _ loop hloop hlive := (hlive (hidle loop hloop)).elim
  held loop hloop hlive := (hlive (hidle loop hloop)).elim

/-- A closing task runs. -/
theorem close (h : s.Tidy descriptor) : s.close.Tidy descriptor := by
  unfold RunningServer.close
  cases hclosings : s.closings with
  | zero => exact h
  | succ closings =>
    have hshut (sock : Sock) : ¬(s.isOpen sock && decide (sock ∉ s.m_socks)) = true := by
      rw [Bool.and_eq_true, decide_eq_true_iff, h.opened]
      exact fun hboth => hboth.2 hboth.1
    refine ⟨fun sock => iff_of_false (hshut sock) List.not_mem_nil, fun hrun => ?_,
      fun _ _ _ _ _ other hother => (hshut other hother).elim,
      fun _ _ _ => Or.inr fun other hother => (hshut other hother).elim⟩
    rw [(h.running hrun).1] at hclosings
    cases hclosings

/-- A loop checks its condition. -/
theorem check (h : s.Tidy descriptor) (i : ℕ) : (s.check i).Tidy descriptor := by
  unfold RunningServer.check
  split
  · rename_i sock hloop
    split_ifs
    · exact (h.setPhase hloop nofun).collect
    · exact h.setPhase hloop nofun
  · exact h

/-- Every orderly action keeps a server tidy. -/
theorem step (h : s.Tidy descriptor) {action : ServerAction K Addr Sock Client}
    (horderly : s.Orderly descriptor action) : (s.step descriptor action).Tidy descriptor := by
  cases action with
  | bind ops addrs ssl kernel =>
    obtain ⟨hbound, hapart⟩ := horderly
    by_cases hall : ∀ a ∈ TcpServer.attempts ops ssl addrs kernel, a.listening = true
    · obtain ⟨_, hsocks⟩ := TcpServer.bind_of_forall s.toTcpServer hall
      refine (h.bound_new _ _ hsocks fun sock hsock => ?_).collect
      obtain ⟨a, ha, rfl⟩ := List.mem_map.mp hsock
      exact hapart a ha
    · obtain ⟨_, _, hsocks⟩ := TcpServer.bind_of_not_forall s.toTcpServer hall
      exact h.bind_failed (hbound.resolve_left hall) _ hsocks
  | start => exact h.start horderly
  | stop => exact h.stop
  | close => exact h.close
  | advance i client =>
    rw [RunningServer.step, RunningServer.advance]
    split
    · exact h.check i
    · exact h.accept i client
    · exact h

end Tidy

/-- The server was stopped, and no open socket has the descriptor of a loop that has not ended. -/
structure Halted (descriptor : Sock → ℕ) (s : RunningServer Sock Client) : Prop where
  stopped : s.m_isStop = true
  bound : ∀ sock ∈ s.m_socks, s.isOpen sock = true
  away : ∀ loop ∈ s.loops, loop.phase ≠ .ended → s.Away descriptor loop.sock

/-- What a step of a loop makes of it, once the server has halted. -/
def AcceptLoop.wind (loop : AcceptLoop Sock) : AcceptLoop Sock :=
  match loop.phase with
  | .checking => ⟨loop.sock, .ended⟩
  | .accepting _ => ⟨loop.sock, .checking⟩
  | .ended => loop

/-- The steps that are left to a loop, once the server has halted. -/
def LoopPhase.left : LoopPhase → ℕ
  | .checking => 1
  | .accepting _ => 2
  | .ended => 0

/-- A step of a loop changes no other loop. -/
theorem getElem?_setPhase {s : RunningServer Sock Client} {i : ℕ} {sock : Sock} {phase phase' : LoopPhase}
    (hloop : s.loops[i]? = some ⟨sock, phase⟩)
    (hwind : AcceptLoop.wind ⟨sock, phase⟩ = ⟨sock, phase'⟩) (j : ℕ) :
    (s.setPhase i sock phase').loops[j]? =
      s.loops[j]?.map fun loop => if i = j then AcceptLoop.wind loop else loop := by
  obtain ⟨hlength, _⟩ := List.getElem?_eq_some_iff.mp hloop
  rw [setPhase, List.getElem?_set]
  by_cases hij : i = j
  · subst hij
    rw [if_pos rfl, if_pos hlength, hloop, Option.map_some, if_pos rfl, hwind]
  · rw [if_neg hij]
    simp only [if_neg hij]
    rw [Option.map_id']

/-- A loop of a halted server goes to another phase. -/
theorem Halted.setPhase {s : RunningServer Sock Client} (h : s.Halted descriptor) {i : ℕ} {sock : Sock}
    {phase phase' : LoopPhase} (hloop : s.loops[i]? = some ⟨sock, phase⟩) (hlive : phase ≠ .ended) :
    (s.setPhase i sock phase').Halted descriptor := by
  refine ⟨h.stopped, h.bound, fun loop hin hphase => ?_⟩
  obtain ⟨old, hold, hsock, holdlive⟩ := live_before hloop hlive hin hphase
  rw [← hsock]
  exact h.away old hold holdlive

section Ends

variable [DecidableEq Sock]

/-- What is destroyed does not matter to a halted server. -/
theorem Halted.collect {s : RunningServer Sock Client} (h : s.Halted descriptor) : s.collect.Halted descriptor where
  stopped := h.stopped
  bound sock hsock := by
    have hused : sock ∈ s.m_socks ∨ ∃ loop ∈ s.loops, loop.sock = sock ∧ loop.phase ≠ .ended := Or.inl hsock
    rw [RunningServer.collect, Bool.and_eq_true, decide_eq_true_iff]
    exact ⟨h.bound sock hsock, hused⟩
  away loop hloop hlive other hother := h.away loop hloop hlive other (Bool.and_elim_left hother)

/-- New sockets are bound in a halted server. -/
theorem Halted.bind {s : RunningServer Sock Client} (h : s.Halted descriptor) {ops : SocketOps K Addr Sock}
    {addrs : List Addr} {ssl : Bool} {kernel : K}
    (hapart : ∀ a ∈ TcpServer.attempts ops ssl addrs kernel, ∀ loop ∈ s.loops, loop.phase ≠ .ended →
      descriptor a.sock ≠ descriptor loop.sock) :
    (s.bind ops addrs ssl kernel).Halted descriptor := by
  have hsocks : ∀ sock ∈ (s.toTcpServer.bind ops addrs [] ssl kernel).server.m_socks,
      sock ∈ s.m_socks ∨ ∃ a ∈ TcpServer.attempts ops ssl addrs kernel, a.sock = sock := by
    intro sock hsock
    by_cases hall : ∀ a ∈ TcpServer.attempts ops ssl addrs kernel, a.listening = true
    · rw [(TcpServer.bind_of_forall s.toTcpServer hall).2, List.mem_append] at hsock
      exact hsock.imp_right List.mem_map.mp
    · rw [(TcpServer.bind_of_not_forall s.toTcpServer hall).2.2] at hsock
      cases hsock
  refine Halted.collect ⟨h.stopped, fun sock hsock => ?_, fun loop hloop hlive other hother => ?_⟩
  · exact Bool.or_eq_true_iff.mpr (Or.inr (decide_eq_true hsock))
  · rcases Bool.or_eq_true_iff.mp hother with hopen | hin
    · exact h.away loop hloop hlive other hopen
    · obtain hold | ⟨a, ha, rfl⟩ := hsocks other (of_decide_eq_true hin)
      · exact h.away loop hloop hlive other (h.bound other hold)
      · exact hapart a ha loop hloop hlive

/-- A closing task runs in a halted server. -/
theorem Halted.close {s : RunningServer Sock Client} (h : s.Halted descriptor) : s.close.Halted descriptor := by
  unfold RunningServer.close
  split
  · exact h
  · exact ⟨h.stopped, fun sock hsock => absurd hsock List.not_mem_nil,
      fun loop hloop hlive other hother => h.away loop hloop hlive other (Bool.and_elim_left hother)⟩

/-- **A step of a loop in a halted server.** Nobody is accepted, and the loop goes on to its end. -/
theorem Halted.advance {s : RunningServer Sock Client} (h : s.Halted descriptor) (i : ℕ)
    (client : Option (Sock × Client)) :
    (s.advance descriptor i client).Halted descriptor ∧ (s.advance descriptor i client).handed = s.handed ∧
      ∀ j, (s.advance descriptor i client).loops[j]? =
        s.loops[j]?.map fun loop => if i = j then AcceptLoop.wind loop else loop := by
  unfold RunningServer.advance
  split
  · rename_i sock hloop
    have hcheck : s.check i = (s.setPhase i sock .ended).collect := by
      rw [check, hloop]
      exact if_pos h.stopped
    rw [hcheck]
    exact ⟨(h.setPhase hloop nofun).collect, rfl, getElem?_setPhase hloop rfl⟩
  · rename_i sock opened hloop
    have haccept : s.accept descriptor i client = s.setPhase i sock .checking := by
      rw [accept, hloop]
      cases client with
      | none => rfl
      | some client =>
        refine if_neg fun haccepts => ?_
        exact h.away _ (List.mem_of_getElem? hloop) nofun client.1 haccepts.2.1 haccepts.2.2
    rw [haccept]
    exact ⟨h.setPhase hloop nofun, rfl, getElem?_setPhase hloop rfl⟩
  · rename_i hchecking haccepting
    refine ⟨h, rfl, fun j => ?_⟩
    cases hj : s.loops[j]? with
    | none => rfl
    | some loop =>
      rw [Option.map_some]
      split_ifs with hij
      · subst hij
        obtain ⟨sock, phase⟩ := loop
        cases phase with
        | checking => exact (hchecking sock hj).elim
        | accepting opened => exact (haccepting sock opened hj).elim
        | ended => rfl
      · rfl

/-- **A step in a halted server** that does not start it. -/
theorem Halted.step {s : RunningServer Sock Client} (h : s.Halted descriptor)
    {action : ServerAction K Addr Sock Client} (horderly : s.Orderly descriptor action) (hstart : action ≠ .start) :
    (s.step descriptor action).Halted descriptor ∧ (s.step descriptor action).handed = s.handed ∧
      ∀ j, (s.step descriptor action).loops[j]? =
        s.loops[j]?.map fun loop => if action.loop? = some j then AcceptLoop.wind loop else loop := by
  have hsame (j : ℕ) : s.loops[j]? = s.loops[j]?.map fun loop => loop := Option.map_id'.symm
  cases action with
  | bind ops addrs ssl kernel => exact ⟨h.bind horderly.2, rfl, hsame⟩
  | start => exact (hstart rfl).elim
  | stop => exact ⟨⟨rfl, h.bound, h.away⟩, rfl, hsame⟩
  | close =>
    have hloops : s.close.loops = s.loops ∧ s.close.handed = s.handed := by
      unfold RunningServer.close
      split <;> exact ⟨rfl, rfl⟩
    refine ⟨h.close, hloops.2, fun j => ?_⟩
    rw [RunningServer.step, hloops.1]
    exact hsame j
  | advance i client =>
    obtain ⟨hnext, hhanded, hloops⟩ := h.advance i client
    refine ⟨hnext, hhanded, fun j => (hloops j).trans ?_⟩
    simp only [ServerAction.loop?, Option.some.injEq]

/-- Steps in a halted server. -/
theorem Halted.performed {s : RunningServer Sock Client} (h : s.Halted descriptor)
    (actions : List (ServerAction K Addr Sock Client)) (hunstarted : s.Unstarted descriptor actions) :
    (s.performed descriptor actions).handed = s.handed ∧
      ∀ j, (s.performed descriptor actions).loops[j]? =
        s.loops[j]?.map AcceptLoop.wind^[(actions.filterMap ServerAction.loop?).count j] := by
  induction actions generalizing s with
  | nil => exact ⟨rfl, fun j => Option.map_id'.symm⟩
  | cons action actions ih =>
    obtain ⟨hpermitted, hstart, hrest⟩ := hunstarted
    obtain ⟨hnext, hhanded, hloops⟩ := h.step hpermitted.2 hstart
    obtain ⟨hlater, hwound⟩ := ih hnext hrest
    refine ⟨hlater.trans hhanded, fun j => (hwound j).trans ?_⟩
    rw [hloops j, Option.map_map]
    congr 1
    funext loop
    rw [Function.comp_apply, List.filterMap_cons]
    cases hloop : action.loop? with
    | none => rw [if_neg nofun]
    | some i =>
      dsimp only
      rw [List.count_cons]
      by_cases hi : i = j
      · rw [if_pos (congrArg some hi), if_pos (beq_iff_eq.mpr hi), Function.iterate_succ_apply]
      · rw [if_neg (mt Option.some.inj hi), if_neg (mt beq_iff_eq.mp hi), Nat.add_zero]

end Ends

/-! ## What becomes of a server that is started too early -/

/-- A loop that has not ended is for a closed socket of a server that runs. Of the clients it was given since, there is
at most one: it was waiting in `accept`, and another socket had the descriptor when it tried again. -/
structure Spinning (descriptor : Sock → ℕ) (before : List (HandedClient Sock Client)) (waiting : Prop) (i : ℕ)
    (sock : Sock) (s : RunningServer Sock Client) : Prop where
  running : s.m_isStop = false
  closed : s.isOpen sock = false
  unbound : sock ∉ s.m_socks
  loop : ∃ phase, phase ≠ .ended ∧ s.loops[i]? = some ⟨sock, phase⟩ ∧
    (s.handedBy i = before ∧ (phase = .accepting true → waiting) ∨
      waiting ∧ phase ≠ .accepting true ∧ ∃ owner client, owner ≠ sock ∧ descriptor owner = descriptor sock ∧
        s.handedBy i = before ++ [⟨i, owner, client⟩])

/-- A client that a loop is given. -/
theorem handedBy_handed (s : RunningServer Sock Client) (i j : ℕ) (sock : Sock) (client : Client) :
    handedBy { s with handed := s.handed ++ [⟨j, sock, client⟩] } i =
      if j = i then s.handedBy i ++ [⟨j, sock, client⟩] else s.handedBy i := by
  rw [handedBy, List.filter_append]
  split_ifs with hji <;> simp [handedBy, hji]

namespace Spinning

variable {before : List (HandedClient Sock Client)} {waiting : Prop} {i j : ℕ} {sock sock' : Sock}
  {phase phase' : LoopPhase} {s : RunningServer Sock Client}

/-- Another loop takes a step. -/
theorem setPhase_other (h : Spinning descriptor before waiting i sock s) (hji : j ≠ i) :
    Spinning descriptor before waiting i sock (s.setPhase j sock' phase') := by
  refine ⟨h.running, h.closed, h.unbound, ?_⟩
  obtain ⟨phase, hlive, hloop, hhanded⟩ := h.loop
  refine ⟨phase, hlive, ?_, hhanded⟩
  rw [RunningServer.setPhase, List.getElem?_set, if_neg hji]
  exact hloop

/-- The loop goes to a phase in which it has no descriptor. -/
theorem setPhase_self (h : Spinning descriptor before waiting i sock s) (hlive : phase' ≠ .ended)
    (hphase : phase' ≠ .accepting true) : Spinning descriptor before waiting i sock (s.setPhase i sock phase') := by
  refine ⟨h.running, h.closed, h.unbound, ?_⟩
  obtain ⟨phase, -, hloop, hhanded⟩ := h.loop
  obtain ⟨hlength, -⟩ := List.getElem?_eq_some_iff.mp hloop
  refine ⟨phase', hlive, ?_, ?_⟩
  · rw [RunningServer.setPhase, List.getElem?_set, if_pos rfl, if_pos hlength]
  · exact hhanded.imp (fun hsame => ⟨hsame.1, fun heq => absurd heq hphase⟩) fun hmore => ⟨hmore.1, hphase, hmore.2.2⟩

/-- Another loop is given a client. -/
theorem handed_other (h : Spinning descriptor before waiting i sock s) (hji : j ≠ i) (owner : Sock) (client : Client) :
    Spinning descriptor before waiting i sock { s with handed := s.handed ++ [⟨j, owner, client⟩] } := by
  refine ⟨h.running, h.closed, h.unbound, ?_⟩
  rw [handedBy_handed, if_neg hji]
  exact h.loop

/-- A loop comes back from `accept`. -/
theorem accept (h : Spinning descriptor before waiting i sock s) (j : ℕ) (client : Option (Sock × Client)) :
    Spinning descriptor before waiting i sock (s.accept descriptor j client) := by
  unfold RunningServer.accept
  split
  · rename_i sock' opened hloop
    by_cases hji : j = i
    · subst hji
      obtain ⟨phase, -, hloop₀, hhanded⟩ := h.loop
      cases hloop.symm.trans hloop₀
      have hnext : Spinning descriptor before waiting j sock (s.setPhase j sock .checking) :=
        h.setPhase_self nofun nofun
      split
      · rename_i owner client
        split_ifs with haccepts
        · -- It was called with the descriptor, and has not been given anybody yet.
          obtain ⟨rfl, hopen, hdescriptor⟩ := haccepts
          have howner : owner ≠ sock := by
            rintro rfl
            rw [h.closed] at hopen
            cases hopen
          obtain ⟨hsame, hwaiting⟩ := hhanded.resolve_right fun hmore => hmore.2.1 rfl
          have hgiven := handedBy_handed (s.setPhase j sock .checking) j j owner client
          rw [if_pos rfl] at hgiven
          obtain ⟨hlength, -⟩ := List.getElem?_eq_some_iff.mp hloop
          exact ⟨h.running, h.closed, h.unbound, .checking, nofun, List.getElem?_set_self hlength, .inr ⟨hwaiting rfl,
            nofun, owner, client, howner, hdescriptor, hgiven.trans (congrArg (· ++ _) hsame)⟩⟩
        · exact hnext
      · exact hnext
    · have hnext : Spinning descriptor before waiting i sock (s.setPhase j sock' .checking) := h.setPhase_other hji
      split
      · split_ifs
        · exact hnext.handed_other hji _ _
        · exact hnext
      · exact hnext
  · exact h

variable [DecidableEq Sock]

/-- Sockets are destroyed. -/
theorem collect (h : Spinning descriptor before waiting i sock s) :
    Spinning descriptor before waiting i sock s.collect :=
  ⟨h.running, Bool.and_eq_false_imp.mpr fun hopen => (Bool.eq_false_iff.mp h.closed hopen).elim, h.unbound, h.loop⟩

/-- New sockets are bound, or those of the server are dropped. -/
theorem bind (h : Spinning descriptor before waiting i sock s) {ops : SocketOps K Addr Sock} {addrs : List Addr}
    {ssl : Bool} {kernel : K} (hfresh : s.Fresh (.bind ops addrs ssl kernel)) :
    Spinning descriptor before waiting i sock (s.bind ops addrs ssl kernel) := by
  have hunbound : sock ∉ (s.toTcpServer.bind ops addrs [] ssl kernel).server.m_socks := by
    by_cases hall : ∀ a ∈ TcpServer.attempts ops ssl addrs kernel, a.listening = true
    · rw [(TcpServer.bind_of_forall s.toTcpServer hall).2, List.mem_append]
      intro hin
      cases hin with
      | inl hold => exact h.unbound hold
      | inr hnew =>
        obtain ⟨a, ha, hsock⟩ := List.mem_map.mp hnew
        obtain ⟨phase, _, hloop, _⟩ := h.loop
        exact (hfresh a ha).2 _ (List.mem_of_getElem? hloop) hsock.symm
    · rw [(TcpServer.bind_of_not_forall s.toTcpServer hall).2.2]
      exact List.not_mem_nil
  have hclosed : (s.isOpen sock || decide (sock ∈ (s.toTcpServer.bind ops addrs [] ssl kernel).server.m_socks)) =
      false := by
    rw [h.closed, Bool.false_or, decide_eq_false_iff_not]
    exact hunbound
  exact collect ⟨h.running, hclosed, hunbound, h.loop⟩

/-- A closing task runs. -/
theorem close (h : Spinning descriptor before waiting i sock s) :
    Spinning descriptor before waiting i sock s.close := by
  unfold RunningServer.close
  split
  · exact h
  · refine ⟨h.running, ?_, List.not_mem_nil, h.loop⟩
    exact Bool.and_eq_false_imp.mpr fun hopen => (Bool.eq_false_iff.mp h.closed hopen).elim

/-- A loop checks its condition. -/
theorem check (h : Spinning descriptor before waiting i sock s) (j : ℕ) :
    Spinning descriptor before waiting i sock (s.check j) := by
  unfold RunningServer.check
  split
  · rename_i sock' hloop
    rw [if_neg (Bool.eq_false_iff.mp h.running)]
    by_cases hji : j = i
    · subst hji
      obtain ⟨phase, -, hloop₀, -⟩ := h.loop
      cases hloop.symm.trans hloop₀
      rw [h.closed]
      exact h.setPhase_self nofun nofun
    · exact h.setPhase_other hji
  · exact h

/-- Whatever happens, but for `stop`, the loop goes on. -/
theorem step (h : Spinning descriptor before waiting i sock s) {action : ServerAction K Addr Sock Client}
    (hfresh : s.Fresh action) (hstop : action ≠ .stop) :
    Spinning descriptor before waiting i sock (s.step descriptor action) := by
  cases action with
  | bind ops addrs ssl kernel => exact h.bind hfresh
  | start =>
    have hsame : s.step descriptor (.start : ServerAction K Addr Sock Client) = s := by
      rw [RunningServer.step, start, h.running]
      rfl
    rw [hsame]
    exact h
  | stop => exact (hstop rfl).elim
  | close => exact h.close
  | advance j client =>
    rw [RunningServer.step, RunningServer.advance]
    split
    · exact h.check j
    · exact h.accept j client
    · exact h

end Spinning

end RunningServer

end Bobliew
