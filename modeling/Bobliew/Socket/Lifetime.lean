import Bobliew.Hook.Descriptors
import Bobliew.Lib.Owners

/-!
# Sockets and their descriptors

A `Socket` has a descriptor from `newSock` or `accept` until `close`, which its destructor calls. Calls of
`bind` and `connect` make one when there is none, `bind` to a Unix address connects another socket first to
see whether somebody listens there, and `accept` keeps a descriptor only when `FdManager` has a context for it
that says it is a socket. Threads may have hooks or not. The calls on one socket do not overlap.

Options, and the addresses that only `toString` prints, are left out. Nobody else opens or closes descriptors.
-/

namespace Bobliew.Sockets

open Hook

variable {S F C : Type}

/-- `Address`: `getFamily`, and whether it is a `UnixAddress`. -/
structure Address where
  family : ℕ
  unix : Bool
  deriving DecidableEq

/-- `Socket`; no descriptor stands for -1. -/
structure Socket where
  sock : Option ℕ
  family : ℕ
  isConnected : Bool
  remoteAddress : Option Address

/-- The descriptor that the kernel gives to `socket` or `accept`, with its flags, or -1. -/
abbrev Opened := Option (ℕ × Flags)

namespace Socket

/-- `Socket::Socket`. -/
def new (family : ℕ) : Socket := ⟨none, family, false, none⟩

/-- `Socket::isValid`. -/
def isValid (sock : Socket) : Bool := sock.sock.isSome

/-- `Socket::newSock`. -/
def newSock (hook : Bool) (w : World S F C) (sock : Socket) (result : Opened) :
    Except IOFault (World S F C × Socket) :=
  (w.socket hook result).map fun w => (w, { sock with sock := result.map Prod.fst })

/-- `if(!isValid()) newSock()`. -/
def validate (hook : Bool) (w : World S F C) (sock : Socket) (result : Opened) :
    Except IOFault (World S F C × Socket) :=
  if sock.isValid then .ok (w, sock) else sock.newSock hook w result

/-- `Socket::close`; the outcome of `epoll_ctl` in a thread without hooks is given, none without an I/O manager. -/
def close (hook : Bool) (w : World S F C) (sock : Socket) (ctl : Option Bool) : Except IOFault (World S F C × Socket) :=
  if !sock.isConnected && !sock.isValid then .ok (w, sock)
  else
    match sock.sock with
    | none => .ok (w, { sock with isConnected := false })
    | some fd => (w.close hook fd ctl).map fun w => (w, { sock with sock := none, isConnected := false })

/-- `Socket::connect`, with the outcome of the system call, and whether the socket is connected afterwards. -/
def connect (hook : Bool) (w : World S F C) (sock : Socket) (addr : Address) (result : Opened)
    (connected : Bool) (ctl : Option Bool) : Except IOFault (World S F C × Socket × Bool) :=
  (({ sock with remoteAddress := some addr } : Socket).validate hook w result).bind fun (w, sock) =>
    if !sock.isValid || addr.family != sock.family then .ok (w, sock, false)
    else if connected then .ok (w, { sock with isConnected := true }, true)
    else (sock.close hook w ctl).map fun (w, sock) => (w, sock, false)

/-- `Socket::reconnect`. -/
def reconnect (hook : Bool) (w : World S F C) (sock : Socket) (result : Opened) (connected : Bool) (ctl : Option Bool) :
    Except IOFault (World S F C × Socket × Bool) :=
  match sock.remoteAddress with
  | none => .ok (w, sock, false)
  | some addr => sock.connect hook w addr result connected ctl

/-- What the kernel answers to the socket that `bind` connects to a Unix address: a descriptor, and whether
somebody listens. -/
structure Probe where
  result : Opened
  connected : Bool
  ctl : Option Bool

/-- The socket of `bind` that connects to a Unix address, made and destroyed there. -/
def probe (hook : Bool) (w : World S F C) (addr : Address) (answer : Probe) : Except IOFault (World S F C × Bool) :=
  ((new addr.family).connect hook w addr answer.result answer.connected answer.ctl).bind fun (w, sock, connected) =>
    (sock.close hook w answer.ctl).map fun (w, _) => (w, connected)

/-- `Socket::bind`, with the outcome of the system call. -/
def bind (hook : Bool) (w : World S F C) (sock : Socket) (addr : Address) (result : Opened) (answer : Probe)
    (bound : Bool) : Except IOFault (World S F C × Socket × Bool) :=
  (sock.validate hook w result).bind fun (w, sock) =>
    if !sock.isValid || addr.family != sock.family then .ok (w, sock, false)
    else if addr.unix then
      (probe hook w addr answer).map fun (w, connected) => (w, sock, !connected && bound)
    else .ok (w, sock, bound)

/-- `Socket::init`, with what `getpeername` gives. -/
def init (w : World S F C) (sock : Socket) (fd : ℕ) (peer : Option Address) : Socket × Bool :=
  match w.get fd with
  | some ctx =>
    if ctx.isSocket && !ctx.isClosed then
      ({ sock with sock := some fd, isConnected := true, remoteAddress := peer }, true)
    else (sock, false)
  | none => (sock, false)

/-- `Socket::accept` and `SSLSocket::accept`: the new socket if there is one. A socket that `init` or the
handshake of SSL refuses is destroyed at once. -/
def accept (hook : Bool) (w : World S F C) (sock : Socket) (result : Opened) (peer : Option Address)
    (handshake : Bool) (ctl : Option Bool) : Except IOFault (World S F C × Option Socket) :=
  (w.accept result).bind fun w =>
    match result with
    | none => .ok (w, none)
    | some (fd, _) =>
      let made := (new sock.family).init w fd peer
      if made.2 && handshake then .ok (w, some made.1)
      else (made.1.close hook w ctl).map fun (w, _) => (w, none)

/-- `Socket::CreateUDP`. -/
def createUDP (hook : Bool) (w : World S F C) (family : ℕ) (result : Opened) :
    Except IOFault (World S F C × Socket) :=
  ((new family).newSock hook w result).map fun (w, sock) => (w, { sock with isConnected := true })

end Socket

/-- The world and the sockets that exist. -/
structure State (S F C : Type) where
  world : World S F C
  sockets : ℕ → Option Socket
  count : ℕ

/-- A call on a socket, in a thread with hooks or without, with the outcomes of the kernel. -/
inductive Call where
  | createTCP (family : ℕ)
  | createUDP (hook : Bool) (family : ℕ) (result : Opened)
  | bind (i : ℕ) (hook : Bool) (addr : Address) (result : Opened) (answer : Socket.Probe) (bound : Bool)
  | connect (i : ℕ) (hook : Bool) (addr : Address) (result : Opened) (connected : Bool) (ctl : Option Bool)
  | reconnect (i : ℕ) (hook : Bool) (result : Opened) (connected : Bool) (ctl : Option Bool)
  | accept (i : ℕ) (hook : Bool) (result : Opened) (peer : Option Address) (handshake : Bool) (ctl : Option Bool)
  | close (i : ℕ) (hook : Bool) (ctl : Option Bool)
  | destroy (i : ℕ) (hook : Bool) (ctl : Option Bool)

namespace State

/-- No socket exists. -/
def init (world : World S F C) : State S F C := ⟨world, fun _ => none, 0⟩

/-- A socket is as a call has left it. -/
def put (s : State S F C) (i : ℕ) (w : World S F C) (sock : Socket) : State S F C :=
  { s with world := w, sockets := Function.update s.sockets i (some sock) }

/-- A new socket. -/
def add (s : State S F C) (w : World S F C) (sock : Socket) : State S F C :=
  ⟨w, Function.update s.sockets s.count (some sock), s.count + 1⟩

/-- A call on a socket that exists. -/
def on (s : State S F C) (i : ℕ) (call : Socket → Except IOFault (State S F C)) : Except IOFault (State S F C) :=
  match s.sockets i with
  | none => .ok s
  | some sock => call sock

/-- Perform one call. -/
def step (s : State S F C) : Call → Except IOFault (State S F C)
  | .createTCP family => .ok (s.add s.world (.new family))
  | .createUDP hook family result => (Socket.createUDP hook s.world family result).map fun (w, sock) => s.add w sock
  | .bind i hook addr result answer bound =>
    s.on i fun sock => (sock.bind hook s.world addr result answer bound).map fun (w, sock, _) => s.put i w sock
  | .connect i hook addr result connected ctl =>
    s.on i fun sock => (sock.connect hook s.world addr result connected ctl).map fun (w, sock, _) => s.put i w sock
  | .reconnect i hook result connected ctl =>
    s.on i fun sock => (sock.reconnect hook s.world result connected ctl).map fun (w, sock, _) => s.put i w sock
  | .accept i hook result peer handshake ctl =>
    s.on i fun sock => (sock.accept hook s.world result peer handshake ctl).map fun
      | (w, some made) => s.add w made
      | (w, none) => { s with world := w }
  | .close i hook ctl => s.on i fun sock => (sock.close hook s.world ctl).map fun (w, sock) => s.put i w sock
  | .destroy i hook ctl =>
    s.on i fun sock => (sock.close hook s.world ctl).map fun (w, _) =>
      { s with world := w, sockets := Function.update s.sockets i none }

/-- The descriptor of a socket. -/
def held (s : State S F C) (i : ℕ) : Option ℕ := (s.sockets i).bind Socket.sock

end State

/-- The kernel gives away only descriptors that are not open. -/
def Unused (w : World S F C) (result : Opened) : Prop := ∀ fd flags, result = some (fd, flags) → w.kernel fd = none

/-- The results of the kernel are descriptors that are not open, two of one call two different ones. -/
def State.Permitted (s : State S F C) : Call → Prop
  | .createUDP _ _ result => Unused s.world result
  | .bind _ _ _ result answer _ => Unused s.world result ∧ Unused s.world answer.result ∧
      ∀ fd flags, result = some (fd, flags) → ∀ flags', answer.result ≠ some (fd, flags')
  | .connect _ _ _ result _ _ => Unused s.world result
  | .reconnect _ _ result _ _ => Unused s.world result
  | .accept _ _ result _ _ _ => Unused s.world result
  | _ => True

/-- The open descriptors. -/
def opened (w : World S F C) : Set ℕ := { fd | (w.kernel fd).isSome = true }

/-- Every context of the table says that its descriptor is a socket, and open. -/
def Managed (w : World S F C) : Prop :=
  ∀ fd ctx, w.get fd = some ctx → ctx.isSocket = true ∧ ctx.isClosed = false

/-- What a call does to the descriptor of one socket, as seen by the owners. -/
structure Transfers (w w' : World S F C) (a b : Option ℕ) : Prop where
  managed : Managed w → Managed w'
  owning : ∀ (before : Set ℕ) (held : ℕ → Option ℕ) i, held i = a → Owning before held (opened w) →
    Owning before (Function.update held i b) (opened w')

namespace Transfers

variable {w w' w'' : World S F C} {a b c : Option ℕ}

/-- Nothing happens. -/
theorem refl (w : World S F C) (a : Option ℕ) : Transfers w w a a where
  managed h := h
  owning before held i hi h := by
    rw [← hi, Function.update_eq_self]
    exact h

/-- One after the other. -/
theorem trans (hab : Transfers w w' a b) (hbc : Transfers w' w'' b c) :
    Transfers w w'' a c where
  managed h := hbc.managed (hab.managed h)
  owning before held i hi h := by
    have hnext := hbc.owning before _ i (Function.update_self _ _ _) (hab.owning before held i hi h)
    rwa [Function.update_idem] at hnext

/-- What takes nothing and gives nothing back leaves every owner with what it has. -/
theorem other (h : Transfers w w' none none) (a : Option ℕ) : Transfers w w' a a where
  managed := h.managed
  owning before held i hi hheld := by
    have hnobody := h.owning (opened w) (fun _ => none) 0 rfl (Owning.init (opened w))
    have hsame : opened w' = opened w := by
      apply hnobody.taken_eq
      intro j
      rw [Function.update_apply]
      split_ifs <;> rfl
    rw [hsame, ← hi, Function.update_eq_self]
    exact hheld

end Transfers

section World

variable {w w' : World S F C} {fd : ℕ} {flags : Flags} {hook : Bool}

/-- A new context says what kind of file its descriptor is. -/
theorem create_socket (hopen : w.kernel fd = some ⟨true, flags⟩) (hok : w.create fd = .ok w') :
    (∃ file, w'.kernel = Function.update w.kernel fd (some file)) ∧ (w'.get fd).isSome = true ∧
      (Managed w → Managed w') := by
  unfold World.create at hok
  split at hok
  · rename_i ctx hget
    cases hok
    refine ⟨⟨⟨true, flags⟩, ?_⟩, by rw [hget]; rfl, id⟩
    rw [← hopen, Function.update_eq_self]
  · dsimp only at hok
    generalize hdatas : (if fd ≥ w.datas.length then
      w.datas ++ List.replicate (3 * fd / 2 - w.datas.length) none else w.datas) = datas at hok
    have hsame : ∀ i : ℕ, (datas[i]?).join = w.get i := by
      intro i
      rw [← hdatas]
      split
      · exact Hook.join_getElem?_append_replicate _ _ _
      · rfl
    split at hok
    · rename_i hroom
      cases hok
      obtain ⟨hinitial, file, hfile, -⟩ := FdCtx.init_socket flags
      have hget : ∀ i, ((datas.set fd (some FdCtx.initial))[i]?).join = if i = fd then some .initial else w.get i := by
        intro i
        by_cases hi : i = fd
        · subst hi
          rw [List.getElem?_set_self hroom, if_pos rfl]
          rfl
        · rw [List.getElem?_set_ne (Ne.symm hi), if_neg hi, hsame]
      refine ⟨⟨file, ?_⟩, ?_, fun hmanaged i ctx hi => ?_⟩
      · rw [hopen, hfile]
      · simp only [World.get, hopen, hinitial, hget]
        rfl
      · simp only [World.get, hopen, hinitial] at hi
        rw [hget] at hi
        by_cases hif : i = fd
        · rw [if_pos hif] at hi
          cases hi
          exact ⟨rfl, rfl⟩
        · rw [if_neg hif] at hi
          exact hmanaged i ctx hi
    · cases hok

/-- A descriptor that is opened is taken. -/
theorem transfers_of_kernel (file : KernelFile) (hunused : w.kernel fd = none)
    (hkernel : w'.kernel = Function.update w.kernel fd (some file)) (hmanaged : Managed w → Managed w') :
    Transfers w w' none (some fd) where
  managed := hmanaged
  owning before held i hi h := by
    have hopened : opened w' = insert fd (opened w) := by
      ext fd'
      rw [opened, hkernel, Set.mem_insert_iff, Set.mem_ofPred_eq]
      by_cases heq : fd' = fd
      · subst heq
        simp
      · simp [heq, opened]
    rw [hopened]
    apply h.take hi
    intro hmem
    rw [opened, Set.mem_ofPred_eq, hunused] at hmem
    cases hmem

/-- `accept` opens a descriptor and leaves a context for it. -/
theorem transfers_accept (hunused : w.kernel fd = none) (hok : w.accept (some (fd, flags)) = .ok w') :
    Transfers w w' none (some fd) ∧ (w'.get fd).isSome = true := by
  have hopen : (w.openSocket fd flags).kernel fd = some ⟨true, flags⟩ := Function.update_self _ _ _
  obtain ⟨⟨file, hfile⟩, hget, hmanaged⟩ := create_socket hopen hok
  refine ⟨transfers_of_kernel file hunused ?_ hmanaged, hget⟩
  rw [hfile, World.openSocket, Function.update_idem]

/-- `socket` opens a descriptor, or none. -/
theorem transfers_socket {result : Opened} (hunused : Unused w result)
    (hok : w.socket hook result = .ok w') : Transfers w w' none (result.map Prod.fst) := by
  cases result with
  | none =>
    cases hok
    exact .refl w none
  | some made =>
    obtain ⟨fd, flags⟩ := made
    have hfd := hunused fd flags rfl
    simp only [World.socket] at hok
    split at hok
    · cases hok
      exact transfers_of_kernel _ hfd rfl id
    · exact (transfers_accept hfd hok).1

/-- `socket` leaves other descriptors as they are. -/
theorem kernel_socket {result : Opened} {other : ℕ} (hother : ∀ flags, result ≠ some (other, flags))
    (hok : w.socket hook result = .ok w') : w'.kernel other = w.kernel other := by
  cases result with
  | none =>
    cases hok
    rfl
  | some made =>
    obtain ⟨fd, flags⟩ := made
    have hne : other ≠ fd := by
      intro heq
      exact hother flags (by rw [heq])
    simp only [World.socket] at hok
    split at hok
    · cases hok
      exact Function.update_of_ne hne _ _
    · have hopen : (w.openSocket fd flags).kernel fd = some ⟨true, flags⟩ := Function.update_self _ _ _
      obtain ⟨⟨file, hfile⟩, -, -⟩ := create_socket hopen hok
      rw [hfile, Function.update_of_ne hne]
      exact Function.update_of_ne hne _ _

/-- Closing gives the descriptor back. -/
theorem transfers_close {ctl : Option Bool} (hok : w.close hook fd ctl = .ok w') :
    Transfers w w' (some fd) none := by
  have hclosed : w'.kernel = Function.update w.kernel fd none ∧ (Managed w → Managed w') := by
    unfold World.close at hok
    split at hok
    · cases hok
      exact ⟨rfl, id⟩
    · split at hok
      · cases hok
        exact ⟨rfl, id⟩
      · obtain ⟨iom, -, rfl⟩ := Except.exists_of_map_eq_ok hok
        refine ⟨rfl, fun hmanaged i ctx hi => hmanaged i ctx ?_⟩
        simp only [World.get, World.del, List.getElem?_set] at hi
        split_ifs at hi
        · cases hi
        · cases hi
        · exact hi
  refine ⟨hclosed.2, fun before held i hi h => ?_⟩
  have hopened : opened w' = opened w \ {fd} := by
    ext fd'
    rw [opened, hclosed.1, Set.mem_sdiff, Set.mem_singleton_iff, Set.mem_ofPred_eq]
    by_cases heq : fd' = fd
    · subst heq
      simp
    · simp [heq, opened]
  rw [hopened]
  exact h.giveBack hi

end World

/-! ## What the functions do -/

section Functions

variable {w w' : World S F C} {sock sock' : Socket} {hook : Bool} {ctl : Option Bool} {result : Opened}

/-- `newSock` takes a descriptor when there is none. -/
theorem transfers_newSock (hnone : sock.sock = none) (hunused : Unused w result)
    (hok : sock.newSock hook w result = .ok (w', sock')) :
    Transfers w w' sock.sock sock'.sock ∧ sock'.family = sock.family := by
  obtain ⟨w₁, hsocket, heq⟩ := Except.exists_of_map_eq_ok hok
  cases heq
  rw [hnone]
  exact ⟨transfers_socket hunused hsocket, rfl⟩

/-- So does a call that needs one. -/
theorem transfers_validate (hunused : Unused w result)
    (hok : sock.validate hook w result = .ok (w', sock')) :
    Transfers w w' sock.sock sock'.sock ∧ sock'.family = sock.family := by
  unfold Socket.validate at hok
  split at hok
  · cases hok
    exact ⟨.refl w _, rfl⟩
  · rename_i hinvalid
    refine transfers_newSock ?_ hunused hok
    exact Option.not_isSome_iff_eq_none.mp hinvalid

/-- `close` gives the descriptor back. -/
theorem transfers_closeSocket (hok : sock.close hook w ctl = .ok (w', sock')) :
    Transfers w w' sock.sock none := by
  unfold Socket.close at hok
  split at hok
  · rename_i hclosed
    cases hok
    rw [Bool.and_eq_true, Bool.not_eq_true', Bool.not_eq_true'] at hclosed
    rw [Option.isNone_iff_eq_none.mp (Option.isSome_eq_false_iff.mp hclosed.2)]
    exact .refl w none
  · split at hok
    · rename_i hnone
      cases hok
      rw [hnone]
      exact .refl w none
    · rename_i fd hfd
      obtain ⟨w₁, hclose, heq⟩ := Except.exists_of_map_eq_ok hok
      cases heq
      rw [hfd]
      exact transfers_close hclose

/-- A closed socket has no descriptor. -/
theorem sock_of_close (hok : sock.close hook w ctl = .ok (w', sock')) : sock'.sock = none := by
  unfold Socket.close at hok
  split at hok
  · rename_i hclosed
    cases hok
    rw [Bool.and_eq_true, Bool.not_eq_true', Bool.not_eq_true'] at hclosed
    exact Option.isNone_iff_eq_none.mp (Option.isSome_eq_false_iff.mp hclosed.2)
  · split at hok
    · rename_i hnone
      cases hok
      exact hnone
    · obtain ⟨w₁, -, heq⟩ := Except.exists_of_map_eq_ok hok
      cases heq
      rfl

/-- A call that needs a descriptor leaves others as they are. -/
theorem unused_validate {other : Opened}
    (hdistinct : ∀ fd flags, result = some (fd, flags) → ∀ flags', other ≠ some (fd, flags'))
    (hunused : Unused w other) (hok : sock.validate hook w result = .ok (w', sock')) : Unused w' other := by
  unfold Socket.validate at hok
  split at hok
  · cases hok
    exact hunused
  · obtain ⟨w₁, hsocket, heq⟩ := Except.exists_of_map_eq_ok hok
    cases heq
    intro fd flags hfd
    rw [kernel_socket ?_ hsocket]
    · exact hunused fd flags hfd
    · intro flags' hresult
      exact hdistinct fd flags' hresult flags hfd

variable {addr : Address} {connected : Bool} {ret : Bool}

/-- `connect` takes a descriptor when there is none, and gives it back when it fails. -/
theorem transfers_connect (hunused : Unused w result)
    (hok : sock.connect hook w addr result connected ctl = .ok (w', sock', ret)) :
    Transfers w w' sock.sock sock'.sock := by
  obtain ⟨⟨w₁, sock₁⟩, hvalidate, hrest⟩ := Except.exists_of_bind_eq_ok hok
  have htaken := (transfers_validate hunused hvalidate).1
  dsimp only at hrest
  split at hrest
  · cases hrest
    exact htaken
  · split at hrest
    · cases hrest
      exact htaken
    · obtain ⟨⟨w₂, sock₂⟩, hclose, heq⟩ := Except.exists_of_map_eq_ok hrest
      cases heq
      have hback := transfers_closeSocket hclose
      rw [sock_of_close hclose]
      exact htaken.trans hback

/-- The socket that `bind` makes is gone when `bind` goes on. -/
theorem transfers_probe {answer : Socket.Probe} (hunused : Unused w answer.result)
    (hok : Socket.probe hook w addr answer = .ok (w', ret)) : Transfers w w' none none := by
  obtain ⟨⟨w₁, sock₁, connected⟩, hconnect, hrest⟩ := Except.exists_of_bind_eq_ok hok
  obtain ⟨⟨w₂, sock₂⟩, hclose, heq⟩ := Except.exists_of_map_eq_ok hrest
  cases heq
  exact (transfers_connect hunused hconnect).trans (transfers_closeSocket hclose)

/-- `bind` takes a descriptor when there is none. -/
theorem transfers_bind {answer : Socket.Probe} {bound : Bool} (hunused : Unused w result)
    (hprobe : Unused w answer.result)
    (hdistinct : ∀ fd flags, result = some (fd, flags) → ∀ flags', answer.result ≠ some (fd, flags'))
    (hok : sock.bind hook w addr result answer bound = .ok (w', sock', ret)) :
    Transfers w w' sock.sock sock'.sock := by
  obtain ⟨⟨w₁, sock₁⟩, hvalidate, hrest⟩ := Except.exists_of_bind_eq_ok hok
  have htaken := (transfers_validate hunused hvalidate).1
  dsimp only at hrest
  split at hrest
  · cases hrest
    exact htaken
  · split at hrest
    · obtain ⟨⟨w₂, listening⟩, hprobed, heq⟩ := Except.exists_of_map_eq_ok hrest
      cases heq
      have hgone := transfers_probe (unused_validate hdistinct hprobe hvalidate) hprobed
      exact htaken.trans (hgone.other _)
    · cases hrest
      exact htaken

/-- `accept` wraps every descriptor that the kernel gives in a socket, or closes it. -/
theorem transfers_acceptSocket {peer : Option Address} {handshake : Bool} {made : Option Socket}
    (hmanaged : Managed w) (hunused : Unused w result)
    (hok : sock.accept hook w result peer handshake ctl = .ok (w', made)) :
    Transfers w w' none (made.bind Socket.sock) := by
  obtain ⟨w₁, haccept, hrest⟩ := Except.exists_of_bind_eq_ok hok
  cases result with
  | none =>
    cases haccept
    cases hrest
    exact .refl w none
  | some opened =>
    obtain ⟨fd, flags⟩ := opened
    obtain ⟨htaken, hcontext⟩ := transfers_accept (hunused fd flags rfl) haccept
    obtain ⟨ctx, hctx⟩ := Option.isSome_iff_exists.mp hcontext
    obtain ⟨hsocket, hopen⟩ := htaken.managed hmanaged fd ctx hctx
    have hinit : (Socket.new sock.family).init w₁ fd peer =
        (⟨some fd, sock.family, true, peer⟩, true) := by
      simp [Socket.init, hctx, hsocket, hopen, Socket.new]
    dsimp only at hrest
    rw [hinit] at hrest
    split at hrest
    · cases hrest
      exact htaken
    · obtain ⟨⟨w₂, sock₂⟩, hclose, heq⟩ := Except.exists_of_map_eq_ok hrest
      cases heq
      exact htaken.trans (transfers_closeSocket hclose)

end Functions

/-! ## Runs -/

namespace State

/-- Every open descriptor was open before or belongs to exactly one socket, and the table knows sockets only. -/
structure Owned (before : Set ℕ) (s : State S F C) : Prop where
  owning : Owning before s.held (opened s.world)
  managed : Managed s.world
  new : ∀ i ≥ s.count, s.sockets i = none

variable {before : Set ℕ} {s s' : State S F C} {w : World S F C} {sock sock' : Socket} {i : ℕ}

/-- The descriptors after a call on a socket. -/
theorem held_put (s : State S F C) (i : ℕ) (w : World S F C) (sock : Socket) :
    (s.put i w sock).held = Function.update s.held i sock.sock := by
  funext j
  by_cases hji : j = i
  · subst hji
    simp [held, put]
  · simp [held, put, hji]

/-- A call on a socket keeps the owners. -/
theorem Owned.put (h : s.Owned before) (hsock : s.sockets i = some sock)
    (ht : Transfers s.world w sock.sock sock'.sock) : (s.put i w sock').Owned before where
  owning := by
    rw [held_put]
    exact ht.owning before s.held i (by rw [held, hsock]; rfl) h.owning
  managed := ht.managed h.managed
  new j hj := by
    have hji : j ≠ i := by
      intro heq
      rw [heq] at hj
      rw [h.new i hj] at hsock
      cases hsock
    exact (Function.update_of_ne hji _ _).trans (h.new j hj)

/-- A new socket keeps the owners. -/
theorem Owned.add (h : s.Owned before) (ht : Transfers s.world w none sock.sock) :
    (s.add w sock).Owned before where
  owning := by
    have hheld : (s.add w sock).held = Function.update s.held s.count sock.sock := by
      funext j
      by_cases hj : j = s.count
      · subst hj
        simp [held, State.add]
      · simp [held, State.add, hj]
    rw [hheld]
    exact ht.owning before s.held s.count (by rw [held, h.new s.count le_rfl]; rfl) h.owning
  managed := ht.managed h.managed
  new j hj := by
    have hjs : s.count < j := hj
    exact (Function.update_of_ne (Nat.ne_of_gt hjs) _ _).trans (h.new j (Nat.le_of_lt hjs))

/-- A call that leaves no socket keeps the owners. -/
theorem Owned.of_none (h : s.Owned before) (ht : Transfers s.world w none none) :
    ({ s with world := w } : State S F C).Owned before where
  owning := by
    have hfree : s.held s.count = none := by
      rw [held, h.new s.count le_rfl]
      rfl
    have howning := ht.owning before s.held s.count hfree h.owning
    rwa [← hfree, Function.update_eq_self] at howning
  managed := ht.managed h.managed
  new := h.new

/-- A destroyed socket has given its descriptor back. -/
theorem Owned.destroy (h : s.Owned before) (hsock : s.sockets i = some sock)
    (ht : Transfers s.world w sock.sock none) :
    ({ s with world := w, sockets := Function.update s.sockets i none } : State S F C).Owned before where
  owning := by
    have hheld : ({ s with world := w, sockets := Function.update s.sockets i none } : State S F C).held =
        Function.update s.held i none := by
      funext j
      by_cases hji : j = i
      · subst hji
        simp [held]
      · simp [held, hji]
    rw [hheld]
    exact ht.owning before s.held i (by rw [held, hsock]; rfl) h.owning
  managed := ht.managed h.managed
  new j hj := by
    by_cases hji : j = i
    · subst hji
      exact Function.update_self _ _ _
    · exact (Function.update_of_ne hji _ _).trans (h.new j hj)

/-- Every call keeps the owners. -/
theorem Owned.step {call : Call} (h : s.Owned before) (hpermitted : s.Permitted call) (hok : s.step call = .ok s') :
    s'.Owned before := by
  have hon : ∀ {i} {f : Socket → Except IOFault (State S F C)}, s.on i f = .ok s' →
      (∀ sock, s.sockets i = some sock → f sock = .ok s' → s'.Owned before) → s'.Owned before := by
    intro i f hcall hf
    unfold on at hcall
    split at hcall
    · cases hcall
      exact h
    · rename_i sock hsock
      exact hf sock hsock hcall
  cases call with
  | createTCP family =>
    cases hok
    exact h.add (.refl s.world none)
  | createUDP hook family result =>
    obtain ⟨⟨w, sock⟩, hmade, rfl⟩ := Except.exists_of_map_eq_ok hok
    obtain ⟨⟨w₁, sock₁⟩, hnew, heq⟩ := Except.exists_of_map_eq_ok hmade
    cases heq
    exact h.add (transfers_newSock rfl hpermitted hnew).1
  | bind i hook addr result answer bound =>
    refine hon hok fun sock hsock hcall => ?_
    obtain ⟨⟨w, sock', ret⟩, hbind, rfl⟩ := Except.exists_of_map_eq_ok hcall
    exact h.put hsock (transfers_bind hpermitted.1 hpermitted.2.1 hpermitted.2.2 hbind)
  | connect i hook addr result connected ctl =>
    refine hon hok fun sock hsock hcall => ?_
    obtain ⟨⟨w, sock', ret⟩, hconnect, rfl⟩ := Except.exists_of_map_eq_ok hcall
    exact h.put hsock (transfers_connect hpermitted hconnect)
  | reconnect i hook result connected ctl =>
    refine hon hok fun sock hsock hcall => ?_
    obtain ⟨⟨w, sock', ret⟩, hreconnect, rfl⟩ := Except.exists_of_map_eq_ok hcall
    unfold Socket.reconnect at hreconnect
    split at hreconnect
    · cases hreconnect
      exact h.put hsock (.refl s.world _)
    · exact h.put hsock (transfers_connect hpermitted hreconnect)
  | accept i hook result peer handshake ctl =>
    refine hon hok fun sock hsock hcall => ?_
    obtain ⟨⟨w, made⟩, haccept, rfl⟩ := Except.exists_of_map_eq_ok hcall
    have ht := transfers_acceptSocket h.managed hpermitted haccept
    cases made with
    | none => exact h.of_none ht
    | some made => exact h.add ht
  | close i hook ctl =>
    refine hon hok fun sock hsock hcall => ?_
    obtain ⟨⟨w, sock'⟩, hclose, rfl⟩ := Except.exists_of_map_eq_ok hcall
    have ht := transfers_closeSocket hclose
    rw [← sock_of_close hclose] at ht
    exact h.put hsock ht
  | destroy i hook ctl =>
    refine hon hok fun sock hsock hcall => ?_
    obtain ⟨⟨w, sock'⟩, hclose, rfl⟩ := Except.exists_of_map_eq_ok hcall
    exact h.destroy hsock (transfers_closeSocket hclose)

/-- In every run of calls on sockets each descriptor that is open was open before the first call or belongs to
exactly one socket, those that were open before still are, and once no socket exists no other descriptor is open. -/
theorem sockets_own (kernel : ℕ → Option KernelFile)
    (h : Runs.Reaches step Permitted (State.init (World.init kernel) : State S F C) s) :
    (∀ fd, (s.world.kernel fd).isSome = true → (kernel fd).isSome = true ∨ ∃! i, s.held i = some fd) ∧
      (∀ i fd, s.held i = some fd → (s.world.kernel fd).isSome = true ∧ (kernel fd).isSome = false) ∧
      (∀ fd, (kernel fd).isSome = true → (s.world.kernel fd).isSome = true) ∧
      ((∀ i, s.sockets i = none) → ∀ fd, (s.world.kernel fd).isSome = (kernel fd).isSome) := by
  have howned : s.Owned { fd | (kernel fd).isSome = true } := by
    refine h.invariant (Owned { fd | (kernel fd).isSome = true }) ?_ fun s call s' hs hpermitted hok => ?_
    · refine ⟨Owning.init _, fun fd ctx hget => ?_, fun _ _ => rfl⟩
      have hempty : (World.init kernel : World S F C).get fd = none := by
        unfold World.get World.init
        rw [List.getElem?_replicate]
        split <;> rfl
      cases hempty.symm.trans hget
    · exact hs.step hpermitted hok
  refine ⟨fun fd hopen => ?_, fun i fd hheld => ⟨?_, ?_⟩, fun fd hbefore => ?_, fun hnone fd => ?_⟩
  · rcases (howned.owning.covered fd).mp hopen with hbefore | ⟨i, hi⟩
    · exact Or.inl hbefore
    · exact Or.inr ⟨i, hi, fun j hj => howned.owning.single j i fd hj hi⟩
  · exact howned.owning.mem_taken hheld
  · exact Bool.eq_false_of_not_eq_true (howned.owning.apart i fd hheld)
  · exact (howned.owning.covered fd).mpr (Or.inl hbefore)
  · have htaken := howned.owning.taken_eq fun i => by rw [held, hnone i]; rfl
    exact Bool.eq_iff_iff.mpr (Set.ext_iff.mp htaken fd)

/-- A socket is bound to an address, accepts a connection and is destroyed: the accepted one keeps its own
descriptor, and that of the other is closed. -/
theorem sockets_own_accepted :
    ∃ s : State Unit Unit Unit, Runs.Reaches step Permitted (State.init (World.init fun _ => none)) s ∧
      s.held 1 = some 4 ∧ (∃! i, s.held i = some 4) ∧ (s.world.kernel 3).isSome = false := by
  have hunused : ∀ {w : World Unit Unit Unit} {fd : ℕ}, w.kernel fd = none → Unused w (some (fd, 2#32)) := by
    intro w fd hnone fd' flags heq
    cases heq
    exact hnone
  have hmade : Runs.Reaches step Permitted (State.init (World.init fun _ => none) : State Unit Unit Unit) _ :=
    .next .start (.createTCP 2) trivial rfl
  have hbound := hmade.next (.bind 0 true ⟨2, false⟩ (some (3, 2#32)) ⟨none, false, true⟩ true)
    ⟨hunused rfl, nofun, nofun⟩ rfl
  have haccepted := hbound.next (.accept 0 true (some (4, 2#32)) none true (some true)) (hunused rfl) rfl
  have hdestroyed := haccepted.next (.destroy 0 true (some true)) trivial rfl
  obtain ⟨hcovered, -⟩ := sockets_own (fun _ => none) hdestroyed
  refine ⟨_, hdestroyed, rfl, ?_, rfl⟩
  rcases hcovered 4 rfl with hbefore | howner
  · cases hbefore
  · exact howner

end State

end Bobliew.Sockets
