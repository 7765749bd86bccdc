import Mathlib

/-!
# Binding a server to its addresses

`TcpServer::bind` makes a socket for each address, binds it and listens on it, and keeps the sockets in
`m_socks`. When an address failed it clears `m_socks`: that drops the sockets of this call, and with them
those of earlier calls. The state before the call is therefore given back only if there were none, or if no
address fails.
-/

namespace Bobliew

/-- What a server asks of sockets. The kernel keeps its own state, so that a call may fail for what was done
before. -/
structure SocketOps (K Addr Sock : Type) where
  /-- `Socket::CreateTCP`, or `SSLSocket::CreateTCP` when the flag is set. -/
  createTCP : Bool → Addr → K → Sock × K
  /-- `Socket::bind`. -/
  bind : Sock → Addr → K → Bool × K
  /-- `Socket::listen`. -/
  listen : Sock → K → Bool × K

/-- The members of a `TcpServer` that binding reads and writes. -/
structure TcpServer (Sock : Type) where
  m_socks : List Sock
  m_ssl : Bool

/-- What a call of `TcpServer::bind` leaves: its result, the failing addresses, the server and the kernel. -/
structure Binding (K Addr Sock : Type) where
  ret : Bool
  fails : List Addr
  server : TcpServer Sock
  kernel : K

/-- One address of a call: the socket made for it, and whether it is bound and listening. -/
structure Attempt (Addr Sock : Type) where
  addr : Addr
  sock : Sock
  listening : Bool

variable {K Addr Sock : Type}

namespace TcpServer

/-- `TcpServer::TcpServer`. -/
def new : TcpServer Sock where
  m_socks := []
  m_ssl := false

/-- The loop of `TcpServer::bind` over the addresses. -/
def bindLoop (ops : SocketOps K Addr Sock) (ssl : Bool) :
    List Addr → List Addr → List Sock → K → List Addr × List Sock × K
  | [], fails, m_socks, kernel => (fails, m_socks, kernel)
  | addr :: addrs, fails, m_socks, kernel =>
    let created := ops.createTCP ssl addr kernel
    let bound := ops.bind created.1 addr created.2
    if bound.1 = false then bindLoop ops ssl addrs (fails ++ [addr]) m_socks bound.2
    else
      let listening := ops.listen created.1 bound.2
      if listening.1 = false then bindLoop ops ssl addrs (fails ++ [addr]) m_socks listening.2
      else bindLoop ops ssl addrs fails (m_socks ++ [created.1]) listening.2

/-- `TcpServer::bind`. -/
def bind (ops : SocketOps K Addr Sock) (server : TcpServer Sock) (addrs fails : List Addr) (ssl : Bool)
    (kernel : K) : Binding K Addr Sock :=
  let loop := bindLoop ops ssl addrs fails server.m_socks kernel
  if loop.1 ≠ [] then ⟨false, loop.1, { m_socks := [], m_ssl := ssl }, loop.2.2⟩
  else ⟨true, loop.1, { m_socks := loop.2.1, m_ssl := ssl }, loop.2.2⟩

/-- `TcpServer::bind` of one address. -/
def bindOne (ops : SocketOps K Addr Sock) (server : TcpServer Sock) (addr : Addr) (ssl : Bool) (kernel : K) :
    Binding K Addr Sock :=
  server.bind ops [addr] [] ssl kernel

/-- What becomes of the addresses of a call, each in the kernel that the earlier ones leave. -/
def attempts (ops : SocketOps K Addr Sock) (ssl : Bool) : List Addr → K → List (Attempt Addr Sock)
  | [], _ => []
  | addr :: addrs, kernel =>
    let created := ops.createTCP ssl addr kernel
    let bound := ops.bind created.1 addr created.2
    if bound.1 = false then ⟨addr, created.1, false⟩ :: attempts ops ssl addrs bound.2
    else
      let listening := ops.listen created.1 bound.2
      ⟨addr, created.1, listening.1⟩ :: attempts ops ssl addrs listening.2

/-- The addresses that are not bound or not listening. -/
def failing (tried : List (Attempt Addr Sock)) : List Addr :=
  (tried.filter fun a => !a.listening).map Attempt.addr

/-- The sockets that are bound and listening. -/
def succeeding (tried : List (Attempt Addr Sock)) : List Sock :=
  (tried.filter Attempt.listening).map Attempt.sock

/-- A call keeps the state when it fails and adds one socket for each address when it succeeds, and it says
which of both it did. -/
structure AllOrNothing (server : TcpServer Sock) (tried : List (Attempt Addr Sock))
    (binding : Binding K Addr Sock) : Prop where
  ret_iff : binding.ret = true ↔ ∀ a ∈ tried, a.listening = true
  of_true : binding.ret = true → binding.server.m_socks = server.m_socks ++ tried.map Attempt.sock
  of_false : binding.ret = false →
    binding.fails = (tried.filter fun a => !a.listening).map Attempt.addr ∧
      binding.server.m_socks = server.m_socks

variable {ops : SocketOps K Addr Sock} {ssl : Bool} {tried : List (Attempt Addr Sock)}

/-- Nothing fails exactly if every address is bound and listening. -/
theorem failing_eq_nil_iff : failing tried = [] ↔ ∀ a ∈ tried, a.listening = true := by
  simp [failing]

/-- When everything listens all the sockets succeed. -/
theorem succeeding_of_forall (h : ∀ a ∈ tried, a.listening = true) : succeeding tried = tried.map Attempt.sock := by
  rw [succeeding, List.filter_eq_self.mpr h]

/-- The loop appends the failing addresses and the sockets of the others. -/
theorem bindLoop_eq (ops : SocketOps K Addr Sock) (ssl : Bool) (addrs fails : List Addr)
    (m_socks : List Sock) (kernel : K) :
    (bindLoop ops ssl addrs fails m_socks kernel).1 = fails ++ failing (attempts ops ssl addrs kernel) ∧
      (bindLoop ops ssl addrs fails m_socks kernel).2.1 =
        m_socks ++ succeeding (attempts ops ssl addrs kernel) := by
  induction addrs generalizing fails m_socks kernel with
  | nil => simp [bindLoop, attempts, failing, succeeding]
  | cons addr addrs ih =>
    simp only [bindLoop, attempts]
    split
    · obtain ⟨hfails, hsocks⟩ := ih (fails ++ [addr]) m_socks (ops.bind _ addr _).2
      exact ⟨hfails.trans (by simp [failing]), hsocks.trans (by simp [succeeding])⟩
    · split
      · rename_i hlisten
        obtain ⟨hfails, hsocks⟩ := ih (fails ++ [addr]) m_socks (ops.listen _ _).2
        exact ⟨hfails.trans (by simp [failing, hlisten]), hsocks.trans (by simp [succeeding, hlisten])⟩
      · rename_i hlisten
        obtain ⟨hfails, hsocks⟩ := ih fails (m_socks ++ [_]) (ops.listen _ _).2
        exact ⟨hfails.trans (by simp [failing, hlisten]), hsocks.trans (by simp [succeeding, hlisten])⟩

/-- A call without failing addresses adds a socket for each address. -/
theorem bind_of_forall (server : TcpServer Sock) {addrs : List Addr} {kernel : K}
    (h : ∀ a ∈ attempts ops ssl addrs kernel, a.listening = true) :
    (server.bind ops addrs [] ssl kernel).ret = true ∧
      (server.bind ops addrs [] ssl kernel).server.m_socks =
        server.m_socks ++ (attempts ops ssl addrs kernel).map Attempt.sock := by
  obtain ⟨hfails, hsocks⟩ := bindLoop_eq ops ssl addrs [] server.m_socks kernel
  rw [failing_eq_nil_iff.mpr h] at hfails
  rw [succeeding_of_forall h] at hsocks
  have hnil : (bindLoop ops ssl addrs [] server.m_socks kernel).1 = [] := hfails
  simp only [bind, hnil, ne_eq, not_true, if_false]
  exact ⟨trivial, hsocks⟩

/-- A call with a failing address reports the failing addresses and leaves no socket. -/
theorem bind_of_not_forall (server : TcpServer Sock) {addrs : List Addr} {kernel : K}
    (h : ¬ ∀ a ∈ attempts ops ssl addrs kernel, a.listening = true) :
    (server.bind ops addrs [] ssl kernel).ret = false ∧
      (server.bind ops addrs [] ssl kernel).fails = failing (attempts ops ssl addrs kernel) ∧
      (server.bind ops addrs [] ssl kernel).server.m_socks = [] := by
  have hfails : (bindLoop ops ssl addrs [] server.m_socks kernel).1 = failing (attempts ops ssl addrs kernel) :=
    (bindLoop_eq ops ssl addrs [] server.m_socks kernel).1
  have hne : failing (attempts ops ssl addrs kernel) ≠ [] := fun hnil => h (failing_eq_nil_iff.mp hnil)
  simp [bind, hfails, hne]

/-- **When binding is all or nothing.** A call does all or nothing exactly if no address fails, or if no
socket was there before it. -/
theorem bind_allOrNothing_iff (ops : SocketOps K Addr Sock) (server : TcpServer Sock) (addrs : List Addr)
    (ssl : Bool) (kernel : K) :
    AllOrNothing server (attempts ops ssl addrs kernel) (server.bind ops addrs [] ssl kernel) ↔
      (∀ a ∈ attempts ops ssl addrs kernel, a.listening = true) ∨ server.m_socks = [] := by
  by_cases h : ∀ a ∈ attempts ops ssl addrs kernel, a.listening = true
  · obtain ⟨hret, hsocks⟩ := bind_of_forall server h
    refine iff_of_true ⟨⟨fun _ => h, fun _ => hret⟩, fun _ => hsocks, fun hfalse => ?_⟩ (.inl h)
    rw [hret] at hfalse
    cases hfalse
  · obtain ⟨hret, hfails, hsocks⟩ := bind_of_not_forall server h
    constructor
    · intro hall
      have hsame := (hall.of_false hret).2
      exact .inr (hsame.symm.trans hsocks)
    · rintro (hall | hnil)
      · exact absurd hall h
      · refine ⟨⟨fun htrue => ?_, fun hall => absurd hall h⟩, fun htrue => ?_, fun _ =>
          ⟨hfails, hsocks.trans hnil.symm⟩⟩
        · rw [hret] at htrue
          cases htrue
        · rw [hret] at htrue
          cases htrue

/-- Sockets that are the ports they are bound to, of a kernel that gives each port to one of them. -/
def portOps : SocketOps (List ℕ) ℕ ℕ where
  createTCP := fun _ addr inUse => (addr, inUse)
  bind := fun _ addr inUse => if addr ∈ inUse then (false, inUse) else (true, addr :: inUse)
  listen := fun _ inUse => (true, inUse)

/-- A second call whose address is in use drops the socket of the first one. -/
theorem bind_drops_earlier :
    ¬ ∀ (ops : SocketOps (List ℕ) ℕ ℕ) (server : TcpServer ℕ) (addrs : List ℕ) (ssl : Bool) (kernel : List ℕ),
      AllOrNothing server (attempts ops ssl addrs kernel) (server.bind ops addrs [] ssl kernel) := by
  intro h
  have hall := h portOps (new.bindOne portOps 80 false []).server [81, 80] false
    (new.bindOne portOps 80 false []).kernel
  have hsame := (hall.of_false (by decide)).2
  exact absurd hsame (by decide)

end TcpServer

end Bobliew
