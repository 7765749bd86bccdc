import Bobliew.ByteArray.Values

/-!
# Ports of socket addresses

The addresses of `IPV4Address` and `IPV6Address` with the functions that store and return a port. An
address is the memory of a `sockaddr_in` or `sockaddr_in6`, and two addresses are equal when their
memories are.

The byte order of an integer is changed by a template that goes by the size of its argument. The
constructors and `Create` pass the 16 bits of the port, and `getPort` the 16 bits that are stored.
`setPort` passes 32 bits, swaps all of them, and stores the lower half of the result, which has the
upper half of its argument.
-/

namespace Bobliew

open WireFormat

/-- `byteswapOnLittleEndian` for an integer type of `n` bytes. -/
def byteswapOnLittleEndian (n t : ℕ) : ℕ := ByteArray.byteswap n t

/-- `AF_INET`. -/
def afInet : UInt16 := 2

/-- `AF_INET6`. -/
def afInet6 : UInt16 := 10

/-- `sockaddr_in`. -/
structure SockaddrIn where
  family : UInt16
  port : UInt16
  addr : UInt32
  zero : UInt64
  deriving DecidableEq

/-- `sockaddr_in6`. -/
structure SockaddrIn6 where
  family : UInt16
  port : UInt16
  flowinfo : UInt32
  addr : Vector UInt8 16
  scopeId : UInt32
  deriving DecidableEq

/-- The port as the constructors and `Create` store it. -/
def storedPort (port : UInt16) : UInt16 := UInt16.ofNat (byteswapOnLittleEndian 2 port.toNat)

/-- `IPV4Address(uint32_t address, uint16_t port)`. -/
def SockaddrIn.new (address : UInt32) (port : UInt16) : SockaddrIn where
  family := afInet
  port := storedPort port
  addr := UInt32.ofNat (byteswapOnLittleEndian 4 address.toNat)
  zero := 0

/-- `IPV6Address(const uint8_t address[16], uint16_t port)`. -/
def SockaddrIn6.new (address : Vector UInt8 16) (port : UInt16) : SockaddrIn6 where
  family := afInet6
  port := storedPort port
  flowinfo := 0
  addr := address
  scopeId := 0

/-- An `IPAddress`: an `IPV4Address` or an `IPV6Address`. -/
inductive IPAddress where
  | ipv4 (addr : SockaddrIn)
  | ipv6 (addr : SockaddrIn6)
  deriving DecidableEq

/-- The bytes that name a host. -/
inductive HostBytes where
  | v4 (addr : UInt32)
  | v6 (addr : Vector UInt8 16)
  deriving DecidableEq

/-- `inet_pton`: what it writes for a text, if the text is an address. -/
structure InetPton where
  v4 : List UInt8 → Option UInt32
  v6 : List UInt8 → Option (Vector UInt8 16)

namespace IPAddress

/-- `IPV4Address::Create`. -/
def create4 (inetPton : InetPton) (address : List UInt8) (port : UInt16) : Option IPAddress :=
  (inetPton.v4 address).map fun host => .ipv4 { SockaddrIn.new 0 0 with port := storedPort port, addr := host }

/-- `IPV6Address::Create`. -/
def create6 (inetPton : InetPton) (address : List UInt8) (port : UInt16) : Option IPAddress :=
  (inetPton.v6 address).map fun host =>
    .ipv6 { SockaddrIn6.new (Vector.replicate 16 0) 0 with port := storedPort port, addr := host }

/-- `getAddr`: the memory of the address. -/
def getAddr : IPAddress → List UInt8
  | .ipv4 a => littleEndian 2 a.family.toNat ++ (littleEndian 2 a.port.toNat ++
      (littleEndian 4 a.addr.toNat ++ littleEndian 8 a.zero.toNat))
  | .ipv6 a => littleEndian 2 a.family.toNat ++ (littleEndian 2 a.port.toNat ++
      (littleEndian 4 a.flowinfo.toNat ++ (a.addr.toList ++ littleEndian 4 a.scopeId.toNat)))

/-- `getAddrLen`. -/
def getAddrLen : IPAddress → ℕ
  | .ipv4 _ => 16
  | .ipv6 _ => 28

/-- `operator==`. -/
def equal (a rhs : IPAddress) : Bool := a.getAddrLen == rhs.getAddrLen && a.getAddr == rhs.getAddr

/-- `getFamily`. -/
def getFamily : IPAddress → UInt16
  | .ipv4 a => a.family
  | .ipv6 a => a.family

/-- The host of an address. -/
def hostBytes : IPAddress → HostBytes
  | .ipv4 a => .v4 a.addr
  | .ipv6 a => .v6 a.addr

/-- The port as it is stored. -/
def port : IPAddress → UInt16
  | .ipv4 a => a.port
  | .ipv6 a => a.port

/-- `getPort`. -/
def getPort (a : IPAddress) : UInt32 := UInt32.ofNat (byteswapOnLittleEndian 2 a.port.toNat)

/-- `setPort`: four bytes are swapped, and two of them stored. -/
def setPort (a : IPAddress) (v : UInt32) : IPAddress :=
  let port := UInt16.ofNat (byteswapOnLittleEndian 4 v.toNat)
  match a with
  | .ipv4 a => .ipv4 { a with port := port }
  | .ipv6 a => .ipv6 { a with port := port }

/-- The addresses that the constructors and `Create` build with a port. -/
inductive Built (inetPton : InetPton) (port : UInt16) : IPAddress → Prop
  | new4 (address : UInt32) : Built inetPton port (.ipv4 (.new address port))
  | new6 (address : Vector UInt8 16) : Built inetPton port (.ipv6 (.new address port))
  | create4 (address : List UInt8) (a : IPAddress) : create4 inetPton address port = some a →
      Built inetPton port a
  | create6 (address : List UInt8) (a : IPAddress) : create6 inetPton address port = some a →
      Built inetPton port a

/-- Everything but the host and the port is as the constructors set it. -/
def Plain : IPAddress → Prop
  | .ipv4 a => a.family = afInet ∧ a.zero = 0
  | .ipv6 a => a.family = afInet6 ∧ a.flowinfo = 0 ∧ a.scopeId = 0

/-- `setPort(p)` is read back, makes the address equal to each address built from its host and the
port, and leaves host and family alone. -/
structure KeepsPort (inetPton : InetPton) (a : IPAddress) (p : UInt16) : Prop where
  port : (a.setPort p.toUInt32).getPort = p.toUInt32
  equal : ∀ b, Built inetPton p b → b.hostBytes = a.hostBytes → (a.setPort p.toUInt32).equal b = true
  hostBytes : (a.setPort p.toUInt32).hostBytes = a.hostBytes
  family : (a.setPort p.toUInt32).getFamily = a.getFamily

variable {inetPton : InetPton} {a b : IPAddress} {p : UInt16}

/-- Numbers with the same bytes are the same. -/
theorem littleEndian_inj {n v w : ℕ} (hv : v < 256 ^ n) (hw : w < 256 ^ n)
    (h : littleEndian n v = littleEndian n w) : v = w := by
  have hback := congrArg ofLittleEndian h
  rwa [ofLittleEndian_littleEndian, ofLittleEndian_littleEndian, Nat.mod_eq_of_lt hv,
    Nat.mod_eq_of_lt hw] at hback

/-- The memory of an address determines it. -/
theorem getAddr_inj (h : a.equal b = true) : a = b := by
  unfold equal at h
  obtain ⟨hlen, hmem⟩ := Bool.and_eq_true_iff.mp h
  have hlen' := eq_of_beq hlen
  have hmem' := eq_of_beq hmem
  cases a with
  | ipv4 a =>
    cases b with
    | ipv4 b =>
      obtain ⟨hfamily, hrest⟩ := List.append_inj hmem' (by simp)
      obtain ⟨hport, hrest⟩ := List.append_inj hrest (by simp)
      obtain ⟨haddr, hzero⟩ := List.append_inj hrest (by simp)
      have h₁ := UInt16.toNat_inj.mp (littleEndian_inj a.family.toNat_lt b.family.toNat_lt hfamily)
      have h₂ := UInt16.toNat_inj.mp (littleEndian_inj a.port.toNat_lt b.port.toNat_lt hport)
      have h₃ := UInt32.toNat_inj.mp (littleEndian_inj a.addr.toNat_lt b.addr.toNat_lt haddr)
      have h₄ := UInt64.toNat_inj.mp (littleEndian_inj a.zero.toNat_lt b.zero.toNat_lt hzero)
      cases a
      cases b
      simp_all
    | ipv6 b => simp [getAddrLen] at hlen'
  | ipv6 a =>
    cases b with
    | ipv4 b => simp [getAddrLen] at hlen'
    | ipv6 b =>
      obtain ⟨hfamily, hrest⟩ := List.append_inj hmem' (by simp)
      obtain ⟨hport, hrest⟩ := List.append_inj hrest (by simp)
      obtain ⟨hflow, hrest⟩ := List.append_inj hrest (by simp)
      obtain ⟨haddr, hscope⟩ := List.append_inj hrest (by simp)
      have h₁ := UInt16.toNat_inj.mp (littleEndian_inj a.family.toNat_lt b.family.toNat_lt hfamily)
      have h₂ := UInt16.toNat_inj.mp (littleEndian_inj a.port.toNat_lt b.port.toNat_lt hport)
      have h₃ := UInt32.toNat_inj.mp (littleEndian_inj a.flowinfo.toNat_lt b.flowinfo.toNat_lt hflow)
      have h₄ := Vector.toList_inj.mp haddr
      have h₅ := UInt32.toNat_inj.mp (littleEndian_inj a.scopeId.toNat_lt b.scopeId.toNat_lt hscope)
      cases a
      cases b
      simp_all

/-- Two addresses are equal exactly when they are the same. -/
theorem equal_iff : a.equal b = true ↔ a = b := by
  constructor
  · exact getAddr_inj
  · intro h
    subst h
    simp [equal]

/-- Swapping a port. -/
theorem byteswap_two {v : ℕ} (hv : v < 65536) : byteswapOnLittleEndian 2 v = v % 256 * 256 + v / 256 := by
  simp only [byteswapOnLittleEndian, ByteArray.byteswap, littleEndian, List.reverse_cons, List.reverse_nil,
    List.nil_append, List.cons_append, ofLittleEndian, UInt8.toNat_ofNat']
  omega

/-- Swapping a port twice. -/
theorem byteswap_two_swapped {v : ℕ} (hv : v < 65536) :
    byteswapOnLittleEndian 2 (v % 256 * 256 + v / 256) = v := by
  have hlow : (v % 256 * 256 + v / 256) % 256 = v / 256 := by omega
  have hhigh : (v % 256 * 256 + v / 256) / 256 = v % 256 := by omega
  rw [byteswap_two (by omega), hlow, hhigh]
  omega

/-- The lower half of four swapped bytes. -/
theorem byteswap_four_mod {v : ℕ} (hv : v < 4294967296) :
    byteswapOnLittleEndian 4 v % 65536 = v / 65536 % 256 * 256 + v / 65536 / 256 := by
  have hdiv : v / 256 / 256 = v / 65536 := Nat.div_div_eq_div_mul v 256 256
  have hhigh : v / 65536 < 65536 := by omega
  simp only [byteswapOnLittleEndian, ByteArray.byteswap, littleEndian, List.reverse_cons, List.reverse_nil,
    List.nil_append, List.cons_append, ofLittleEndian, UInt8.toNat_ofNat', hdiv]
  generalize v / 65536 = high at hhigh ⊢
  have hbyte : high / 256 % 2 ^ 8 = high / 256 := by omega
  rw [hbyte]
  omega

/-- What `setPort` stores. -/
theorem port_setPort (a : IPAddress) (v : UInt32) :
    (a.setPort v).port = UInt16.ofNat (byteswapOnLittleEndian 4 v.toNat) := by
  cases a <;> rfl

/-- `getPort` returns the upper half of what was given to `setPort`. -/
theorem getPort_setPort (a : IPAddress) (v : UInt32) : (a.setPort v).getPort = v >>> 16 := by
  have hv := v.toNat_lt
  have hhigh : v.toNat / 65536 < 65536 := by omega
  rw [getPort, port_setPort, UInt16.toNat_ofNat', byteswap_four_mod hv, byteswap_two_swapped hhigh]
  apply UInt32.toNat_inj.mp
  rw [UInt32.toNat_ofNat', UInt32.toNat_shiftRight]
  simp only [UInt32.reduceToNat, Nat.reduceMod, Nat.shiftRight_eq_div_pow, Nat.reducePow]
  omega

/-- A port is lost. -/
theorem getPort_setPort_toUInt32 (a : IPAddress) (p : UInt16) : (a.setPort p.toUInt32).getPort = 0 := by
  have hp := p.toNat_lt
  rw [getPort_setPort]
  apply UInt32.toNat_inj.mp
  rw [UInt32.toNat_shiftRight, UInt16.toNat_toUInt32]
  simp only [UInt32.reduceToNat, Nat.reduceMod, Nat.shiftRight_eq_div_pow, Nat.reducePow]
  omega

/-- An address that was built is plain and has the port as it is stored. -/
theorem Built.spec (h : Built inetPton p b) : b.Plain ∧ b.port = storedPort p := by
  cases h with
  | new4 address => exact ⟨⟨rfl, rfl⟩, rfl⟩
  | new6 address => exact ⟨⟨rfl, rfl, rfl⟩, rfl⟩
  | create4 address _ hcreate =>
    obtain ⟨host, _, rfl⟩ := Option.map_eq_some_iff.mp hcreate
    exact ⟨⟨rfl, rfl⟩, rfl⟩
  | create6 address _ hcreate =>
    obtain ⟨host, _, rfl⟩ := Option.map_eq_some_iff.mp hcreate
    exact ⟨⟨rfl, rfl, rfl⟩, rfl⟩

/-- Swapping the bytes of a 32-bit number twice. -/
theorem ofNat_byteswap_four (v : UInt32) :
    UInt32.ofNat (byteswapOnLittleEndian 4 (UInt32.ofNat (byteswapOnLittleEndian 4 v.toNat)).toNat) = v := by
  have hswap : byteswapOnLittleEndian 4 v.toNat < 2 ^ 32 := by
    have h := ofLittleEndian_lt (littleEndian 4 v.toNat).reverse
    rwa [List.length_reverse, length_littleEndian] at h
  rw [UInt32.toNat_ofNat_of_lt' hswap]
  apply UInt32.toNat_inj.mp
  have hback : byteswapOnLittleEndian 4 (byteswapOnLittleEndian 4 v.toNat) = v.toNat :=
    ByteArray.byteswap_ofLittleEndian_reverse v.toNat_lt
  rw [hback, UInt32.toNat_ofNat_of_lt' v.toNat_lt]

/-- Each host has an address built by a constructor. -/
theorem exists_built (inetPton : InetPton) (p : UInt16) (a : IPAddress) :
    ∃ b, Built inetPton p b ∧ b.hostBytes = a.hostBytes := by
  cases a with
  | ipv4 a =>
    refine ⟨_, .new4 (UInt32.ofNat (byteswapOnLittleEndian 4 a.addr.toNat)), ?_⟩
    exact congrArg HostBytes.v4 (ofNat_byteswap_four a.addr)
  | ipv6 a => exact ⟨_, .new6 a.addr, rfl⟩

/-- `setPort` changes nothing but the port. -/
theorem setPort_frame (a : IPAddress) (v : UInt32) :
    (a.setPort v).hostBytes = a.hostBytes ∧ (a.setPort v).getFamily = a.getFamily ∧
      ((a.setPort v).Plain ↔ a.Plain) := by
  cases a <;> exact ⟨rfl, rfl, Iff.rfl⟩

/-- Plain addresses are determined by host and port. -/
theorem Plain.ext (ha : a.Plain) (hb : b.Plain) (hhost : a.hostBytes = b.hostBytes)
    (hport : a.port = b.port) : a = b := by
  cases a with
  | ipv4 a =>
    cases b with
    | ipv4 b =>
      cases a
      cases b
      simp_all [Plain, IPAddress.hostBytes, IPAddress.port]
    | ipv6 b => cases hhost
  | ipv6 a =>
    cases b with
    | ipv4 b => cases hhost
    | ipv6 b =>
      cases a
      cases b
      simp_all [Plain, IPAddress.hostBytes, IPAddress.port]

/-- `setPort` does what is expected of it exactly for the port zero, and then makes the address equal to
the ones built from its host exactly when the rest of it is as the constructors set it. -/
theorem keepsPort_iff (inetPton : InetPton) (a : IPAddress) (p : UInt16) :
    KeepsPort inetPton a p ↔ p = 0 ∧ a.Plain := by
  obtain ⟨hhost, hfamily, hplain⟩ := setPort_frame a p.toUInt32
  constructor
  · intro h
    have hzero : p = 0 := by
      have hport := h.port
      rw [getPort_setPort_toUInt32] at hport
      apply UInt16.toNat_inj.mp
      rw [← UInt16.toNat_toUInt32, ← hport]
      rfl
    obtain ⟨b, hb, hsame⟩ := exists_built inetPton p a
    have heq := equal_iff.mp (h.equal b hb hsame)
    refine ⟨hzero, hplain.mp ?_⟩
    rw [heq]
    exact hb.spec.1
  · rintro ⟨rfl, ha⟩
    refine ⟨getPort_setPort_toUInt32 a 0, fun b hb hsame => equal_iff.mpr ?_, hhost, hfamily⟩
    refine (hplain.mpr ha).ext hb.spec.1 (hhost.trans hsame.symm) ?_
    rw [hb.spec.2, port_setPort]
    rfl

/-- The address 127.0.0.1 does not keep the port 80. -/
theorem not_keepsPort_loopback :
    ¬ KeepsPort ⟨fun _ => none, fun _ => none⟩ (.ipv4 (.new 0x7f000001 0)) 80 := by
  intro h
  have hport := h.port
  rw [getPort_setPort_toUInt32] at hport
  exact absurd hport (by decide)

end IPAddress

end Bobliew
