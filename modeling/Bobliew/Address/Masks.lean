import Bobliew.Address.Port
import Bobliew.Lib.ByteBits

/-!
# Network masks of addresses

`broadcastAddress`, `networkAddress` and `subnetMask` of `IPV4Address` and `IPV6Address`. All of them take a
mask of trailing ones from the template `CreateMask`, which shifts an `int` and cuts the result to its
type. `IPV4Address` takes one mask for the whole address, `IPV6Address` one for the byte with the end of the
prefix, and sets the bytes on one side of it.

A shift that the language does not define, and an index behind the sixteen bytes, are faults.
-/

namespace Bobliew

open WireFormat

/-- What a function of a prefix can run into. -/
inductive MaskFault where
  | shift
  | overflow
  | outOfRange
  deriving DecidableEq

/-- `CreateMask` for an unsigned type of `n` bytes: the `int` 1 is shifted by a `size_t`. -/
def createMask (n bits : ℕ) : Except MaskFault ℕ :=
  let shift := (8 * n + (2 ^ 64 - bits)) % 2 ^ 64
  if 32 ≤ shift then .error .shift
  else if shift = 31 then .error .overflow
  else .ok ((2 ^ shift - 1) % 256 ^ n)

namespace SockaddrIn

/-- The address as a number. -/
def number (a : SockaddrIn) : ℕ := byteswapOnLittleEndian 4 a.addr.toNat

/-- Another number with the same family and port. -/
def withNumber (a : SockaddrIn) (n : ℕ) : SockaddrIn :=
  { a with addr := UInt32.ofNat (byteswapOnLittleEndian 4 n) }

/-- The body of `broadcastAddress` and of `networkAddress`. -/
def orMask (a : SockaddrIn) (prefixLen : ℕ) : Except MaskFault (Option SockaddrIn) :=
  if prefixLen > 32 then .ok none
  else (createMask 4 prefixLen).map fun mask =>
    some { a with addr := a.addr ||| UInt32.ofNat (byteswapOnLittleEndian 4 mask) }

/-- `IPV4Address::broadcastAddress`. -/
def broadcastAddress (a : SockaddrIn) (prefixLen : ℕ) : Except MaskFault (Option SockaddrIn) := a.orMask prefixLen

/-- `IPV4Address::networkAddress`. -/
def networkAddress (a : SockaddrIn) (prefixLen : ℕ) : Except MaskFault (Option SockaddrIn) := a.orMask prefixLen

/-- `IPV4Address::subnetMask`. -/
def subnetMask (prefixLen : ℕ) : Except MaskFault SockaddrIn :=
  (createMask 4 prefixLen).map fun mask =>
    { family := afInet
      port := 0
      addr := ~~~ UInt32.ofNat (byteswapOnLittleEndian 4 mask)
      zero := 0 }

/-- What is expected of the three functions for an address and a prefix. -/
structure Masked (a : SockaddrIn) (p : ℕ) : Prop where
  shift : ∃ mask, createMask 4 p = .ok mask
  subnet : ∃ subnet, subnetMask p = .ok subnet ∧ subnet.number = leadingOnes 32 p
  network : a.networkAddress p = .ok (some (a.withNumber (a.number &&& leadingOnes 32 p)))
  broadcast : a.broadcastAddress p = .ok (some (a.withNumber (a.number ||| (2 ^ 32 - 1 - leadingOnes 32 p))))
  ordered : ∀ n b, a.networkAddress p = .ok (some n) → a.broadcastAddress p = .ok (some b) →
    n.number ≤ a.number ∧ a.number ≤ b.number
  idempotent : (∀ n, a.networkAddress p = .ok (some n) → n.networkAddress p = .ok (some n)) ∧
    ∀ b, a.broadcastAddress p = .ok (some b) → b.broadcastAddress p = .ok (some b)
  agree : ∀ a' n n' : SockaddrIn, a.networkAddress p = .ok (some n) → a'.networkAddress p = .ok (some n') →
    (n.number = n'.number ↔ a.number / 2 ^ (32 - p) = a'.number / 2 ^ (32 - p))

variable {a b : SockaddrIn} {p : ℕ}

/-- The shift of `CreateMask` for a type and a number of bits that fits it. -/
theorem createMask_eq {n bits : ℕ} (hbits : bits ≤ 8 * n) (hn : n ≤ 4) : createMask n bits =
    if 8 * n - bits = 32 then .error .shift else if 8 * n - bits = 31 then .error .overflow
    else .ok (2 ^ (8 * n - bits) - 1) := by
  have hshift : (8 * n + (2 ^ 64 - bits)) % 2 ^ 64 = 8 * n - bits := by omega
  have hmask : 2 ^ (8 * n - bits) - 1 < 256 ^ n := by
    have hle := Nat.pow_le_pow_right (by decide : 0 < 2) (Nat.sub_le (8 * n) bits)
    rw [show 256 ^ n = 2 ^ (8 * n) by rw [pow_mul]; rfl]
    have hpos := Nat.two_pow_pos (8 * n - bits)
    omega
  unfold createMask
  dsimp only
  rw [hshift, Nat.mod_eq_of_lt hmask]
  by_cases hfull : 8 * n - bits = 32
  · rw [if_pos hfull.ge, if_pos hfull]
  · have hsmall : ¬ 32 ≤ 8 * n - bits := by omega
    rw [if_neg hsmall, if_neg hfull]

/-- A mask for a prefix of an address. -/
theorem createMask_four (htwo : 2 ≤ p) (hp : p ≤ 32) :
    createMask 4 p = .ok (2 ^ 32 - 1 - leadingOnes 32 p) := by
  rw [createMask_eq (by omega) le_rfl, if_neg (by omega), if_neg (by omega), not_leadingOnes]

/-- The two shortest prefixes have none. -/
theorem createMask_four_ne (hp : p < 2) (mask : ℕ) : createMask 4 p ≠ .ok mask := by
  obtain rfl | rfl : p = 0 ∨ p = 1 := by omega
  · exact fun h => by cases h
  · exact fun h => by cases h

/-- Swapped bytes give a number of 32 bits. -/
theorem byteswap_four_lt (v : ℕ) : byteswapOnLittleEndian 4 v < 2 ^ 32 := by
  have h := ofLittleEndian_lt (littleEndian 4 v).reverse
  rwa [List.length_reverse, length_littleEndian] at h

/-- Swapping the bytes of a number again. -/
theorem byteswap_four_byteswap_four {v : ℕ} (hv : v < 2 ^ 32) :
    byteswapOnLittleEndian 4 (byteswapOnLittleEndian 4 v) = v :=
  ByteArray.byteswap_ofLittleEndian_reverse hv

/-- The number of an address that was given one. -/
theorem number_withNumber {n : ℕ} (hn : n < 2 ^ 32) : (a.withNumber n).number = n := by
  rw [number, withNumber, UInt32.toNat_ofNat_of_lt' (byteswap_four_lt n), byteswap_four_byteswap_four hn]

/-- An address is given by its number. -/
theorem withNumber_number (a : SockaddrIn) : a.withNumber a.number = a := by
  have haddr : UInt32.ofNat (byteswapOnLittleEndian 4 a.number) = a.addr := by
    rw [number, byteswap_four_byteswap_four a.addr.toNat_lt]
    exact UInt32.ofNat_toNat
  rw [withNumber, haddr]

/-- The number of an address fits into 32 bits. -/
theorem number_lt (a : SockaddrIn) : a.number < 2 ^ 32 := byteswap_four_lt a.addr.toNat

/-- Swapping the bytes commutes with the disjunction. -/
theorem byteswap_four_or (v w : ℕ) :
    byteswapOnLittleEndian 4 (v ||| w) = byteswapOnLittleEndian 4 v ||| byteswapOnLittleEndian 4 w := by
  refine Nat.eq_of_testBit_eq fun i => ?_
  simp only [byteswapOnLittleEndian, ByteArray.byteswap, testBit_swapped, Nat.testBit_or, Bool.and_or_distrib_left]

/-- Swapping the bytes commutes with the complement. -/
theorem byteswap_four_not {v : ℕ} (hv : v < 2 ^ 32) :
    byteswapOnLittleEndian 4 (2 ^ 32 - 1 - v) = 2 ^ 32 - 1 - byteswapOnLittleEndian 4 v := by
  have hswap := byteswap_four_lt v
  have hcomplement : ∀ n, 2 ^ 32 - 1 - n = 2 ^ 32 - (n + 1) := by
    intro n
    omega
  refine Nat.eq_of_testBit_eq fun i => ?_
  rw [hcomplement, hcomplement, Nat.testBit_two_pow_sub_succ hswap]
  simp only [byteswapOnLittleEndian, ByteArray.byteswap, testBit_swapped, Nat.testBit_two_pow_sub_succ hv]
  by_cases hi : i < 32
  · have hindex : 8 * (4 - 1 - i / 8) + i % 8 < 32 := by omega
    simp [hi, hindex]
  · simp [hi]

/-- What both functions compute. -/
theorem orMask_eq (htwo : 2 ≤ p) (hp : p ≤ 32) :
    a.orMask p = .ok (some (a.withNumber (a.number ||| (2 ^ 32 - 1 - leadingOnes 32 p)))) := by
  have haddr : a.addr ||| UInt32.ofNat (byteswapOnLittleEndian 4 (2 ^ 32 - 1 - leadingOnes 32 p)) =
      UInt32.ofNat (byteswapOnLittleEndian 4 (a.number ||| (2 ^ 32 - 1 - leadingOnes 32 p))) := by
    apply UInt32.toNat_inj.mp
    rw [UInt32.toNat_or, UInt32.toNat_ofNat_of_lt' (byteswap_four_lt _),
      UInt32.toNat_ofNat_of_lt' (byteswap_four_lt _), byteswap_four_or, number,
      byteswap_four_byteswap_four a.addr.toNat_lt]
  rw [orMask, if_neg (not_lt.mpr hp), createMask_four htwo hp, Except.map, haddr]
  rfl

/-- `broadcastAddress` is right for prefixes with a mask. -/
theorem broadcastAddress_eq (htwo : 2 ≤ p) (hp : p ≤ 32) : a.broadcastAddress p =
    .ok (some (a.withNumber (a.number ||| (2 ^ 32 - 1 - leadingOnes 32 p)))) :=
  orMask_eq htwo hp

/-- `subnetMask` is right for prefixes with a mask. -/
theorem subnetMask_eq (htwo : 2 ≤ p) (hp : p ≤ 32) :
    ∃ subnet, subnetMask p = .ok subnet ∧ subnet.number = leadingOnes 32 p := by
  have hle : leadingOnes 32 p ≤ 2 ^ 32 - 1 := by
    have hpos := Nat.two_pow_pos (32 - p)
    unfold leadingOnes
    omega
  have hlt : 2 ^ 32 - 1 - leadingOnes 32 p < 2 ^ 32 := by omega
  refine ⟨_, by rw [subnetMask, createMask_four htwo hp]; rfl, ?_⟩
  have hnot : (~~~ UInt32.ofNat (byteswapOnLittleEndian 4 (2 ^ 32 - 1 - leadingOnes 32 p))).toNat =
      2 ^ 32 - 1 - byteswapOnLittleEndian 4 (2 ^ 32 - 1 - leadingOnes 32 p) := by
    rw [UInt32.toNat_not, UInt32.toNat_ofNat_of_lt' (byteswap_four_lt _)]
    rfl
  change byteswapOnLittleEndian 4 (~~~ UInt32.ofNat _).toNat = _
  rw [hnot, byteswap_four_not (byteswap_four_lt _), byteswap_four_byteswap_four hlt]
  omega

/-- The whole address as a prefix. -/
theorem orMask_full (a : SockaddrIn) : a.orMask 32 = .ok (some a) := by
  rw [orMask_eq (by decide) le_rfl, not_leadingOnes, Nat.sub_self, pow_zero, Nat.sub_self, Nat.or_zero,
    withNumber_number]

/-- The network address of a shorter prefix is not right: it ends with ones. -/
theorem networkAddress_ne (htwo : 2 ≤ p) (hp : p < 32) :
    a.networkAddress p ≠ .ok (some (a.withNumber (a.number &&& leadingOnes 32 p))) := by
  intro h
  have hlt := a.number_lt
  have hmask : 2 ^ 32 - 1 - leadingOnes 32 p < 2 ^ 32 := by omega
  rw [networkAddress, orMask_eq htwo hp.le] at h
  have hnumber := congrArg number (Option.some.inj (Except.ok.inj h))
  rw [number_withNumber (Nat.or_lt_two_pow hlt hmask),
    number_withNumber (lt_of_le_of_lt Nat.and_le_left hlt)] at hnumber
  have hbit := congrArg (Nat.testBit · 0) hnumber
  simp only [Nat.testBit_or, Nat.testBit_and, not_leadingOnes, Nat.testBit_two_pow_sub_one,
    testBit_leadingOnes] at hbit
  have hones : 0 < 32 - p := by omega
  have hend : ¬ 32 - p ≤ 0 := by omega
  rw [decide_eq_true hones, decide_eq_false hend] at hbit
  simp at hbit

/-- The whole address as a prefix is what the functions are right for. -/
theorem Masked.full (a : SockaddrIn) : a.Masked 32 where
  shift := ⟨_, createMask_four (by decide) le_rfl⟩
  subnet := subnetMask_eq (by decide) le_rfl
  network := by
    have hand : a.number &&& leadingOnes 32 32 = a.number := Nat.and_two_pow_sub_one_of_lt_two_pow a.number_lt
    rw [networkAddress, orMask_full, hand, withNumber_number]
  broadcast := broadcastAddress_eq (by decide) le_rfl
  ordered n b hn hb := by
    rw [networkAddress, orMask_full] at hn
    rw [broadcastAddress, orMask_full] at hb
    cases hn
    cases hb
    exact ⟨le_rfl, le_rfl⟩
  idempotent := ⟨fun n _ => n.orMask_full, fun b _ => b.orMask_full⟩
  agree a' n n' hn hn' := by
    rw [networkAddress, orMask_full] at hn hn'
    cases hn
    cases hn'
    rw [Nat.sub_self, pow_zero, Nat.div_one, Nat.div_one]

/-- For an address and a prefix of at most 32 bits, the three functions do what is expected of them exactly
when the prefix is the whole address. -/
theorem masked_iff (a : SockaddrIn) (hp : p ≤ 32) : a.Masked p ↔ p = 32 := by
  constructor
  · intro h
    by_contra hne
    by_cases htwo : 2 ≤ p
    · exact networkAddress_ne htwo (by omega) h.network
    · obtain ⟨mask, hmask⟩ := h.shift
      exact createMask_four_ne (not_le.mp htwo) mask hmask
  · rintro rfl
    exact Masked.full a

/-- The prefix of a single host. -/
theorem masked_iff_host : 32 ≤ 32 ∧ ((SockaddrIn.new 0xc0a8010a 80).Masked 32 ↔ 32 = 32) :=
  ⟨le_rfl, masked_iff (SockaddrIn.new 0xc0a8010a 80) le_rfl⟩

/-- The network address of 192.168.1.10/24 is 192.168.1.255. -/
theorem not_masked_private : ¬ (SockaddrIn.new 0xc0a8010a 0).Masked 24 := by
  intro h
  have hnetwork := h.network
  exact absurd hnetwork (by decide +kernel)

end SockaddrIn

namespace SockaddrIn6

/-- The memory `s6_addr`. -/
abbrev AddrBytes := Vector UInt8 16

/-- `s6_addr[i] = f(s6_addr[i])`. -/
def modifyByte (addr : AddrBytes) (i : ℕ) (f : UInt8 → UInt8) : Except MaskFault AddrBytes :=
  if h : i < 16 then .ok (addr.set i (f addr[i])) else .error .outOfRange

/-- `for(int i = from; i < 16; ++i) s6_addr[i] = v`. -/
def fillFrom (addr : AddrBytes) (i : ℕ) (v : UInt8) : AddrBytes :=
  if h : i < 16 then fillFrom (addr.set i v) (i + 1) v else addr
termination_by 16 - i

/-- `for(uint32_t i = 0; i < n; ++i) s6_addr[i] = v`. -/
def fillBelow (addr : AddrBytes) (v : UInt8) : ℕ → Except MaskFault AddrBytes
  | 0 => .ok addr
  | n + 1 => (fillBelow addr v n).bind fun addr => modifyByte addr n fun _ => v

/-- `IPV6Address::broadcastAddress`. -/
def broadcastAddress (a : SockaddrIn6) (prefixLen : ℕ) : Except MaskFault SockaddrIn6 := do
  let mask ← createMask 1 (prefixLen % 8)
  let addr ← modifyByte a.addr (prefixLen / 8) fun byte => byte ||| UInt8.ofNat mask
  return { a with addr := fillFrom addr (prefixLen / 8 + 1) 0xff }

/-- `IPV6Address::networkAddress`. -/
def networkAddress (a : SockaddrIn6) (prefixLen : ℕ) : Except MaskFault SockaddrIn6 := do
  let mask ← createMask 1 (prefixLen % 8)
  let addr ← modifyByte a.addr (prefixLen / 8) fun byte => byte &&& UInt8.ofNat mask
  return { a with addr := fillFrom addr (prefixLen / 8 + 1) 0 }

/-- `IPV6Address::subnetMask`. -/
def subnetMask (prefixLen : ℕ) : Except MaskFault SockaddrIn6 := do
  let mask ← createMask 1 (prefixLen % 8)
  let addr ← modifyByte (Vector.replicate 16 0) (prefixLen / 8) fun _ => -UInt8.ofNat mask
  return {
    family := afInet6
    port := 0
    flowinfo := 0
    addr := ← fillBelow addr 0xff (prefixLen / 8)
    scopeId := 0 }

/-- The mask of `p` leading ones as bytes. -/
def maskBytes (p : ℕ) : AddrBytes :=
  Vector.ofFn fun j : Fin 16 => UInt8.ofNat (leadingOnes 128 p / 256 ^ (15 - j.val))

/-- What is expected of the three functions for an address and a prefix. -/
structure Masked (a : SockaddrIn6) (p : ℕ) : Prop where
  subnet : ∃ subnet, subnetMask p = .ok subnet ∧ subnet.addr = maskBytes p
  network : a.networkAddress p = .ok { a with addr := Vector.zipWith (· &&& ·) a.addr (maskBytes p) }
  broadcast : a.broadcastAddress p = .ok { a with addr := Vector.zipWith (· ||| ~~~ ·) a.addr (maskBytes p) }
  bytewise : ∃ network subnet, a.networkAddress p = .ok network ∧ subnetMask p = .ok subnet ∧
    network.addr = Vector.zipWith (· &&& ·) a.addr subnet.addr

variable {a : SockaddrIn6} {p : ℕ}

/-- A bit of a byte of the mask. -/
theorem testBit_maskBytes (hp : p ≤ 128) {j i : ℕ} (hj : j < 16) (hi : i < 8) :
    (maskBytes p)[j].toNat.testBit i = decide (8 * j + 8 ≤ p + i) := by
  have hshift : leadingOnes 128 p / 256 ^ (15 - j) = leadingOnes 128 p >>> (8 * (15 - j)) := by
    rw [Nat.shiftRight_eq_div_pow, pow_mul]
    rfl
  rw [maskBytes, Vector.getElem_ofFn, UInt8.toNat_ofNat', hshift, Nat.testBit_mod_two_pow,
    Nat.testBit_shiftRight, testBit_leadingOnes, decide_eq_true hi, Bool.true_and]
  have hlt : 8 * (15 - j) + i < 128 := by omega
  rw [decide_eq_true hlt, Bool.true_and]
  exact decide_eq_decide.mpr (by omega)

/-- The mask of the byte with the end of the prefix. -/
theorem createMask_one (p : ℕ) : createMask 1 (p % 8) = .ok (2 ^ (8 - p % 8) - 1) := by
  have hmod := Nat.mod_lt p (by decide : 0 < 8)
  rw [SockaddrIn.createMask_eq (by omega) (by decide), if_neg (by omega), if_neg (by omega)]

/-- Its bits. -/
theorem testBit_createMask (p i : ℕ) :
    (UInt8.ofNat (2 ^ (8 - p % 8) - 1)).toNat.testBit i = decide (i < 8 - p % 8) := by
  have hlt : 2 ^ (8 - p % 8) - 1 < 2 ^ 8 := by
    have hle := Nat.pow_le_pow_right (by decide : 0 < 2) (Nat.sub_le 8 (p % 8))
    have hpos := Nat.two_pow_pos (8 - p % 8)
    omega
  rw [UInt8.toNat_ofNat_of_lt' hlt, Nat.testBit_two_pow_sub_one]

/-- Filling the end of the bytes. -/
theorem getElem_fillFrom (addr : AddrBytes) (i : ℕ) (v : UInt8) {j : ℕ} (hj : j < 16) :
    (fillFrom addr i v)[j] = if i ≤ j then v else addr[j] := by
  fun_induction fillFrom addr i v with
  | case1 addr i hi ih =>
    rw [ih]
    by_cases hij : i = j
    · subst hij
      rw [if_neg (by omega), if_pos le_rfl, Vector.getElem_set_self]
    · rw [Vector.getElem_set_ne _ _ hij]
      by_cases hle : i ≤ j
      · rw [if_pos (by omega), if_pos hle]
      · rw [if_neg (by omega), if_neg hle]
  | case2 addr i hi => rw [if_neg (by omega)]

/-- Filling the beginning of the bytes. -/
theorem fillBelow_eq (addr : AddrBytes) (v : UInt8) {n : ℕ} (hn : n ≤ 16) :
    ∃ filled, fillBelow addr v n = .ok filled ∧
      ∀ j (hj : j < 16), filled[j] = if j < n then v else addr[j] := by
  induction n with
  | zero => exact ⟨addr, rfl, fun j hj => rfl⟩
  | succ n ih =>
    obtain ⟨filled, hfilled, hget⟩ := ih (Nat.le_of_succ_le hn)
    have hlt : n < 16 := hn
    refine ⟨filled.set n v, ?_, fun j hj => ?_⟩
    · rw [fillBelow, hfilled, Except.bind, modifyByte, dif_pos hlt]
    · by_cases hjn : n = j
      · subst hjn
        rw [Vector.getElem_set_self, if_pos (Nat.lt_succ_self n)]
      · rw [Vector.getElem_set_ne _ _ hjn, hget j hj]
        by_cases hlt : j < n
        · rw [if_pos hlt, if_pos (by omega)]
        · rw [if_neg hlt, if_neg (by omega)]

/-- What all three functions do with the byte with the end of the prefix. -/
theorem modifyByte_eq (addr : AddrBytes) (f : UInt8 → UInt8) (hp : p < 128) :
    ∃ h : p / 8 < 16, modifyByte addr (p / 8) f = .ok (addr.set (p / 8) (f addr[p / 8])) := by
  have h : p / 8 < 16 := by omega
  exact ⟨h, by rw [modifyByte, dif_pos h]⟩

/-- The whole address as a prefix has its end behind the sixteen bytes. -/
theorem modifyByte_full (addr : AddrBytes) (f : UInt8 → UInt8) :
    modifyByte addr (128 / 8) f = .error .outOfRange := rfl

/-- A byte of the mask before the one with the end of the prefix. -/
theorem maskBytes_before (hp : p ≤ 128) {j : ℕ} (hj : j < 16) (hlt : j < p / 8) : (maskBytes p)[j] = 255 := by
  refine eq_of_testBit_byte fun i hi => ?_
  have hones : (255 : UInt8).toNat.testBit i = decide (i < 8) := Nat.testBit_two_pow_sub_one 8 i
  rw [testBit_maskBytes hp hj hi, hones]
  exact decide_eq_decide.mpr (by omega)

/-- A byte of the mask behind it. -/
theorem maskBytes_behind (hp : p ≤ 128) {j : ℕ} (hj : j < 16) (hlt : p / 8 < j) : (maskBytes p)[j] = 0 := by
  refine eq_of_testBit_byte fun i hi => ?_
  have hzeros : (0 : UInt8).toNat.testBit i = false := Nat.zero_testBit i
  rw [testBit_maskBytes hp hj hi, hzeros]
  exact decide_eq_false (by omega)

/-- The byte with the end of the prefix: the trailing ones are what the mask lacks. -/
theorem not_maskBytes (hp : p < 128) (h : p / 8 < 16) :
    ~~~ (maskBytes p)[p / 8] = UInt8.ofNat (2 ^ (8 - p % 8) - 1) := by
  refine eq_of_testBit_byte fun i hi => ?_
  rw [testBit_not_byte _ hi, testBit_maskBytes hp.le h hi, testBit_createMask, ← decide_not]
  exact decide_eq_decide.mpr (by omega)

/-- `broadcastAddress` is right for prefixes that are shorter than the address. -/
theorem broadcastAddress_eq (a : SockaddrIn6) (hp : p < 128) :
    a.broadcastAddress p = .ok { a with addr := Vector.zipWith (· ||| ~~~ ·) a.addr (maskBytes p) } := by
  obtain ⟨h, hmodify⟩ := modifyByte_eq a.addr (fun byte => byte ||| UInt8.ofNat (2 ^ (8 - p % 8) - 1)) hp
  have haddr : fillFrom (a.addr.set (p / 8) (a.addr[p / 8] ||| UInt8.ofNat (2 ^ (8 - p % 8) - 1)))
      (p / 8 + 1) 0xff = Vector.zipWith (· ||| ~~~ ·) a.addr (maskBytes p) := by
    refine Vector.ext fun j hj => ?_
    rw [getElem_fillFrom _ _ _ hj, Vector.getElem_zipWith]
    rcases Nat.lt_trichotomy j (p / 8) with hlt | heq | hgt
    · rw [if_neg (by omega), Vector.getElem_set_ne _ _ hlt.ne', maskBytes_before hp.le hj hlt]
      exact (UInt8.or_zero).symm
    · subst heq
      rw [if_neg (by omega), Vector.getElem_set_self, not_maskBytes hp hj]
    · rw [if_pos (by omega), maskBytes_behind hp.le hj hgt]
      exact (UInt8.or_neg_one).symm
  rw [broadcastAddress, createMask_one, ← haddr]
  change (modifyByte _ _ _).bind _ = _
  rw [hmodify]
  rfl

/-- What `networkAddress` computes: the byte with the end of the prefix keeps the bits behind it. -/
theorem networkAddress_eq (a : SockaddrIn6) (hp : p < 128) (h : p / 8 < 16) : a.networkAddress p =
    .ok { a with
      addr := fillFrom (a.addr.set (p / 8) (a.addr[p / 8] &&& ~~~ (maskBytes p)[p / 8])) (p / 8 + 1) 0 } := by
  obtain ⟨_, hmodify⟩ := modifyByte_eq a.addr (fun byte => byte &&& UInt8.ofNat (2 ^ (8 - p % 8) - 1)) hp
  rw [networkAddress, createMask_one, not_maskBytes hp h]
  change (modifyByte _ _ _).bind _ = _
  rw [hmodify]
  rfl

/-- `networkAddress` is right for a prefix that ends in a byte that is zero. -/
theorem networkAddress_iff (a : SockaddrIn6) (hp : p < 128) (h : p / 8 < 16) :
    a.networkAddress p = .ok { a with addr := Vector.zipWith (· &&& ·) a.addr (maskBytes p) } ↔
      a.addr[p / 8] = 0 := by
  have hget : ∀ j (hj : j < 16), (fillFrom (a.addr.set (p / 8) (a.addr[p / 8] &&& ~~~ (maskBytes p)[p / 8]))
      (p / 8 + 1) 0)[j] = (Vector.zipWith (· &&& ·) a.addr (maskBytes p))[j] ↔
      (j = p / 8 → a.addr[p / 8] &&& ~~~ (maskBytes p)[p / 8] = a.addr[p / 8] &&& (maskBytes p)[p / 8]) := by
    intro j hj
    rw [getElem_fillFrom _ _ _ hj, Vector.getElem_zipWith]
    rcases Nat.lt_trichotomy j (p / 8) with hlt | heq | hgt
    · rw [if_neg (by omega), Vector.getElem_set_ne _ _ hlt.ne', maskBytes_before hp.le hj hlt]
      exact iff_of_true UInt8.and_neg_one.symm fun heq => absurd heq hlt.ne
    · subst heq
      rw [if_neg (by omega), Vector.getElem_set_self]
      exact ⟨fun hbyte _ => hbyte, fun hbyte => hbyte rfl⟩
    · rw [if_pos (by omega), maskBytes_behind hp.le hj hgt]
      exact iff_of_true UInt8.and_zero.symm fun heq => absurd heq hgt.ne'
  rw [networkAddress_eq a hp h, ← and_not_byte_iff a.addr[p / 8] (maskBytes p)[p / 8]]
  constructor
  · intro heq
    have haddr := congrArg SockaddrIn6.addr (Except.ok.inj heq)
    exact (hget (p / 8) h).mp (congrArg (·[p / 8]) haddr) rfl
  · intro hbyte
    have haddr : fillFrom (a.addr.set (p / 8) (a.addr[p / 8] &&& ~~~ (maskBytes p)[p / 8])) (p / 8 + 1) 0 =
        Vector.zipWith (· &&& ·) a.addr (maskBytes p) :=
      Vector.ext fun j hj => (hget j hj).mpr fun _ => hbyte
    rw [haddr]

/-- The byte with the end of the prefix is one too large in `subnetMask`. -/
theorem subnetMask_ne (hp : p ≤ 128) {subnet : SockaddrIn6} (hsubnet : subnetMask p = .ok subnet) :
    subnet.addr ≠ maskBytes p := by
  intro haddr
  have hodd : ∀ r < 8, (-UInt8.ofNat (2 ^ (8 - r) - 1)).toNat.testBit 0 = true := by decide
  rw [subnetMask, createMask_one] at hsubnet
  change (modifyByte _ _ _).bind _ = _ at hsubnet
  by_cases hfull : p = 128
  · subst hfull
    rw [modifyByte_full] at hsubnet
    cases hsubnet
  · obtain ⟨h, hmodify⟩ := modifyByte_eq (Vector.replicate 16 0)
      (fun _ => -UInt8.ofNat (2 ^ (8 - p % 8) - 1)) (lt_of_le_of_ne hp hfull)
    obtain ⟨filled, hfilled, hget⟩ := fillBelow_eq
      ((Vector.replicate 16 0).set (p / 8) (-UInt8.ofNat (2 ^ (8 - p % 8) - 1))) 0xff h.le
    rw [hmodify] at hsubnet
    change (fillBelow _ _ _).bind _ = _ at hsubnet
    rw [hfilled] at hsubnet
    cases hsubnet
    have hbyte := congrArg (·[p / 8].toNat.testBit 0) haddr
    simp only at hbyte
    rw [hget _ h, if_neg (lt_irrefl _), Vector.getElem_set_self, hodd _ (Nat.mod_lt p (by decide)),
      testBit_maskBytes hp h (by decide)] at hbyte
    have hlong := of_decide_eq_true hbyte.symm
    omega

/-- The three functions do what is expected of them for no address and no prefix. -/
theorem not_masked (a : SockaddrIn6) (hp : p ≤ 128) : ¬ a.Masked p := by
  intro h
  obtain ⟨subnet, hsubnet, haddr⟩ := h.subnet
  exact subnetMask_ne hp hsubnet haddr

/-- Not for the loopback address and a prefix of 64 bits. -/
theorem not_masked_loopback :
    64 ≤ 128 ∧ ¬ (SockaddrIn6.new ((Vector.replicate 16 0).set 15 1) 80).Masked 64 :=
  ⟨by decide, not_masked _ (by decide)⟩

/-- The subnet mask of a prefix of 64 bits ends with a one behind it. -/
theorem not_masked_half : ¬ ∀ (a : SockaddrIn6) (p : ℕ), p ≤ 128 → a.Masked p := by
  intro h
  obtain ⟨subnet, hsubnet, haddr⟩ := (h (SockaddrIn6.new (Vector.replicate 16 0) 80) 64 (by decide)).subnet
  cases hsubnet
  exact absurd (congrArg (·[8]) haddr) (by decide +kernel)

end SockaddrIn6

end Bobliew
