import Bobliew.Address.Port

/-!
# Unix addresses and the order of addresses

`Address` compares the memory of two addresses up to their lengths. A `UnixAddress` has room for a path of
108 bytes. Its length counts the zero byte behind the path, unless the path begins with one: then it is
the name of an abstract socket, which is as long as the length says. The empty path and the path of one
zero byte are stored alike.

A socket says where it is bound by filling the memory of a new `UnixAddress`, whose length leaves out the
last byte of the path. The kernel returns the length of the whole name, which `setAddrLen` stores. So an
abstract name that needs all 108 bytes comes back with a zero at its end.
-/

namespace Bobliew

open WireFormat

/-- `memcmp`. -/
def memcmp : ℕ → List UInt8 → List UInt8 → Ordering
  | n + 1, x :: a, y :: b => (compare x y).then (memcmp n a b)
  | _, _, _ => .eq

/-- What an `Address` gives its operators: `getAddr`, and `getAddrLen`, which stays within the memory. -/
structure Sockaddr where
  addr : List UInt8
  addrLen : ℕ
  fits : addrLen ≤ addr.length

namespace Sockaddr

/-- The bytes that belong to the address. -/
def bytes (a : Sockaddr) : List UInt8 := a.addr.take a.addrLen

/-- `operator<`. -/
def less (a rhs : Sockaddr) : Bool :=
  match memcmp (min a.addrLen rhs.addrLen) a.addr rhs.addr with
  | .lt => true
  | .gt => false
  | .eq => decide (a.addrLen < rhs.addrLen)

/-- `operator==`. -/
def equal (a rhs : Sockaddr) : Bool :=
  a.addrLen == rhs.addrLen && memcmp a.addrLen a.addr rhs.addr == .eq

/-- Memory in which no byte differs. -/
theorem memcmp_eq_iff {n : ℕ} {u v : List UInt8} (hu : n ≤ u.length) (hv : n ≤ v.length) :
    memcmp n u v = .eq ↔ u.take n = v.take n := by
  induction n generalizing u v with
  | zero => exact ⟨fun _ => rfl, fun _ => rfl⟩
  | succ n ih =>
      cases u with
      | nil => exact absurd hu (Nat.not_succ_le_zero n)
      | cons x u =>
          cases v with
          | nil => exact absurd hv (Nat.not_succ_le_zero n)
          | cons y v =>
              have ih := ih (Nat.le_of_succ_le_succ hu) (Nat.le_of_succ_le_succ hv)
              rw [memcmp, Ordering.then_eq_eq, Std.compare_eq_iff_eq, ih, List.take_succ_cons,
                List.take_succ_cons, List.cons.injEq]

/-- Comparing the common length, and then the lengths, is comparing as words. -/
theorem memcmp_lt_iff {m n : ℕ} {u v : List UInt8} (hu : m ≤ u.length) (hv : n ≤ v.length) :
    (memcmp (min m n) u v = .lt ∨ memcmp (min m n) u v = .eq ∧ m < n) ↔ u.take m < v.take n := by
  induction m generalizing n u v with
  | zero =>
      rw [Nat.zero_min, List.take_zero]
      cases n with
      | zero => simp [memcmp]
      | succ n =>
          cases v with
          | nil => exact absurd hv (Nat.not_succ_le_zero n)
          | cons y v => simp [memcmp]
  | succ m ih =>
      cases u with
      | nil => exact absurd hu (Nat.not_succ_le_zero m)
      | cons x u =>
          cases n with
          | zero => simp [memcmp]
          | succ n =>
              cases v with
              | nil => exact absurd hv (Nat.not_succ_le_zero n)
              | cons y v =>
                  have ih := ih (Nat.le_of_succ_le_succ hu) (Nat.le_of_succ_le_succ hv)
                  rw [Nat.succ_min_succ, memcmp, Ordering.then_eq_lt, Ordering.then_eq_eq, Std.compare_eq_lt,
                    Std.compare_eq_iff_eq, List.take_succ_cons, List.take_succ_cons, List.cons_lt_cons_iff, ← ih,
                    Nat.succ_lt_succ_iff]
                  tauto

/-- `operator<` compares the bytes of two addresses as words. -/
theorem less_iff (a b : Sockaddr) : a.less b = true ↔ a.bytes < b.bytes := by
  rw [bytes, bytes, ← memcmp_lt_iff a.fits b.fits, less]
  split
  · next h => simp [h]
  · next h => simp [h]
  · next h => simp [h]

/-- `operator==` compares the bytes of two addresses. -/
theorem equal_iff (a b : Sockaddr) : a.equal b = true ↔ a.bytes = b.bytes := by
  rw [equal, Bool.and_eq_true, beq_iff_eq, beq_iff_eq]
  constructor
  · rintro ⟨hlen, hcmp⟩
    rw [memcmp_eq_iff a.fits (hlen ▸ b.fits)] at hcmp
    rw [bytes, bytes, hcmp, hlen]
  · intro h
    have hlen : a.addrLen = b.addrLen := by
      have := congrArg List.length h
      rwa [bytes, bytes, List.length_take_of_le a.fits, List.length_take_of_le b.fits] at this
    exact ⟨hlen, (memcmp_eq_iff a.fits (hlen ▸ b.fits)).mpr (by rw [bytes, bytes, ← hlen] at h; exact h)⟩

end Sockaddr

/-- `AF_UNIX`. -/
def afUnix : UInt16 := 1

/-- A `UnixAddress`: the path of `m_addr`, and `m_length`, which counts the two bytes of the family. The
path ends inside of its memory. -/
structure UnixAddress where
  sunPath : Vector UInt8 108
  length : ℕ
  fits : length ≤ 2 + 108
  ended : 0 ∈ sunPath.toList

/-- The name of a socket for the kernel: a file, or bytes that are no file. -/
inductive UnixName where
  | unnamed
  | pathname (name : List UInt8)
  | abstractName (name : List UInt8)
  deriving DecidableEq

namespace UnixName

/-- The name as `getPath` prints it: the zero in front of an abstract name becomes a backslash and a digit. -/
def printed : UnixName → List UInt8
  | .unnamed => []
  | .pathname name => name
  | .abstractName name => [92, 48] ++ name

/-- The path of the name, as `getsockname` returns it. -/
def sunPath : UnixName → List UInt8
  | .unnamed => []
  | .pathname name => name ++ [0]
  | .abstractName name => 0 :: name

end UnixName

namespace UnixAddress

/-- A path whose memory was zero before bytes were copied to it. -/
def copied (bytes : List UInt8) : Vector UInt8 108 := .ofFn fun i => bytes.getD i 0

/-- The bytes of `c_str()` that the constructor copies. -/
def stored (path : List UInt8) : List UInt8 := if path.head? = some 0 then path else path ++ [0]

/-- What the constructor copies begins or ends with a zero. -/
theorem zero_mem_stored (path : List UInt8) : 0 ∈ stored path := by
  unfold stored
  split
  · next h => exact List.mem_of_mem_head? h
  · exact List.mem_append_right path (List.mem_singleton_self 0)

/-- The bytes that are copied, and zeros behind them. -/
theorem toList_copied {bytes : List UInt8} (h : bytes.length ≤ 108) :
    (copied bytes).toList = bytes ++ List.replicate (108 - bytes.length) 0 := by
  rw [copied, Vector.toList_ofFn]
  apply List.ext_getElem
  · rw [List.length_ofFn, List.length_append, List.length_replicate]
    omega
  · intro i hi hi'
    rw [List.getElem_ofFn, List.getElem_append]
    split
    · next hlt => rw [List.getD_eq_getElem _ _ hlt]
    · next hge => rw [List.getD_eq_default _ _ (Nat.le_of_not_lt hge), List.getElem_replicate]

/-- A path that leaves a byte of its memory ends inside of it. -/
theorem zero_mem_copied {bytes : List UInt8} (h : bytes.length < 108) : 0 ∈ (copied bytes).toList := by
  rw [toList_copied h.le]
  exact List.mem_append_right bytes (List.mem_replicate.mpr ⟨by omega, rfl⟩)

/-- The length that the constructor computes is that of the bytes it copies. -/
theorem take_eq_stored (path : List UInt8) :
    (path ++ [0]).take (if path.head? = some 0 then path.length + 1 - 1 else path.length + 1) = stored path := by
  unfold stored
  split
  · rw [Nat.add_sub_cancel, List.take_left]
  · exact List.take_of_length_le (by rw [List.length_append, List.length_singleton])

/-- `UnixAddress(path)`; none is the exception of a path that is too long. -/
def new (path : List UInt8) : Option UnixAddress :=
  let m_length := if path.head? = some 0 then path.length + 1 - 1 else path.length + 1
  if h : m_length ≤ 108 then
    some {
      sunPath := copied ((path ++ [0]).take m_length)
      length := m_length + 2
      fits := by omega
      ended := by
        rw [toList_copied ((List.length_take_le _ _).trans h), take_eq_stored]
        exact List.mem_append_left _ (zero_mem_stored path) }
  else none

/-- `UnixAddress()`. -/
def blank : UnixAddress := ⟨copied [], 2 + (108 - 1), by decide, zero_mem_copied (by decide)⟩

/-- The memory of the address. -/
def sockaddr (a : UnixAddress) : Sockaddr where
  addr := littleEndian 2 afUnix.toNat ++ a.sunPath.toList
  addrLen := a.length
  fits := by
    have := a.fits
    rw [List.length_append, length_littleEndian, Vector.length_toList]
    omega

/-- `getPath`. -/
def getPath (a : UnixAddress) : List UInt8 :=
  if 2 < a.length ∧ a.sunPath[0] = 0 then [92, 48] ++ (a.sunPath.toList.drop 1).take (a.length - 2 - 1)
  else a.sunPath.toList.takeWhile (· ≠ 0)

/-- The name of a socket that is bound to the address. -/
def name (a : UnixAddress) : UnixName :=
  if a.length ≤ 2 then .unnamed
  else if a.sunPath[0] = 0 then .abstractName ((a.sunPath.toList.take (a.length - 2)).drop 1)
  else .pathname ((a.sunPath.toList.take (a.length - 2)).takeWhile (· ≠ 0))

/-- What stands in front of the first zero, up to some length, leaves room for the zero. -/
theorem length_takeWhile_lt {l : List UInt8} (h : 0 ∈ l) (n : ℕ) :
    ((l.take n).takeWhile (· ≠ 0)).length < l.length := by
  have hpre : (l.take n).takeWhile (· ≠ 0) <+: l := (List.takeWhile_prefix _).trans (List.take_prefix n l)
  apply lt_of_le_of_ne hpre.length_le
  intro heq
  have hmem : 0 ∈ (l.take n).takeWhile (· ≠ 0) := (hpre.eq_of_length heq).symm ▸ h
  exact absurd (List.mem_takeWhile_imp hmem) (by decide)

/-- The name of a socket fits the memory of a path. -/
theorem length_sunPath_name (a : UnixAddress) : a.name.sunPath.length ≤ 108 := by
  have hsize : (a.sunPath.toList.take (a.length - 2)).length ≤ 108 := by
    rw [List.length_take, Vector.length_toList]
    exact Nat.min_le_right _ _
  unfold name
  split
  · exact Nat.zero_le 108
  · split
    · rw [UnixName.sunPath, List.length_cons, List.length_drop]
      omega
    · rw [UnixName.sunPath, List.length_append, List.length_singleton]
      have hlt := length_takeWhile_lt a.ended (a.length - 2)
      rw [Vector.length_toList] at hlt
      omega

/-- `setAddrLen`. -/
def setAddrLen (a : UnixAddress) (v : ℕ) (h : v ≤ 2 + 108) : UnixAddress := { a with length := v, fits := h }

/-- A new address, into which `getsockname` copies what its length has room for. -/
def filled (name : UnixName) : UnixAddress :=
  { blank with
    sunPath := copied (name.sunPath.take (blank.length - 2))
    ended := zero_mem_copied (lt_of_le_of_lt (List.length_take_le _ _) (by decide)) }

/-- `Socket::getLocalAddress` as `bind` calls it: the first query of a socket, which keeps no address from an
earlier one. The length that `getsockname` returns is that of the name, whether there was room for it or not. -/
def getLocalAddress (a : UnixAddress) : UnixAddress :=
  (filled a.name).setAddrLen (2 + a.name.sunPath.length) (Nat.add_le_add_left a.length_sunPath_name 2)

variable {path p q : List UInt8} {a b : UnixAddress}

/-- The length that the constructor computes, before the family. -/
theorem length_stored (path : List UInt8) :
    (if path.head? = some 0 then path.length + 1 - 1 else path.length + 1) = (stored path).length := by
  unfold stored
  split
  · rw [Nat.add_sub_cancel]
  · rw [List.length_append, List.length_singleton]

/-- What the constructor makes of a path that it takes. -/
theorem new_eq_some (h : new path = some a) :
    (stored path).length ≤ 108 ∧ a.length = (stored path).length + 2 ∧ a.sunPath = copied (stored path) := by
  rw [new, Option.dite_none_right_eq_some] at h
  obtain ⟨hle, heq⟩ := h
  rw [← Option.some.inj heq]
  exact ⟨length_stored path ▸ hle, congrArg (· + 2) (length_stored path), congrArg copied (take_eq_stored path)⟩

/-- The address consists of its family and of the bytes that were copied. -/
theorem bytes_new (h : new path = some a) :
    a.sockaddr.bytes = littleEndian 2 afUnix.toNat ++ stored path := by
  obtain ⟨hle, hlen, hpath⟩ := new_eq_some h
  have hbytes : a.sockaddr.bytes = (littleEndian 2 afUnix.toNat ++ a.sunPath.toList).take a.length := rfl
  rw [hbytes, hlen, hpath, toList_copied hle, ← List.append_assoc]
  exact List.take_left' (by rw [List.length_append, length_littleEndian, Nat.add_comm])

/-- The empty path, and the path of one zero. -/
def Unnamed (path : List UInt8) : Prop := path = [] ∨ path = [0]

/-- Nothing but the empty word is less than a zero. -/
theorem not_cons_lt_zero (x : UInt8) (l : List UInt8) : ¬x :: l < [0] := by
  rw [List.cons_lt_cons_iff]
  intro h
  rcases h with h | h
  · exact UInt8.not_lt_zero h
  · exact List.not_lt_nil l h.2

/-- A zero is less than every other word that is not empty. -/
theorem zero_lt_cons_iff (y : UInt8) (l : List UInt8) : [0] < y :: l ↔ y :: l ≠ [0] := by
  rw [List.cons_lt_cons_iff]
  by_cases hy : y = 0
  · subst hy
    cases l <;> simp
  · have hlt : 0 < y := UInt8.pos_iff_ne_zero.mpr hy
    simp [hy, hlt]

/-- A zero behind two words does not change their order. -/
theorem append_zero_lt_iff : p ++ [0] < q ++ [0] ↔ p < q := by
  induction p generalizing q with
  | nil =>
      cases q with
      | nil => simp
      | cons y q =>
          rw [List.nil_append, List.cons_append, zero_lt_cons_iff]
          simp
  | cons x p ih =>
      cases q with
      | nil => exact iff_of_false (List.cons_append ▸ not_cons_lt_zero x (p ++ [0])) (List.not_lt_nil _)
      | cons y q => rw [List.cons_append, List.cons_append, List.cons_lt_cons_iff, List.cons_lt_cons_iff, ih]

/-- The two paths that are stored alike are in order. -/
theorem Unnamed.lt_iff (hp : Unnamed p) (hq : Unnamed q) : p < q ↔ p = [] ∧ q = [0] := by
  rcases hp with rfl | rfl <;> rcases hq with rfl | rfl <;> simp

/-- The order of what is stored is that of the paths, but for the two that are stored alike. -/
theorem stored_lt_iff : stored p < stored q ↔ p < q ∧ ¬(Unnamed p ∧ Unnamed q) := by
  unfold stored
  by_cases hp : p.head? = some 0
  · obtain ⟨p, rfl⟩ := List.head?_eq_some_iff.mp hp
    by_cases hq : q.head? = some 0
    · obtain ⟨q, rfl⟩ := List.head?_eq_some_iff.mp hq
      rw [if_pos hp, if_pos hq]
      refine ⟨fun h => ⟨h, fun hun => ?_⟩, And.left⟩
      exact List.cons_ne_nil 0 p ((hun.1.lt_iff hun.2).mp h).1
    · rw [if_pos hp, if_neg hq]
      cases q with
      | nil => exact iff_of_false (not_cons_lt_zero 0 p) fun h => List.not_lt_nil _ h.1
      | cons y q =>
          have hy : y ≠ 0 := fun h => hq (congrArg some h)
          have hlt : ∀ l, 0 :: p < y :: l := fun l => List.cons_lt_cons_iff.mpr (.inl (UInt8.pos_iff_ne_zero.mpr hy))
          exact iff_of_true (hlt _) ⟨hlt q, fun hun => by simp [Unnamed, hy] at hun⟩
  · by_cases hq : q.head? = some 0
    · obtain ⟨q, rfl⟩ := List.head?_eq_some_iff.mp hq
      rw [if_neg hp, if_pos hq]
      cases p with
      | nil => rw [List.nil_append, zero_lt_cons_iff]; simp [Unnamed]
      | cons x p =>
          have hx : x ≠ 0 := fun h => hp (congrArg some h)
          have hlt : ∀ l, ¬x :: l < 0 :: q := fun l h => by
            rw [List.cons_lt_cons_iff] at h
            simp [hx] at h
          exact iff_of_false (hlt _) fun h => hlt p h.1
    · rw [if_neg hp, if_neg hq, append_zero_lt_iff]
      refine ⟨fun h => ⟨h, fun hun => ?_⟩, And.left⟩
      exact hq (((hun.1.lt_iff hun.2).mp h).2 ▸ rfl)

/-- What is stored tells the paths apart, but for the two that are stored alike. -/
theorem stored_eq_iff : stored p = stored q ↔ p = q ∨ Unnamed p ∧ Unnamed q := by
  constructor
  · intro h
    by_contra hne
    rw [not_or] at hne
    have hpq : ¬p < q := fun hlt => List.lt_irrefl _ (h ▸ stored_lt_iff.mpr ⟨hlt, hne.2⟩)
    have hqp : ¬q < p := fun hlt =>
      List.lt_irrefl _ (h ▸ stored_lt_iff.mpr ⟨hlt, fun hun => hne.2 ⟨hun.2, hun.1⟩⟩)
    exact hne.1 (Std.Trichotomous.trichotomous p q hpq hqp)
  · rintro (rfl | ⟨rfl | rfl, rfl | rfl⟩) <;> rfl

/-- The operators of `Address` on addresses made from paths: the order is that of the paths, and equality is
theirs, except that the empty path and the path of one zero make one address. -/
theorem compare_paths (hp : new p = some a) (hq : new q = some b) :
    (a.sockaddr.less b.sockaddr = true ↔ p < q ∧ ¬(Unnamed p ∧ Unnamed q)) ∧
      (a.sockaddr.equal b.sockaddr = true ↔ p = q ∨ Unnamed p ∧ Unnamed q) := by
  have hfamily : littleEndian 2 afUnix.toNat = [1, 0] := by decide
  rw [Sockaddr.less_iff, Sockaddr.equal_iff, bytes_new hp, bytes_new hq, List.append_cancel_left_eq, stored_eq_iff,
    ← stored_lt_iff, hfamily]
  exact ⟨by simp, Iff.rfl⟩

/-- Two paths of one letter. -/
theorem compare_paths_letters : ∃ a b, new [97] = some a ∧ new [98] = some b ∧
    a.sockaddr.less b.sockaddr = true ∧ a.sockaddr.equal b.sockaddr = false := by
  obtain ⟨a, ha⟩ : ∃ a, new [97] = some a := Option.isSome_iff_exists.mp (by decide)
  obtain ⟨b, hb⟩ : ∃ b, new [98] = some b := Option.isSome_iff_exists.mp (by decide)
  obtain ⟨hless, hequal⟩ := compare_paths ha hb
  refine ⟨a, b, ha, hb, hless.mpr ⟨by decide, by simp [Unnamed]⟩, ?_⟩
  exact Bool.eq_false_iff.mpr (mt hequal.mp (by simp [Unnamed]))

/-- The bytes in front of the first zero. -/
theorem takeWhile_append_zero (l r : List UInt8) : (l ++ 0 :: r).takeWhile (· ≠ 0) = l.takeWhile (· ≠ 0) := by
  induction l with
  | nil => rfl
  | cons x l ih =>
      rw [List.cons_append, List.takeWhile_cons, List.takeWhile_cons, ih]

/-- Which addresses have an abstract name. -/
theorem sunPath_zero_iff (h : new path = some a) : a.sunPath[0] = 0 ↔ path = [] ∨ path.head? = some 0 := by
  rw [(new_eq_some h).2.2, copied, Vector.getElem_ofFn, stored]
  cases path with
  | nil => simp
  | cons x path => by_cases hx : x = 0 <;> simp [hx]

/-- What is stored of an abstract name, and of other paths. -/
theorem stored_of_abstract (h : path = [] ∨ path.head? = some 0) : stored path = 0 :: path.tail := by
  rcases h with rfl | h
  · rfl
  · obtain ⟨p, rfl⟩ := List.head?_eq_some_iff.mp h
    rfl

/-- The path of an address, and what it is followed by. -/
theorem toList_sunPath (h : new path = some a) : ∃ zeros, a.sunPath.toList = stored path ++ zeros :=
  ⟨_, (new_eq_some h).2.2 ▸ toList_copied (new_eq_some h).1⟩

/-- The name of a socket bound to an address made from a path. -/
theorem name_new (h : new path = some a) :
    a.name = if path = [] ∨ path.head? = some 0 then .abstractName path.tail
      else .pathname (path.takeWhile (· ≠ 0)) := by
  obtain ⟨zeros, hzeros⟩ := toList_sunPath h
  have hpos := List.length_pos_of_mem (zero_mem_stored path)
  have hlen := (new_eq_some h).2.1
  have htake : a.sunPath.toList.take (a.length - 2) = stored path := by
    rw [hzeros, hlen, Nat.add_sub_cancel, List.take_left]
  rw [name, if_neg (by omega), htake]
  by_cases habs : path = [] ∨ path.head? = some 0
  · rw [if_pos ((sunPath_zero_iff h).mpr habs), if_pos habs, stored_of_abstract habs]
    rfl
  · rw [if_neg (mt (sunPath_zero_iff h).mp habs), if_neg habs, stored, if_neg fun hhead => habs (.inr hhead),
      takeWhile_append_zero]

/-- The printed path is the name of the socket: `bind` removes the file that it is about to make, and for an
abstract name the file that the printed name is the name of. -/
theorem getPath_new (h : new path = some a) : a.getPath = a.name.printed := by
  obtain ⟨zeros, hzeros⟩ := toList_sunPath h
  have hpos := List.length_pos_of_mem (zero_mem_stored path)
  have hlen := (new_eq_some h).2.1
  rw [name_new h, getPath, hzeros, hlen]
  by_cases habs : path = [] ∨ path.head? = some 0
  · rw [if_pos ⟨by omega, (sunPath_zero_iff h).mpr habs⟩, if_pos habs, stored_of_abstract habs]
    simp [UnixName.printed]
  · rw [if_neg fun hzero => habs ((sunPath_zero_iff h).mp hzero.2), if_neg habs, stored,
      if_neg fun hhead => habs (.inr hhead), List.append_assoc, List.singleton_append, takeWhile_append_zero]
    rfl

/-- What comes back of a name that is copied without the last byte of the memory. -/
theorem take_copied_iff {l : List UInt8} (h : l.length ≤ 108) :
    (copied (l.take 107)).toList.take l.length = l ↔ l.length ≤ 107 ∨ l.getLast? = some 0 := by
  rw [toList_copied (by rw [List.length_take]; omega)]
  by_cases hle : l.length ≤ 107
  · rw [List.take_of_length_le hle, List.take_left]
    exact iff_of_true rfl (.inl hle)
  · rcases List.eq_nil_or_concat' l with rfl | ⟨front, x, rfl⟩
    · exact absurd (Nat.zero_le 107) hle
    · have hfront : front.length = 107 := by
        rw [List.length_append, List.length_singleton] at h hle
        omega
      have hzero : front ++ List.replicate (108 - front.length) 0 = front ++ [0] := by rw [hfront]; rfl
      rw [List.take_left' hfront, hzero, List.take_of_length_le (by simp), List.append_cancel_left_eq,
        List.getLast?_concat]
      simp [hfront, eq_comm]

/-- A path that a bound socket reports as it is: an abstract name that leaves the last byte of the memory or
ends with a zero, and a path without a zero in it. -/
def Restored (path : List UInt8) : Prop :=
  if path.head? = some 0 then path.length ≤ 107 ∨ path.getLast? = some 0 else 0 ∉ path

/-- The bytes of the address that a bound socket reports. -/
theorem bytes_getLocalAddress (a : UnixAddress) :
    a.getLocalAddress.sockaddr.bytes =
      littleEndian 2 afUnix.toNat ++ (copied (a.name.sunPath.take 107)).toList.take a.name.sunPath.length := by
  have hbytes : a.getLocalAddress.sockaddr.bytes =
      (littleEndian 2 afUnix.toNat ++ (copied (a.name.sunPath.take 107)).toList).take (2 + a.name.sunPath.length) :=
    rfl
  rw [hbytes, List.take_append, length_littleEndian, Nat.add_sub_cancel_left,
    List.take_of_length_le (by rw [length_littleEndian]; omega)]

/-- What `getLocalAddress` says of a socket bound to an address made from a path is equal to the address if and
only if the path leaves the last byte of the memory, for an abstract name, and has no zero in it otherwise. -/
theorem getLocalAddress_equal_iff (h : new path = some a) :
    a.getLocalAddress.sockaddr.equal a.sockaddr = true ↔ Restored path := by
  rw [Sockaddr.equal_iff, bytes_getLocalAddress, bytes_new h, List.append_cancel_left_eq, Restored, name_new h]
  have hsize := (new_eq_some h).1
  by_cases habs : path = [] ∨ path.head? = some 0
  · have hname : UnixName.sunPath (.abstractName path.tail) = stored path := (stored_of_abstract habs).symm
    rw [if_pos habs, hname, take_copied_iff hsize]
    rcases habs with rfl | hhead
    · simp [stored]
    · rw [if_pos hhead, stored, if_pos hhead]
  · have hhead : ¬path.head? = some 0 := fun hhead => habs (.inr hhead)
    have hlast : (path.takeWhile (· ≠ 0) ++ [0]).getLast? = some 0 := List.getLast?_concat
    have hlen : (path.takeWhile (· ≠ 0) ++ [0]).length ≤ 108 := by
      have := (List.takeWhile_sublist (l := path) (· ≠ 0)).length_le
      rw [stored, if_neg hhead, List.length_append, List.length_singleton] at hsize
      rw [List.length_append, List.length_singleton]
      omega
    rw [if_neg habs, if_neg hhead, UnixName.sunPath, (take_copied_iff hlen).mpr (.inr hlast), stored, if_neg hhead,
      List.append_cancel_right_eq, List.takeWhile_eq_self_iff]
    simp only [decide_eq_true_eq]
    exact ⟨fun hall hmem => hall 0 hmem rfl, fun hmem x hx hzero => hmem (hzero ▸ hx)⟩

/-- A socket bound to an address made from a path has the name that `getPath` prints, and reports an address
equal to it if and only if the path is restored. -/
theorem bound_reports (h : new path = some a) :
    a.getPath = a.name.printed ∧ (a.getLocalAddress.sockaddr.equal a.sockaddr = true ↔ Restored path) :=
  ⟨getPath_new h, getLocalAddress_equal_iff h⟩

/-- An abstract name of 108 bytes comes back without its last one. -/
theorem bound_reports_longest : ∃ a, new (0 :: List.replicate 107 97) = some a ∧ a.getPath = a.name.printed ∧
    a.getLocalAddress.sockaddr.equal a.sockaddr = false := by
  obtain ⟨a, ha⟩ : ∃ a, new (0 :: List.replicate 107 97) = some a := Option.isSome_iff_exists.mp (by decide)
  obtain ⟨hpath, hequal⟩ := bound_reports ha
  have hlost : ¬Restored (0 :: List.replicate 107 97) := by
    rw [Restored, if_pos List.head?_cons]
    decide
  exact ⟨a, ha, hpath, Bool.eq_false_iff.mpr (mt hequal.mp hlost)⟩

end UnixAddress

end Bobliew
