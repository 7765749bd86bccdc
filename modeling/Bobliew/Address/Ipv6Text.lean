import Bobliew.Address.Port
import Bobliew.Uri.Acceptance
import Bobliew.Uri.Printing

/-!
# The text of an IPv6 address

`IPV6Address::insert` goes over the eight groups of an address once. It leaves out zeros until it has printed a
`::`, which it does in front of the first group that follows a zero, and behind the last group when the
zeros at the end are the first ones.

What it prints is an address of the grammar, and the groups that the text stands for, the ones the `::` leaves out
included, are those of the address.
-/

namespace Bobliew

open WireFormat Http Ragel

/-! ## The groups of a text -/

/-- The value of a hexadecimal digit. -/
def hexDigitValue (c : UInt8) : ℕ :=
  if c.toNat < 58 then c.toNat - 48 else if c.toNat < 91 then c.toNat - 55 else c.toNat - 87

/-- The number that hexadecimal digits stand for. -/
def hexValue (digits : Bytes) : ℕ := digits.foldl (fun n c => 16 * n + hexDigitValue c) 0

/-- A number in hexadecimal. -/
def hexadecimal (n : ℕ) : Bytes := asciiText (Nat.toDigits 16 n)

namespace Ipv6

/-- The two groups of an IPv4 address. -/
def quadGroups (octets : List Bytes) : List ℕ :=
  match octets.map Uri.decimalValue with
  | [a, b, c, d] => [256 * a + b, 256 * c + d]
  | _ => []

/-- The groups that an address stands for: the `::` is as many zeros as are missing. -/
def groups (v : Ipv6) : List ℕ :=
  let behind := v.back.map hexValue ++ v.quad.elim [] quadGroups
  v.front.elim behind fun front => front.map hexValue ++ List.replicate (8 - front.length - v.size) 0 ++ behind

end Ipv6

/-! ## What is printed -/

/-- The stream, and whether a `::` has been printed. -/
structure Ipv6Printer where
  os : Bytes
  usedZeros : Bool

namespace SockaddrIn6

/-- `addr[i]`: two bytes of `s6_addr` as a `uint16_t` of the machine. -/
def word (a : SockaddrIn6) (i : ℕ) : ℕ :=
  ofLittleEndian [a.addr.toList.getD (2 * i) 0, a.addr.toList.getD (2 * i + 1) 0]

/-- One round of the loop of `insert`. -/
def insertGroup (a : SockaddrIn6) (printer : Ipv6Printer) (i : ℕ) : Ipv6Printer :=
  if a.word i = 0 ∧ printer.usedZeros = false then printer
  else
    let printer : Ipv6Printer :=
      if i ≠ 0 ∧ a.word (i - 1) = 0 ∧ printer.usedZeros = false then ⟨printer.os ++ [58], true⟩ else printer
    let os := if i ≠ 0 then printer.os ++ [58] else printer.os
    { printer with os := os ++ hexadecimal (byteswapOnLittleEndian 2 (a.word i)) }

/-- What `insert` prints between the brackets. -/
def insertGroups (a : SockaddrIn6) : Bytes :=
  let printer := (List.range 8).foldl a.insertGroup ⟨[], false⟩
  if printer.usedZeros = false ∧ a.word 7 = 0 then printer.os ++ [58, 58] else printer.os

/-- `toString`: what `IPV6Address::insert` prints. -/
def toString (a : SockaddrIn6) : Bytes :=
  [91] ++ a.insertGroups ++ [93, 58] ++ decimal (byteswapOnLittleEndian 2 a.port.toNat)

/-- A group of an address. -/
def group (a : SockaddrIn6) (i : ℕ) : ℕ :=
  256 * (a.addr.toList.getD (2 * i) 0).toNat + (a.addr.toList.getD (2 * i + 1) 0).toNat

/-- The eight groups of an address. -/
def groups (a : SockaddrIn6) : List ℕ := (List.range 8).map a.group

end SockaddrIn6

/-! ## Hexadecimal numbers -/

/-- A digit of a number. -/
theorem hexDigitValue_digitChar : ∀ d < 16, hexDigitValue (UInt8.ofNat (Nat.digitChar d).toNat) = d ∧
    xdigit.has (UInt8.ofNat (Nat.digitChar d).toNat) = true := by
  decide

/-- The digits of a number that has more than one. -/
theorem hexadecimal_of_le {n : ℕ} (hn : 16 ≤ n) :
    hexadecimal n = hexadecimal (n / 16) ++ [UInt8.ofNat (Nat.digitChar (n % 16)).toNat] := by
  have hmod : n % 16 < 16 := Nat.mod_lt n (by decide)
  rw [hexadecimal, Nat.toDigits_of_base_le (by decide) hn, asciiText, List.map_append]
  rfl

/-- The only digit of a number below sixteen. -/
theorem hexadecimal_of_lt {n : ℕ} (hn : n < 16) : hexadecimal n = [UInt8.ofNat (Nat.digitChar n).toNat] := by
  rw [hexadecimal, Nat.toDigits_of_lt_base hn]
  rfl

/-- A number is read back. -/
theorem hexValue_hexadecimal (n : ℕ) : hexValue (hexadecimal n) = n := by
  induction n using Nat.strong_induction_on with
  | _ n ih =>
    by_cases hn : n < 16
    · rw [hexadecimal_of_lt hn]
      change 16 * 0 + hexDigitValue _ = n
      rw [(hexDigitValue_digitChar n hn).1, Nat.mul_zero, Nat.zero_add]
    · have hback := ih (n / 16) (by omega)
      rw [hexValue] at hback
      rw [hexadecimal_of_le (not_lt.mp hn), hexValue, List.foldl_append, hback]
      change 16 * (n / 16) + hexDigitValue _ = n
      rw [(hexDigitValue_digitChar (n % 16) (Nat.mod_lt n (by decide))).1]
      omega

/-- The digits are hexadecimal. -/
theorem xdigit_of_mem_hexadecimal {n : ℕ} : ∀ c ∈ hexadecimal n, xdigit.has c = true := by
  induction n using Nat.strong_induction_on with
  | _ n ih =>
    by_cases hn : n < 16
    · rw [hexadecimal_of_lt hn]
      exact List.forall_mem_singleton.mpr (hexDigitValue_digitChar n hn).2
    · rw [hexadecimal_of_le (not_lt.mp hn)]
      refine List.forall_mem_append.mpr ⟨ih (n / 16) (by omega), List.forall_mem_singleton.mpr ?_⟩
      exact (hexDigitValue_digitChar (n % 16) (Nat.mod_lt n (by decide))).2

/-- Some hexadecimal digits. -/
theorem mem_upTo_bytes {set : ByteSet} {w : Bytes} {n : ℕ} (hset : ∀ c ∈ w, set.has c = true) (hlen : w.length ≤ n) :
    w ∈ Rfc3986.upTo (Rfc3986.bytes set) n := by
  rw [Rfc3986.mem_upTo]
  refine ⟨w.length, hlen, ?_⟩
  clear hlen
  induction w with
  | nil => exact Language.mem_one [] |>.mpr rfl
  | cons c w ih =>
    obtain ⟨hc, hw⟩ := List.forall_mem_cons.mp hset
    rw [List.length_cons, pow_succ']
    exact Language.mem_mul.mpr ⟨[c], ⟨c, hc, rfl⟩, w, ih hw, rfl⟩

/-- A number of 16 bits is printed as a group. -/
theorem hexadecimal_mem_h16 {n : ℕ} (hn : n < 65536) : hexadecimal n ∈ Rfc3986.h16 := by
  have hlen : (hexadecimal n).length ≤ 4 := by
    rw [hexadecimal, asciiText, List.length_map]
    exact (Nat.length_toDigits_le_iff (by decide) (by decide)).mpr hn
  have hdigits : ∀ c ∈ hexadecimal n, xdigit.has c = true := xdigit_of_mem_hexadecimal
  cases htext : hexadecimal n with
  | nil => exact absurd (List.map_eq_nil_iff.mp htext) Nat.toDigits_ne_nil
  | cons c w =>
    rw [htext] at hlen hdigits
    obtain ⟨hc, hw⟩ := List.forall_mem_cons.mp hdigits
    exact Language.mem_mul.mpr ⟨[c], ⟨c, hc, rfl⟩, w, mem_upTo_bytes hw (Nat.le_of_succ_le_succ hlen), rfl⟩

namespace Ipv6

/-- The address that is written with numbers. -/
def ofGroups (front : Option (List ℕ)) (back : List ℕ) : Ipv6 where
  front := front.map fun gs => gs.map hexadecimal
  back := back.map hexadecimal
  quad := none

variable {front : Option (List ℕ)} {back : List ℕ}

/-- Its text. -/
theorem text_ofGroups : (ofGroups front back).text =
    (front.elim [] fun gs => [58].intercalate (gs.map hexadecimal) ++ [58, 58]) ++
      [58].intercalate (back.map hexadecimal) := by
  cases front with
  | none => simp [ofGroups, text, fields]
  | some gs => simp [ofGroups, text, fields]

/-- It is an address of the grammar. -/
theorem ofGroups_derives {octet : Language UInt8} (hfront : ∀ gs ∈ front, ∀ g ∈ gs, g < 65536)
    (hback : ∀ g ∈ back, g < 65536)
    (hcount : front.elim (back.length = 8) fun gs => gs.length + back.length ≤ 7) :
    (ofGroups front back).Derives octet := by
  have hgroups : ∀ gs : List ℕ, (∀ g ∈ gs, g < 65536) → ∀ x ∈ gs.map hexadecimal, x ∈ Rfc3986.h16 := by
    intro gs hgs x hx
    obtain ⟨g, hg, rfl⟩ := List.mem_map.mp hx
    exact hexadecimal_mem_h16 (hgs g hg)
  refine ⟨fun groups hgs => ?_, hgroups back hback, (fun _ hq => by cases hq), ?_⟩
  · obtain ⟨gs, hsome, rfl⟩ := Option.map_eq_some_iff.mp hgs
    exact hgroups gs (hfront gs hsome)
  · cases front with
    | none => simpa [ofGroups, size] using hcount
    | some gs => simpa [ofGroups, size] using hcount

/-- The numbers are read back. -/
theorem groups_ofGroups : (ofGroups front back).groups =
    front.elim back fun gs => gs ++ List.replicate (8 - gs.length - back.length) 0 ++ back := by
  have hnumbers : ∀ gs : List ℕ, (gs.map hexadecimal).map hexValue = gs := by
    intro gs
    rw [List.map_map, show hexValue ∘ hexadecimal = id from funext hexValue_hexadecimal, List.map_id]
  cases front with
  | none => simp [ofGroups, groups, hnumbers]
  | some gs => simp [ofGroups, groups, size, hnumbers]

variable {octet : Language UInt8} {v : Ipv6} {x y x' y' : Bytes}

/-- An empty piece with pieces on both sides stands between those of the two sides of the `::`. -/
theorem Derives.pieces_cut (h : v.Derives octet) (hoctet : octet ≤ avoiding [58]) {xs ys : List Bytes}
    (hxs : xs ≠ []) (hys : ys ≠ []) (heq : v.pieces = xs ++ [] :: ys) :
    ∃ groups, v.front = some groups ∧ xs = if groups = [] then [[]] else groups := by
  have hfields : [] ∉ v.fields := fun hnil => (h.fields_mem hoctet [] hnil).1 rfl
  cases hfront : v.front with
  | none =>
    rw [pieces, hfront, Option.elim_none] at heq
    exact absurd (heq ▸ List.mem_append_right _ List.mem_cons_self) hfields
  | some groups =>
    refine ⟨groups, rfl, ?_⟩
    have hgroups : [] ∉ groups := fun hnil => nil_not_mem_h16 (h.front groups hfront [] hnil)
    rw [pieces, hfront, Option.elim_some] at heq
    -- no piece behind the `::` is empty unless it is the last one, and none in front of it unless it is the first
    have hfirst : ∀ zs : List Bytes, xs ≠ (if groups = [] then [[]] else groups) ++ [] :: zs := by
      intro zs hzs
      rw [hzs, List.append_assoc, List.append_cancel_left_eq, List.cons_append] at heq
      obtain ⟨_, hbehind⟩ := List.cons_eq_cons.mp heq
      have hmem : [] ∈ if v.fields = [] then [[]] else v.fields :=
        hbehind ▸ List.mem_append_right _ List.mem_cons_self
      split at hmem
      · rename_i hnil
        rw [if_pos hnil] at hbehind
        have hlen := congrArg List.length hbehind
        simp only [List.length_append, List.length_cons, List.length_nil] at hlen
        exact hys (List.eq_nil_of_length_eq_zero (by omega))
      · exact hfields hmem
    rcases List.append_eq_append_iff.mp heq with ⟨zs, hzs, hrest⟩ | ⟨zs, hzs, hrest⟩
    · cases zs with
      | nil => rw [hzs, List.append_nil]
      | cons z zs =>
        obtain ⟨rfl, _⟩ := List.cons_eq_cons.mp hrest
        exact absurd hzs (hfirst zs)
    · cases zs with
      | nil => rw [hzs, List.append_nil]
      | cons z zs =>
        obtain ⟨rfl, _⟩ := List.cons_eq_cons.mp hrest
        split at hzs
        · have hlen := congrArg List.length hzs
          simp only [List.length_append, List.length_cons, List.length_nil] at hlen
          exact absurd (List.eq_nil_of_length_eq_zero (by omega)) hxs
        · exact absurd (hzs ▸ List.mem_append_right _ List.mem_cons_self) hgroups

/-- The text has at most one `::`. -/
theorem Derives.elision_unique (h : v.Derives octet) (hoctet : octet ≤ avoiding [58])
    (hx : v.text = x ++ [58, 58] ++ y) (hx' : v.text = x' ++ [58, 58] ++ y') : x = x' := by
  have hcut : ∀ x y : Bytes, v.text = x ++ [58, 58] ++ y → v.pieces = x.splitOn 58 ++ [] :: y.splitOn 58 := by
    intro x y hxy
    have hjoined : v.text = [58].intercalate (x.splitOn 58 ++ [] :: y.splitOn 58) := by
      rw [hxy, List.intercalate_append (List.splitOn_ne_nil _ _) (List.cons_ne_nil _ _),
        List.intercalate_cons_of_ne_nil (List.splitOn_ne_nil _ _), List.intercalate_splitOn, List.intercalate_splitOn]
      simp
    rw [← h.splitOn_text hoctet, hjoined]
    refine List.splitOn_intercalate 58 (fun piece hpiece => ?_) (by simp)
    rcases List.mem_append.mp hpiece with hpiece | hpiece
    · exact List.not_mem_of_mem_splitOn hpiece
    · rcases List.mem_cons.mp hpiece with rfl | hpiece
      · exact List.not_mem_nil
      · exact List.not_mem_of_mem_splitOn hpiece
  obtain ⟨groups, hfront, hpieces⟩ :=
    h.pieces_cut hoctet (List.splitOn_ne_nil _ _) (List.splitOn_ne_nil _ _) (hcut x y hx)
  obtain ⟨groups', hfront', hpieces'⟩ :=
    h.pieces_cut hoctet (List.splitOn_ne_nil _ _) (List.splitOn_ne_nil _ _) (hcut x' y' hx')
  obtain rfl := Option.some.inj (hfront.symm.trans hfront')
  have hx₀ : [58].intercalate (x.splitOn 58) = x := List.intercalate_splitOn 58
  rw [← hx₀, hpieces, ← hpieces', List.intercalate_splitOn]

end Ipv6

/-! ## The loop -/

/-- What has been printed of some groups: no zeros as long as there is no `::`. -/
inductive Printed : List ℕ → Ipv6Printer → Prop
  | plain (front : List ℕ) (z : ℕ) : (∀ g ∈ front, g ≠ 0) →
      Printed (front ++ List.replicate z 0) ⟨[58].intercalate (front.map hexadecimal), false⟩
  | compressed (front : List ℕ) (z : ℕ) (back : List ℕ) : 0 < z → back ≠ [] →
      Printed (front ++ List.replicate z 0 ++ back)
        ⟨[58].intercalate (front.map hexadecimal) ++ [58, 58] ++ [58].intercalate (back.map hexadecimal), true⟩

/-- A group behind others. -/
theorem intercalate_concat {gs : List ℕ} (hgs : gs ≠ []) (g : ℕ) : [58].intercalate ((gs ++ [g]).map hexadecimal) =
    [58].intercalate (gs.map hexadecimal) ++ [58] ++ hexadecimal g := by
  rw [List.map_append, List.map_singleton, List.intercalate_append (by simpa using hgs) (List.cons_ne_nil _ _),
    List.intercalate_singleton, List.append_assoc]

namespace SockaddrIn6

variable {a b : SockaddrIn6} {i k : ℕ} {printer : Ipv6Printer}

/-- A group is what is printed of two bytes. -/
theorem byteswap_word (a : SockaddrIn6) (i : ℕ) : byteswapOnLittleEndian 2 (a.word i) = a.group i := by
  have hlow := (a.addr.toList.getD (2 * i) 0).toNat_lt
  have hhigh := (a.addr.toList.getD (2 * i + 1) 0).toNat_lt
  have hword : a.word i =
      (a.addr.toList.getD (2 * i) 0).toNat + 256 * (a.addr.toList.getD (2 * i + 1) 0).toNat := rfl
  rw [IPAddress.byteswap_two (by omega), hword, group]
  omega

/-- The two bytes are zero when the group is. -/
theorem word_eq_zero (a : SockaddrIn6) (i : ℕ) : a.word i = 0 ↔ a.group i = 0 := by
  have hword : a.word i =
      (a.addr.toList.getD (2 * i) 0).toNat + 256 * (a.addr.toList.getD (2 * i + 1) 0).toNat := rfl
  rw [hword, group]
  omega

/-- A group has 16 bits. -/
theorem group_lt (a : SockaddrIn6) (i : ℕ) : a.group i < 65536 := by
  have hlow := (a.addr.toList.getD (2 * i) 0).toNat_lt
  have hhigh := (a.addr.toList.getD (2 * i + 1) 0).toNat_lt
  unfold group
  omega

/-- The groups that are followed by zeros. -/
theorem last_group {front : List ℕ} {z : ℕ} (hfront : ∀ g ∈ front, g ≠ 0)
    (h : (List.range k).map a.group = front ++ List.replicate z 0) : (k ≠ 0 ∧ a.group (k - 1) = 0) ↔ 0 < z := by
  cases k with
  | zero =>
    obtain ⟨_, hz⟩ := List.append_eq_nil_iff.mp h.symm
    obtain rfl : z = 0 := by simpa using hz
    simp
  | succ k =>
    rw [List.range_succ, List.map_append, List.map_singleton] at h
    cases z with
    | zero =>
      rw [List.replicate_zero, List.append_nil] at h
      refine iff_of_false (fun hlast => ?_) (lt_irrefl 0)
      exact hfront (a.group k) (h ▸ List.mem_append_right _ (List.mem_singleton_self _)) hlast.2
    | succ z =>
      rw [List.replicate_succ', ← List.append_assoc] at h
      obtain ⟨_, hlast⟩ := List.append_inj' h rfl
      exact iff_of_true ⟨Nat.succ_ne_zero k, (List.cons_eq_cons.mp hlast).1⟩ (Nat.succ_pos z)

/-- One round prints one more group. -/
theorem insertGroup_printed (h : Printed ((List.range k).map a.group) printer) :
    Printed ((List.range (k + 1)).map a.group) (a.insertGroup printer k) := by
  rw [List.range_succ, List.map_append, List.map_singleton]
  generalize hgs : (List.range k).map a.group = gs at h ⊢
  have hlen : gs.length = k := by
    rw [← hgs, List.length_map, List.length_range]
  unfold insertGroup
  simp only [byteswap_word, word_eq_zero]
  cases h with
  | plain front z hfront =>
    have hlast := last_group hfront hgs
    by_cases hzero : a.group k = 0
    · rw [if_pos ⟨hzero, rfl⟩, hzero, List.append_assoc, ← List.replicate_succ']
      exact .plain front (z + 1) hfront
    · rw [if_neg (fun hskip => hzero hskip.1)]
      by_cases hz : 0 < z
      · obtain ⟨hk, hprevious⟩ := hlast.mpr hz
        dsimp only
        rw [if_pos hk, if_pos ⟨hk, hprevious, rfl⟩]
        have hprinted := Printed.compressed front z [a.group k] hz (List.cons_ne_nil _ _)
        simpa using hprinted
      · obtain rfl : z = 0 := Nat.eq_zero_of_not_pos hz
        have hsecond : ¬ (k ≠ 0 ∧ a.group (k - 1) = 0 ∧ false = false) :=
          fun hcase => lt_irrefl 0 (hlast.mp ⟨hcase.1, hcase.2.1⟩)
        dsimp only
        rw [if_neg hsecond, List.replicate_zero, List.append_nil]
        have hprinted := Printed.plain (front ++ [a.group k]) 0
          (List.forall_mem_append.mpr ⟨hfront, List.forall_mem_singleton.mpr hzero⟩)
        rw [List.replicate_zero, List.append_nil] at hprinted
        have hlen' : front.length = k := by simpa using hlen
        by_cases hk : k = 0
        · subst hk
          obtain rfl := List.eq_nil_of_length_eq_zero hlen'
          simpa using hprinted
        · have hne : front ≠ [] := by
            rintro rfl
            exact hk hlen'.symm
          rw [if_pos hk]
          rwa [intercalate_concat hne] at hprinted
  | compressed front z back hz hback =>
    have hk : k ≠ 0 := by
      rw [← hlen]
      simp [hback]
    dsimp only
    rw [if_neg (by simp), if_pos hk, if_neg (by simp)]
    have hprinted := Printed.compressed front z (back ++ [a.group k]) hz (by simp)
    rw [intercalate_concat hback] at hprinted
    simpa only [List.append_assoc] using hprinted

/-- All rounds. -/
theorem foldl_insertGroup (a : SockaddrIn6) (k : ℕ) :
    Printed ((List.range k).map a.group) ((List.range k).foldl a.insertGroup ⟨[], false⟩) := by
  induction k with
  | zero => exact .plain [] 0 (by simp)
  | succ k ih =>
    have hnext := insertGroup_printed ih
    rwa [List.range_succ, List.foldl_append, ← List.range_succ]

/-- What is printed is an address of the grammar, and stands for the groups. -/
theorem exists_reading (a : SockaddrIn6) :
    ∃ v : Ipv6, v.Derives Rfc3986.decOctet ∧ v.text = a.insertGroups ∧ v.groups = a.groups := by
  have hprinted := foldl_insertGroup a 8
  have hlt : ∀ g ∈ a.groups, g < 65536 := by
    intro g hg
    obtain ⟨i, _, rfl⟩ := List.mem_map.mp hg
    exact a.group_lt i
  have hlen : a.groups.length = 8 := by
    rw [groups, List.length_map, List.length_range]
  unfold insertGroups
  simp only [word_eq_zero]
  generalize (List.range 8).foldl a.insertGroup ⟨[], false⟩ = printer at hprinted ⊢
  change Printed a.groups printer at hprinted
  generalize hgs : a.groups = gs at hprinted hlen hlt ⊢
  cases hprinted with
  | plain front z hfront =>
    have hlast := last_group hfront hgs
    have hltFront := fun g hg => hlt g (List.mem_append_left _ hg)
    rw [List.length_append, List.length_replicate] at hlen
    by_cases hz : 0 < z
    · have hcount : front.length + ([] : List ℕ).length ≤ 7 := by
        rw [List.length_nil]
        omega
      have hmissing : 8 - front.length - ([] : List ℕ).length = z := by
        rw [List.length_nil]
        omega
      refine ⟨.ofGroups (some front) [], Ipv6.ofGroups_derives (by simpa using hltFront) (by simp) hcount, ?_, ?_⟩
      · rw [if_pos ⟨rfl, (hlast.mpr hz).2⟩]
        exact List.append_nil _
      · rw [Ipv6.groups_ofGroups, Option.elim_some, hmissing, List.append_nil]
    · obtain rfl : z = 0 := Nat.eq_zero_of_not_pos hz
      refine ⟨.ofGroups none front, Ipv6.ofGroups_derives (by simp) hltFront hlen, ?_, ?_⟩
      · rw [if_neg fun hcase => lt_irrefl 0 (hlast.mp ⟨by decide, hcase.2⟩), Ipv6.text_ofGroups]
        rfl
      · rw [Ipv6.groups_ofGroups, List.replicate_zero, List.append_nil]
        rfl
  | compressed front z back hz hback =>
    have hltFront := fun g hg => hlt g (List.mem_append_left _ (List.mem_append_left _ hg))
    have hltBack := fun g hg => hlt g (List.mem_append_right _ hg)
    rw [List.length_append, List.length_append, List.length_replicate] at hlen
    have hcount : front.length + back.length ≤ 7 := by omega
    have hmissing : 8 - front.length - back.length = z := by omega
    refine ⟨.ofGroups (some front) back, Ipv6.ofGroups_derives (by simpa using hltFront) hltBack hcount, ?_, ?_⟩
    · rw [if_neg (by simp), Ipv6.text_ofGroups]
      rfl
    · rw [Ipv6.groups_ofGroups, Option.elim_some, hmissing]

/-- The two bytes of a group. -/
theorem bytes_of_group (h : a.group i = b.group i) :
    a.addr.toList.getD (2 * i) 0 = b.addr.toList.getD (2 * i) 0 ∧
      a.addr.toList.getD (2 * i + 1) 0 = b.addr.toList.getD (2 * i + 1) 0 := by
  have hlow := (a.addr.toList.getD (2 * i + 1) 0).toNat_lt
  have hlow' := (b.addr.toList.getD (2 * i + 1) 0).toNat_lt
  unfold group at h
  constructor
  · refine UInt8.toNat_inj.mp ?_
    omega
  · refine UInt8.toNat_inj.mp ?_
    omega

/-- The groups determine the address. -/
theorem addr_eq_of_groups (h : a.groups = b.groups) : a.addr = b.addr := by
  have hgroup : ∀ i < 8, a.group i = b.group i := by
    intro i hi
    exact List.map_inj_left.mp h i (List.mem_range.mpr hi)
  refine Vector.ext fun j hj => ?_
  have hget : ∀ c : SockaddrIn6, c.addr[j] = c.addr.toList.getD j 0 := by
    intro c
    rw [List.getD_eq_getElem _ _ (by simpa using hj)]
    rfl
  obtain ⟨heven, hodd⟩ := bytes_of_group (hgroup (j / 2) (by omega))
  rw [hget, hget]
  rcases Nat.mod_two_eq_zero_or_one j with hj | hj
  · have hindex : 2 * (j / 2) = j := by omega
    rwa [hindex] at heven
  · have hindex : 2 * (j / 2) + 1 = j := by omega
    rwa [hindex] at hodd

/-- The port is what is printed. -/
theorem port_eq (h : byteswapOnLittleEndian 2 a.port.toNat = byteswapOnLittleEndian 2 b.port.toNat) :
    a.port = b.port := by
  have ha := a.port.toNat_lt
  have hb := b.port.toNat_lt
  rw [IPAddress.byteswap_two ha, IPAddress.byteswap_two hb] at h
  refine UInt16.toNat_inj.mp ?_
  omega

/-- An address is printed as a text that the grammar of IPv6 addresses reads in one way, as the eight groups of the
address, and that has at most one `::`. What is printed determines address and port. -/
theorem insert_reading (a : SockaddrIn6) :
    (∃ v : Ipv6, v.Derives Rfc3986.decOctet ∧ v.text = a.insertGroups ∧ v.groups = a.groups) ∧
      (∀ v : Ipv6, v.Derives Rfc3986.decOctet → v.text = a.insertGroups → v.groups = a.groups) ∧
      (∀ x y x' y', a.insertGroups = x ++ [58, 58] ++ y → a.insertGroups = x' ++ [58, 58] ++ y' → x = x') ∧
      ∀ b : SockaddrIn6, a.toString = b.toString → a.addr = b.addr ∧ a.port = b.port := by
  have hoctet : Rfc3986.decOctet ≤ avoiding [58, 46] := octets_le.1.trans (avoiding_mono (by simp))
  have hclose : ∀ c : SockaddrIn6, 93 ∉ c.insertGroups := by
    intro c hmem
    obtain ⟨v, hv, htext, _⟩ := exists_reading c
    have hstop : Rfc3986.decOctet ≤ avoiding [93] := octets_le.1.trans (avoiding_mono (by simp))
    rw [← htext] at hmem
    exact hv.text_avoids hstop rfl (by decide) (by decide) 93 hmem (List.mem_singleton_self 93)
  obtain ⟨v, hv, htext, hgroups⟩ := exists_reading a
  refine ⟨⟨v, hv, htext, hgroups⟩, fun v' hv' htext' => ?_, fun x y x' y' hx hx' => ?_, fun b heq => ?_⟩
  · rw [hv'.unique hv hoctet (htext'.trans htext.symm), hgroups]
  · rw [← htext] at hx hx'
    exact hv.elision_unique (hoctet.trans (avoiding_mono (by simp))) hx hx'
  · simp only [toString, List.append_assoc, List.cons_append, List.cons.injEq, true_and] at heq
    obtain ⟨hinside, hbehind⟩ := List.cut_unique (hclose a) (hclose b) heq
    obtain ⟨v', hv', htext', hgroups'⟩ := exists_reading b
    have hsame : v' = v := hv'.unique hv hoctet (by rw [htext', htext, hinside])
    refine ⟨addr_eq_of_groups ?_, port_eq ?_⟩
    · rw [← hgroups, ← hgroups', hsame]
    · have hport := congrArg Uri.decimalValue (List.cons_eq_cons.mp hbehind).2
      simpa only [List.nil_append, Uri.decimalValue_decimal] using hport

/-- The address with one group of zeros at its beginning and one at its end. -/
example : (SockaddrIn6.new #v[0, 0, 0, 1, 0, 2, 0, 3, 0, 4, 0, 5, 0x1a, 6, 0, 0] 80).toString =
    asciiText "[::1:2:3:4:5:1a06:0]:80".toList := by
  decide +kernel

end SockaddrIn6

end Bobliew
