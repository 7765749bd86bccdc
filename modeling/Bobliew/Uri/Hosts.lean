import Bobliew.Lib.Separated
import Bobliew.Uri.Actions

/-!
# Hosts

The hosts of the grammar as texts of their groups and octets, for RFC 3986 and for the machine. An IPv6 address has
eight groups, or a `::` and at most seven; an IPv4 address at its end stands for two of them. The machine takes a
`::` at the beginning, and otherwise one that stands for exactly one group.
-/

namespace Bobliew

open Ragel Http

/-- The octets in which the machine takes the byte 2 for the first digit of those from 200 to 249. -/
def byteOctet : Language UInt8 :=
  Rfc3986.bytes digit + Rfc3986.bytes (.range 49 57) * Rfc3986.bytes digit +
    Rfc3986.chr '1' * (Rfc3986.bytes digit * Rfc3986.bytes digit) +
    Rfc3986.bytes (.range 2 2) * (Rfc3986.bytes (.range 48 52) * Rfc3986.bytes digit) +
    Rfc3986.chr '2' * (Rfc3986.chr '5' * Rfc3986.bytes (.range 48 53))

/-- The groups of an IPv6 address in front of its `::`, if it has one, those behind it, and the octets of the IPv4
address at its end. -/
structure Ipv6 where
  front : Option (List Bytes)
  back : List Bytes
  quad : Option (List Bytes)

namespace Ipv6

/-- What stands between the colons behind the `::`. -/
def fields (v : Ipv6) : List Bytes := v.back ++ v.quad.elim [] fun octets => [[46].intercalate octets]

/-- The text of an address. -/
def text (v : Ipv6) : Bytes :=
  v.front.elim [] (fun groups => [58].intercalate groups ++ [58, 58]) ++ [58].intercalate v.fields

/-- The number of groups behind the `::`. -/
def size (v : Ipv6) : ℕ := v.back.length + if v.quad.isSome then 2 else 0

/-- The groups and octets are those of the grammar, and there are as many as an address has. -/
structure Derives (octet : Language UInt8) (v : Ipv6) : Prop where
  front : ∀ groups ∈ v.front, ∀ g ∈ groups, g ∈ Rfc3986.h16
  back : ∀ g ∈ v.back, g ∈ Rfc3986.h16
  quad : ∀ octets ∈ v.quad, octets.length = 4 ∧ ∀ o ∈ octets, o ∈ octet
  count : v.front.elim (v.size = 8) fun groups => groups.length + v.size ≤ 7

/-- The `::` stands at the beginning or for exactly one group. -/
def Full (v : Ipv6) : Prop := ∀ groups ∈ v.front, groups = [] ∨ groups.length + v.size = 7

/-- None of the octets is one from 200 to 249. -/
def Low (v : Ipv6) : Prop :=
  ∀ octets ∈ v.quad, ∀ o ∈ octets, ∀ c d, o = [50, c, d] → (ByteSet.range 48 52).has c = false

end Ipv6

namespace Rfc3986

variable {w : Bytes} {n k : ℕ} {octet l : Language UInt8}

/-! ## Groups between colons -/

/-- Some groups in front of a word. -/
theorem mem_group_pow : w ∈ group ^ n * l ↔
    ∃ gs : List Bytes, gs.length = n ∧ (∀ g ∈ gs, g ∈ h16) ∧ ∃ t ∈ l, w = [58].intercalate (gs ++ [t]) := by
  induction n generalizing w with
  | zero =>
    rw [pow_zero, one_mul]
    constructor
    · exact fun hw => ⟨[], rfl, by simp, w, hw, by simp⟩
    · rintro ⟨gs, hlen, _, t, ht, rfl⟩
      obtain rfl := List.eq_nil_of_length_eq_zero hlen
      simpa using ht
  | succ n ih =>
    rw [pow_succ', mul_assoc, Language.mem_mul]
    constructor
    · rintro ⟨u, hu, v, hv, rfl⟩
      obtain ⟨g, hg, c, hc, rfl⟩ := Language.mem_mul.mp hu
      obtain rfl := (mem_chr (by decide)).mp hc
      obtain ⟨gs, rfl, hgs, t, ht, rfl⟩ := ih.mp hv
      refine ⟨g :: gs, rfl, List.forall_mem_cons.mpr ⟨hg, hgs⟩, t, ht, ?_⟩
      rw [List.cons_append, List.intercalate_cons_of_ne_nil (by simp)]
      rfl
    · rintro ⟨gs, hlen, hgs, t, ht, rfl⟩
      obtain ⟨g, gs, rfl⟩ := List.exists_cons_of_length_eq_add_one hlen
      obtain ⟨hg, hgs⟩ := List.forall_mem_cons.mp hgs
      refine ⟨g ++ [58], Language.mem_mul.mpr ⟨g, hg, [58], (mem_chr (by decide)).mpr rfl, rfl⟩, _,
        ih.mpr ⟨gs, Nat.succ.inj hlen, hgs, t, ht, rfl⟩, ?_⟩
      rw [List.cons_append, List.intercalate_cons_of_ne_nil (by simp)]

/-- Some groups. -/
theorem mem_group_pow_h16 : w ∈ group ^ n * h16 ↔
    ∃ gs : List Bytes, gs.length = n + 1 ∧ (∀ g ∈ gs, g ∈ h16) ∧ w = [58].intercalate gs := by
  rw [mem_group_pow]
  constructor
  · rintro ⟨gs, rfl, hgs, t, ht, rfl⟩
    exact ⟨gs ++ [t], by simp, List.forall_mem_append.mpr ⟨hgs, List.forall_mem_singleton.mpr ht⟩, rfl⟩
  · rintro ⟨gs, hlen, hgs, rfl⟩
    rcases List.eq_nil_or_concat' gs with rfl | ⟨gs, t, rfl⟩
    · cases hlen
    · obtain ⟨hgs, ht⟩ := List.forall_mem_append.mp hgs
      exact ⟨gs, by simpa using hlen, hgs, t, ht t (List.mem_singleton_self t), rfl⟩

/-- At most some repetitions. -/
theorem mem_upTo : w ∈ upTo l n ↔ ∃ i ≤ n, w ∈ l ^ i := by
  induction n generalizing w with
  | zero => simp [upTo]
  | succ n ih =>
    rw [upTo, opt, Language.mem_add, Language.mem_mul]
    constructor
    · rintro (⟨u, hu, v, hv, rfl⟩ | hw)
      · obtain ⟨i, hi, hv⟩ := ih.mp hv
        refine ⟨i + 1, Nat.succ_le_succ hi, ?_⟩
        rw [pow_succ']
        exact Language.mem_mul.mpr ⟨u, hu, v, hv, rfl⟩
      · exact ⟨0, Nat.zero_le _, by rwa [pow_zero]⟩
    · rintro ⟨i, hi, hw⟩
      cases i with
      | zero =>
        rw [pow_zero] at hw
        exact .inr hw
      | succ i =>
        rw [pow_succ'] at hw
        obtain ⟨u, hu, v, hv, rfl⟩ := Language.mem_mul.mp hw
        exact .inl ⟨u, hu, v, ih.mpr ⟨i, Nat.le_of_succ_le_succ hi, hv⟩, rfl⟩

/-- At most some groups. -/
theorem mem_opt_upTo_group : w ∈ opt (upTo group n * h16) ↔
    ∃ gs : List Bytes, gs.length ≤ n + 1 ∧ (∀ g ∈ gs, g ∈ h16) ∧ w = [58].intercalate gs := by
  have hupTo : w ∈ upTo group n * h16 ↔ ∃ i ≤ n, w ∈ group ^ i * h16 := by
    simp only [Language.mem_mul, mem_upTo]
    constructor
    · rintro ⟨u, ⟨i, hi, hu⟩, v, hv, rfl⟩
      exact ⟨i, hi, u, hu, v, hv, rfl⟩
    · rintro ⟨i, hi, u, hu, v, hv, rfl⟩
      exact ⟨u, ⟨i, hi, hu⟩, v, hv, rfl⟩
  rw [opt, Language.mem_add, hupTo, Language.mem_one]
  simp only [mem_group_pow_h16]
  constructor
  · rintro (⟨i, hi, gs, hlen, hgs, rfl⟩ | rfl)
    · exact ⟨gs, by omega, hgs, rfl⟩
    · exact ⟨[], Nat.zero_le _, by simp, rfl⟩
  · rintro ⟨gs, hlen, hgs, rfl⟩
    cases gs with
    | nil => exact .inr rfl
    | cons g gs => exact .inl ⟨gs.length, Nat.le_of_succ_le_succ hlen, g :: gs, rfl, hgs, rfl⟩

/-- None or some groups. -/
theorem mem_opt_group_pow : w ∈ opt (group ^ n * h16) ↔
    ∃ gs : List Bytes, (gs = [] ∨ gs.length = n + 1) ∧ (∀ g ∈ gs, g ∈ h16) ∧ w = [58].intercalate gs := by
  rw [opt, Language.mem_add, mem_group_pow_h16, Language.mem_one]
  constructor
  · rintro (⟨gs, hlen, hgs, rfl⟩ | rfl)
    · exact ⟨gs, .inr hlen, hgs, rfl⟩
    · exact ⟨[], .inl rfl, by simp, rfl⟩
  · rintro ⟨gs, rfl | hlen, hgs, rfl⟩
    · exact .inr rfl
    · exact .inl ⟨gs, hlen, hgs, rfl⟩

/-- Four octets. -/
theorem mem_ipv4Address : w ∈ ipv4Address octet ↔
    ∃ octets : List Bytes, (octets.length = 4 ∧ ∀ o ∈ octets, o ∈ octet) ∧ w = [46].intercalate octets := by
  have hdot : ∀ {l : Language UInt8} {w : Bytes}, w ∈ octet * (chr '.' * l) ↔
      ∃ o ∈ octet, ∃ v ∈ l, w = o ++ 46 :: v := by
    intro l w
    rw [Language.mem_mul]
    constructor
    · rintro ⟨o, ho, t, ht, rfl⟩
      obtain ⟨v, hv, rfl⟩ := (mem_chr_mul (by decide)).mp ht
      exact ⟨o, ho, v, hv, rfl⟩
    · rintro ⟨o, ho, v, hv, rfl⟩
      exact ⟨o, ho, _, (mem_chr_mul (by decide)).mpr ⟨v, hv, rfl⟩, rfl⟩
  simp only [ipv4Address, hdot]
  constructor
  · rintro ⟨a, ha, _, ⟨b, hb, _, ⟨c, hc, d, hd, rfl⟩, rfl⟩, rfl⟩
    exact ⟨[a, b, c, d], ⟨rfl, by simp [ha, hb, hc, hd]⟩, by simp [List.intercalate_cons_cons]⟩
  · rintro ⟨octets, ⟨hlen, hmem⟩, rfl⟩
    obtain ⟨a, b, c, d, rfl⟩ : ∃ a b c d, octets = [a, b, c, d] := List.length_eq_four.mp hlen
    simp only [List.forall_mem_cons] at hmem
    exact ⟨a, hmem.1, _, ⟨b, hmem.2.1, _, ⟨c, hmem.2.2.1, d, hmem.2.2.2.1, rfl⟩, rfl⟩,
      by simp [List.intercalate_cons_cons]⟩

/-! ## IPv6 addresses -/

/-- The texts behind a `::` with so many groups. -/
def behindElision (octet : Language UInt8) (n : ℕ) : Language UInt8 :=
  {w | ∃ v : Ipv6, v.front = none ∧ (∀ g ∈ v.back, g ∈ h16) ∧
    (∀ octets ∈ v.quad, octets.length = 4 ∧ ∀ o ∈ octets, o ∈ octet) ∧ v.size = n ∧ w = v.text}

/-- Groups in front of the last 32 bits. -/
theorem group_pow_mul_ls32 : group ^ n * ls32 octet = behindElision octet (n + 2) := by
  ext w
  rw [ls32, mul_add, Language.mem_add, ← mul_assoc, ← pow_succ, mem_group_pow_h16, mem_group_pow]
  constructor
  · rintro (⟨gs, hlen, hgs, rfl⟩ | ⟨gs, rfl, hgs, t, ht, rfl⟩)
    · exact ⟨⟨none, gs, none⟩, rfl, hgs, by simp, hlen, by simp [Ipv6.text, Ipv6.fields]⟩
    · obtain ⟨octets, hoctets, rfl⟩ := mem_ipv4Address.mp ht
      exact ⟨⟨none, gs, some octets⟩, rfl, hgs, by rintro _ ⟨⟩; exact hoctets, rfl, rfl⟩
  · rintro ⟨⟨_, back, quad⟩, rfl, hback, hquad, hsize, rfl⟩
    cases quad with
    | none => exact .inl ⟨back, hsize, hback, by simp [Ipv6.text, Ipv6.fields]⟩
    | some octets =>
      exact .inr ⟨back, Nat.add_right_cancel hsize, hback, _,
        mem_ipv4Address.mpr ⟨octets, hquad octets rfl, rfl⟩, rfl⟩

/-- One group. -/
theorem h16_eq : h16 = behindElision octet 1 := by
  ext w
  constructor
  · exact fun hw => ⟨⟨none, [w], none⟩, rfl, List.forall_mem_singleton.mpr hw, by simp, rfl,
    by simp [Ipv6.text, Ipv6.fields]⟩
  · rintro ⟨⟨_, back, quad⟩, rfl, hback, hquad, hsize, rfl⟩
    cases quad with
    | none =>
      obtain ⟨g, rfl⟩ := List.length_eq_one_iff.mp hsize
      simpa [Ipv6.text, Ipv6.fields] using hback g (List.mem_singleton_self g)
    | some octets => simp [Ipv6.size] at hsize

/-- No groups. -/
theorem one_eq : 1 = behindElision octet 0 := by
  ext w
  rw [Language.mem_one]
  constructor
  · rintro rfl
    exact ⟨⟨none, [], none⟩, rfl, by simp, by simp, rfl, by simp [Ipv6.text, Ipv6.fields]⟩
  · rintro ⟨⟨_, back, quad⟩, rfl, hback, hquad, hsize, rfl⟩
    cases quad with
    | none =>
      obtain rfl := List.eq_nil_of_length_eq_zero hsize
      rfl
    | some octets => simp [Ipv6.size] at hsize

/-- The forms of an address, with what they have in front of the `::`. -/
def ipv6Forms (front : ℕ → Language UInt8) (octet : Language UInt8) : Language UInt8 :=
  group ^ 6 * ls32 octet +
  elision * (group ^ 5 * ls32 octet) +
  front 0 * (elision * (group ^ 4 * ls32 octet)) +
  front 1 * (elision * (group ^ 3 * ls32 octet)) +
  front 2 * (elision * (group ^ 2 * ls32 octet)) +
  front 3 * (elision * (group * ls32 octet)) +
  front 4 * (elision * ls32 octet) +
  front 5 * (elision * h16) +
  front 6 * elision

/-- A text behind a `::`. -/
theorem mem_elision_mul {l : Language UInt8} : w ∈ elision * l ↔ ∃ v ∈ l, w = [58, 58] ++ v := by
  rw [elision, mul_assoc, mem_chr_mul (by decide)]
  constructor
  · rintro ⟨u, hu, rfl⟩
    obtain ⟨v, hv, rfl⟩ := (mem_chr_mul (by decide)).mp hu
    exact ⟨v, hv, rfl⟩
  · rintro ⟨v, hv, rfl⟩
    exact ⟨_, (mem_chr_mul (by decide)).mpr ⟨v, hv, rfl⟩, rfl⟩

/-- The forms by the number of groups behind the `::`. -/
theorem mem_ipv6Forms_iff {front : ℕ → Language UInt8} : w ∈ ipv6Forms front octet ↔
    (w ∈ behindElision octet 8 ∨ w ∈ elision * behindElision octet 7) ∨
      ∃ k ≤ 6, w ∈ front k * (elision * behindElision octet (6 - k)) := by
  have hlast : ls32 octet = behindElision octet 2 := by
    rw [← group_pow_mul_ls32, pow_zero, one_mul]
  have hthree : group * ls32 octet = behindElision octet 3 := by
    rw [← group_pow_mul_ls32, pow_one]
  have hsum : ipv6Forms front octet = behindElision octet 8 + elision * behindElision octet 7 +
      (front 0 * (elision * behindElision octet 6) + front 1 * (elision * behindElision octet 5) +
        front 2 * (elision * behindElision octet 4) + front 3 * (elision * behindElision octet 3) +
        front 4 * (elision * behindElision octet 2) + front 5 * (elision * behindElision octet 1) +
        front 6 * (elision * behindElision octet 0)) := by
    rw [ipv6Forms, group_pow_mul_ls32, group_pow_mul_ls32, group_pow_mul_ls32, group_pow_mul_ls32, group_pow_mul_ls32,
      hthree, hlast, ← h16_eq, ← one_eq, mul_one]
    simp only [add_assoc]
  rw [hsum, Language.mem_add, Language.mem_add]
  refine or_congr_right ?_
  simp only [Language.mem_add]
  constructor
  · rintro ((((((h | h) | h) | h) | h) | h) | h)
    · exact ⟨0, by omega, h⟩
    · exact ⟨1, by omega, h⟩
    · exact ⟨2, by omega, h⟩
    · exact ⟨3, by omega, h⟩
    · exact ⟨4, by omega, h⟩
    · exact ⟨5, by omega, h⟩
    · exact ⟨6, by omega, h⟩
  · rintro ⟨k, hk, h⟩
    interval_cases k
    · exact .inl (.inl (.inl (.inl (.inl (.inl h)))))
    · exact .inl (.inl (.inl (.inl (.inl (.inr h)))))
    · exact .inl (.inl (.inl (.inl (.inr h))))
    · exact .inl (.inl (.inl (.inr h)))
    · exact .inl (.inl (.inr h))
    · exact .inl (.inr h)
    · exact .inr h

section Fronts

variable {front : ℕ → Language UInt8} (allowed : ℕ → ℕ → Prop)
  (hfront : ∀ k w, w ∈ front k ↔
    ∃ gs : List Bytes, allowed k gs.length ∧ (∀ g ∈ gs, g ∈ h16) ∧ w = [58].intercalate gs)

include hfront

/-- Groups on both sides of the `::`. -/
theorem mem_front_mul {k i : ℕ} : w ∈ front k * (elision * behindElision octet i) ↔ ∃ v : Ipv6, v.text = w ∧
    (∀ g ∈ v.back, g ∈ h16) ∧ (∀ octets ∈ v.quad, octets.length = 4 ∧ ∀ o ∈ octets, o ∈ octet) ∧ v.size = i ∧
      ∃ groups, v.front = some groups ∧ allowed k groups.length ∧ ∀ g ∈ groups, g ∈ h16 := by
  rw [Language.mem_mul]
  constructor
  · rintro ⟨u, hu, t, ht, rfl⟩
    obtain ⟨gs, hallowed, hgs, rfl⟩ := (hfront k u).mp hu
    obtain ⟨_, ⟨v, hnone, hback, hquad, hsize, rfl⟩, rfl⟩ := mem_elision_mul.mp ht
    refine ⟨⟨some gs, v.back, v.quad⟩, ?_, hback, hquad, hsize, gs, rfl, hallowed, hgs⟩
    simp [Ipv6.text, Ipv6.fields, hnone]
  · rintro ⟨⟨_, back, quad⟩, rfl, hback, hquad, hsize, groups, rfl, hallowed, hgroups⟩
    refine ⟨_, (hfront k _).mpr ⟨groups, hallowed, hgroups, rfl⟩, _,
      mem_elision_mul.mpr ⟨_, ⟨⟨none, back, quad⟩, rfl, hback, hquad, hsize, rfl⟩, rfl⟩, ?_⟩
    simp [Ipv6.text, Ipv6.fields]

/-- An address of one of the forms. -/
theorem mem_ipv6Forms : w ∈ ipv6Forms front octet ↔ ∃ v : Ipv6, v.text = w ∧
    (∀ groups ∈ v.front, ∀ g ∈ groups, g ∈ h16) ∧ (∀ g ∈ v.back, g ∈ h16) ∧
    (∀ octets ∈ v.quad, octets.length = 4 ∧ ∀ o ∈ octets, o ∈ octet) ∧
    v.front.elim (v.size = 8) fun groups =>
      groups = [] ∧ v.size = 7 ∨ v.size ≤ 6 ∧ allowed (6 - v.size) groups.length := by
  rw [mem_ipv6Forms_iff, mem_elision_mul]
  simp only [mem_front_mul allowed hfront]
  constructor
  · rintro ((⟨v, hnone, hback, hquad, hsize, rfl⟩ | ⟨_, ⟨v, hnone, hback, hquad, hsize, rfl⟩, rfl⟩) |
      ⟨k, hk, v, rfl, hback, hquad, hsize, groups, hsome, hallowed, hgroups⟩)
    · refine ⟨v, rfl, by simp [hnone], hback, hquad, ?_⟩
      rw [hnone]
      exact hsize
    · refine ⟨⟨some [], v.back, v.quad⟩, ?_, by simp, hback, hquad, .inl ⟨rfl, hsize⟩⟩
      simp [Ipv6.text, Ipv6.fields, hnone]
    · refine ⟨v, rfl, fun gs hgs => ?_, hback, hquad, ?_⟩
      · rw [hsome] at hgs
        obtain rfl := Option.some.inj hgs
        exact hgroups
      · have hk' : 6 - v.size = k := by omega
        rw [hsome]
        exact .inr ⟨by omega, hk' ▸ hallowed⟩
  · rintro ⟨⟨front, back, quad⟩, rfl, hgroups, hback, hquad, hcount⟩
    cases front with
    | none => exact .inl (.inl ⟨⟨none, back, quad⟩, rfl, hback, hquad, hcount, rfl⟩)
    | some groups =>
      rcases hcount with ⟨rfl, hsize⟩ | ⟨hle, hallowed⟩
      · exact .inl (.inr ⟨_, ⟨⟨none, back, quad⟩, rfl, hback, hquad, hsize, rfl⟩, by simp [Ipv6.text, Ipv6.fields]⟩)
      · refine .inr ⟨_, Nat.sub_le 6 _, _, rfl, hback, hquad, ?_, groups, rfl, hallowed, hgroups groups rfl⟩
        omega

end Fronts

/-- The IPv6 addresses of the grammar. -/
theorem mem_ipv6Address : w ∈ ipv6Address octet ↔ ∃ v : Ipv6, v.Derives octet ∧ v.text = w := by
  have hforms : ipv6Address octet = ipv6Forms (fun k => opt (upTo group k * h16)) octet := by
    have hzero : upTo group 0 * h16 = h16 := one_mul _
    rw [ipv6Forms, hzero]
    rfl
  rw [hforms, mem_ipv6Forms (fun k n => n ≤ k + 1) fun k w => mem_opt_upTo_group]
  have hcount : ∀ v : Ipv6, (v.front.elim (v.size = 8) fun groups =>
      groups = [] ∧ v.size = 7 ∨ v.size ≤ 6 ∧ groups.length ≤ 6 - v.size + 1) ↔
      v.front.elim (v.size = 8) fun groups => groups.length + v.size ≤ 7 := by
    intro v
    cases v.front with
    | none => rfl
    | some groups =>
      simp only [Option.elim_some, ← List.length_eq_zero_iff]
      omega
  constructor
  · rintro ⟨v, rfl, hfront, hback, hquad, hsize⟩
    exact ⟨v, ⟨hfront, hback, hquad, (hcount v).mp hsize⟩, rfl⟩
  · rintro ⟨v, ⟨hfront, hback, hquad, hsize⟩, rfl⟩
    exact ⟨v, rfl, hfront, hback, hquad, (hcount v).mpr hsize⟩

end Rfc3986

namespace UriGrammar

open Rfc3986 (bytes)

/-- `dec_octet`. -/
theorem lang_decOctet : decOctet.lang = byteOctet := by
  have hnames : decOctet.lang = bytes digit + (bytes (.range 49 57) * bytes digit +
      (Rfc3986.chr '1' * (bytes digit * bytes digit) +
        (bytes (.range 2 2) * (bytes (.range 48 52) * bytes digit) +
          Rfc3986.chr '2' * (Rfc3986.chr '5' * bytes (.range 48 53))))) := rfl
  rw [hnames, byteOctet, add_assoc, add_assoc, add_assoc]

/-- `IPv4address`. -/
theorem lang_ipv4Address : ipv4Address.lang = Rfc3986.ipv4Address byteOctet := by
  rw [← lang_decOctet]
  rfl

/-- `(h16 ":"){n}` in front of an expression. -/
theorem lang_groups (n : ℕ) (after : Expr) : (groups n after).lang = Rfc3986.group ^ n * after.lang := by
  unfold groups
  induction n with
  | zero => rw [pow_zero, one_mul]; rfl
  | succ n ih =>
    rw [pow_succ', mul_assoc, ← ih]
    rfl

/-- `ls32`. -/
theorem lang_ls32 : ls32.lang = Rfc3986.ls32 byteOctet := by
  have hnames : ls32.lang = Rfc3986.h16 * (Rfc3986.chr ':' * Rfc3986.h16) + ipv4Address.lang := rfl
  rw [hnames, lang_ipv4Address, ← mul_assoc]
  rfl

/-- `((h16 ":"){n} h16)? "::"` in front of an expression. -/
theorem lang_elided (n : ℕ) (after : Expr) : (elided n after).lang =
    Rfc3986.opt (Rfc3986.group ^ n * Rfc3986.h16) * (Rfc3986.elision * after.lang) := by
  have hnames : (elided n after).lang =
      Rfc3986.opt (groups n h16).lang * (Rfc3986.chr ':' * (Rfc3986.chr ':' * after.lang)) := rfl
  rw [hnames, lang_groups, ← mul_assoc (Rfc3986.chr ':')]
  rfl

/-- The IPv6 addresses of the machine. -/
theorem mem_ipv6Address {w : Bytes} : w ∈ ipv6Address.lang ↔
    ∃ v : Ipv6, v.Derives byteOctet ∧ v.Full ∧ v.text = w := by
  have hforms : ipv6Address.lang =
      Rfc3986.ipv6Forms (fun k => Rfc3986.opt (Rfc3986.group ^ k * Rfc3986.h16)) byteOctet := by
    have hnames : ipv6Address.lang =
      (groups 6 ls32).lang + (Rfc3986.chr ':' * (Rfc3986.chr ':' * (groups 5 ls32).lang) +
        ((elided 0 (groups 4 ls32)).lang + ((elided 1 (groups 3 ls32)).lang + ((elided 2 (groups 2 ls32)).lang +
          ((elided 3 (groups 1 ls32)).lang + ((elided 4 ls32).lang + ((elided 5 h16).lang + (elided 6 .empty).lang))))))) :=
      rfl
    have hempty : (Rx.empty : Expr).lang = 1 := rfl
    have hh16 : h16.lang = Rfc3986.h16 := rfl
    have helision : ∀ l, Rfc3986.chr ':' * (Rfc3986.chr ':' * l) = Rfc3986.elision * l :=
      fun l => (mul_assoc _ _ l).symm
    rw [hnames, Rfc3986.ipv6Forms]
    simp only [lang_elided, lang_groups, lang_ls32, hempty, hh16, mul_one, pow_one, helision, ← add_assoc]
  rw [hforms, Rfc3986.mem_ipv6Forms (fun k n => n = 0 ∨ n = k + 1) fun k w => by
    simpa only [List.length_eq_zero_iff] using Rfc3986.mem_opt_group_pow]
  have hcount : ∀ v : Ipv6, (v.front.elim (v.size = 8) fun groups =>
      groups = [] ∧ v.size = 7 ∨ v.size ≤ 6 ∧ (groups.length = 0 ∨ groups.length = 6 - v.size + 1)) ↔
      (v.front.elim (v.size = 8) fun groups => groups.length + v.size ≤ 7) ∧ v.Full := by
    intro v
    unfold Ipv6.Full
    cases v.front with
    | none => simp
    | some groups =>
      simp only [Option.elim_some, Option.mem_some_iff, forall_eq', ← List.length_eq_zero_iff]
      omega
  constructor
  · rintro ⟨v, rfl, hfront, hback, hquad, hsize⟩
    obtain ⟨hsize, hfull⟩ := (hcount v).mp hsize
    exact ⟨v, ⟨hfront, hback, hquad, hsize⟩, hfull, rfl⟩
  · rintro ⟨v, ⟨hfront, hback, hquad, hsize⟩, hfull, rfl⟩
    exact ⟨v, rfl, hfront, hback, hquad, (hcount v).mpr ⟨hsize, hfull⟩⟩

end UriGrammar

/-! ## One reading -/

/-- A group is not empty. -/
theorem nil_not_mem_h16 : [] ∉ Rfc3986.h16 := by
  rintro h
  obtain ⟨x, ⟨c, _, rfl⟩, y, _, heq⟩ := Language.mem_mul.mp h
  cases heq

/-- Groups consist of hexadecimal digits. -/
theorem h16_le {stops : List UInt8} (h : stops.all (fun c => !xdigit.has c) = true) :
    Rfc3986.h16 ≤ avoiding stops := by
  have hdigit : Rfc3986.bytes xdigit ≤ avoiding stops := Rfc3986.bytes_le_avoiding h
  have hopt : ∀ n, Rfc3986.upTo (Rfc3986.bytes xdigit) n ≤ avoiding stops := by
    intro n
    induction n with
    | zero => exact Rfc3986.one_le_avoiding
    | succ n ih => exact Rfc3986.opt_le_avoiding (Rfc3986.mul_le_avoiding hdigit ih)
  exact Rfc3986.mul_le_avoiding hdigit (hopt 3)

namespace Ipv6

variable {octet : Language UInt8} {v v' : Ipv6}

/-- What stands between all colons of an address. -/
def pieces (v : Ipv6) : List Bytes :=
  v.front.elim v.fields fun groups =>
    (if groups = [] then [[]] else groups) ++ [] :: if v.fields = [] then [[]] else v.fields

/-- The text is that of its pieces. -/
theorem text_eq (v : Ipv6) : v.text = [58].intercalate v.pieces := by
  unfold text pieces
  cases v.front with
  | none => rfl
  | some groups =>
    have hback : [58].intercalate (if v.fields = [] then [[]] else v.fields) = [58].intercalate v.fields := by
      split
      · rename_i h
        rw [h]
        rfl
      · rfl
    have hfront : [58].intercalate (if groups = [] then [[]] else groups) = [58].intercalate groups := by
      split
      · rename_i h
        rw [h]
        rfl
      · rfl
    have hne : (if v.fields = [] then [[]] else v.fields) ≠ [] := by
      split
      · exact List.cons_ne_nil _ _
      · assumption
    have hne' : (if groups = [] then [[]] else groups) ≠ [] := by
      split
      · exact List.cons_ne_nil _ _
      · assumption
    rw [Option.elim_some, Option.elim_some, List.intercalate_append hne' (List.cons_ne_nil _ _),
      List.intercalate_cons_of_ne_nil hne, hfront, hback]
    simp

/-- The pieces behind the `::` are not empty, and contain no colon. -/
theorem Derives.fields_mem (h : v.Derives octet) (hoctet : octet ≤ avoiding [58]) :
    ∀ x ∈ v.fields, x ≠ [] ∧ x ∈ avoiding [58] := by
  intro x hx
  rcases List.mem_append.mp hx with hx | hx
  · have hmem := h.back x hx
    exact ⟨fun hnil => nil_not_mem_h16 (hnil ▸ hmem), h16_le rfl hmem⟩
  · cases hquad : v.quad with
    | none =>
      rw [hquad] at hx
      cases hx
    | some octets =>
      rw [hquad] at hx
      obtain rfl := List.mem_singleton.mp hx
      obtain ⟨hlen, hmem⟩ := h.quad octets hquad
      obtain ⟨a, b, c, d, rfl⟩ := List.length_eq_four.mp hlen
      refine ⟨by simp [List.intercalate_cons_cons], fun c hc => ?_⟩
      rcases List.mem_of_mem_intercalate hc with hc | ⟨y, hy, hc⟩
      · rw [List.mem_singleton.mp hc]
        decide
      · exact hoctet (hmem y hy) c hc

/-- The pieces are found again in the text. -/
theorem Derives.splitOn_text (h : v.Derives octet) (hoctet : octet ≤ avoiding [58]) :
    v.text.splitOn 58 = v.pieces := by
  have hfields := h.fields_mem hoctet
  rw [text_eq]
  refine List.splitOn_intercalate 58 (fun x hx hc => ?_) ?_
  · have hpiece : x = [] ∨ x ∈ avoiding [58] := by
      unfold pieces at hx
      cases hfront : v.front with
      | none =>
        rw [hfront] at hx
        exact .inr (hfields x hx).2
      | some groups =>
        rw [hfront, Option.elim_some, List.mem_append, List.mem_cons] at hx
        rcases hx with hx | hx | hx
        · split at hx
          · exact .inl (List.mem_singleton.mp hx)
          · exact .inr (h16_le rfl (h.front groups hfront x hx))
        · exact .inl hx
        · split at hx
          · exact .inl (List.mem_singleton.mp hx)
          · exact .inr (hfields x hx).2
    rcases hpiece with rfl | hpiece
    · cases hc
    · exact hpiece 58 hc (List.mem_singleton_self _)
  · unfold pieces
    cases hfront : v.front with
    | none =>
      have hcount := h.count
      rw [hfront, Option.elim_none, size] at hcount
      rw [Option.elim_none, fields]
      intro hnil
      obtain ⟨hback, hquad⟩ := List.append_eq_nil_iff.mp hnil
      cases hq : v.quad with
      | none => simp [hback, hq] at hcount
      | some octets =>
        rw [hq] at hquad
        cases hquad
    | some groups => simp

/-- The groups and the octets are found again in what stands behind the `::`. -/
theorem Derives.fields_unique (h : v.Derives octet) (h' : v'.Derives octet) (hoctet : octet ≤ avoiding [46])
    (heq : v.fields = v'.fields) : v.back = v'.back ∧ v.quad = v'.quad := by
  have hdot : ∀ {u u' : Ipv6}, u.Derives octet → u'.Derives octet → u.quad = none → u'.quad ≠ none →
      u.fields ≠ u'.fields := by
    intro u u' hu hu' hnone hsome hfields
    obtain ⟨octets, hq⟩ := Option.ne_none_iff_exists'.mp hsome
    obtain ⟨a, b, c, d, rfl⟩ := List.length_eq_four.mp (hu'.quad octets hq).1
    simp only [fields, hnone, hq, Option.elim_none, Option.elim_some, List.append_nil] at hfields
    have hmem : [46].intercalate [a, b, c, d] ∈ u.back :=
      hfields ▸ List.mem_append_right _ (List.mem_singleton_self _)
    have havoids : Rfc3986.h16 ≤ avoiding [46] := h16_le rfl
    exact havoids (hu.back _ hmem) 46 (by simp [List.intercalate_cons_cons]) (List.mem_singleton_self _)
  cases hq : v.quad with
  | none =>
    cases hq' : v'.quad with
    | none => simpa [fields, hq, hq'] using heq
    | some octets' => exact absurd heq (hdot h h' hq (by simp [hq']))
  | some octets =>
    cases hq' : v'.quad with
    | none => exact absurd heq.symm (hdot h' h hq' (by simp [hq]))
    | some octets' =>
      simp only [fields, hq, hq', Option.elim_some] at heq
      obtain ⟨hback, hlast⟩ := List.append_inj' heq rfl
      refine ⟨hback, congrArg some ?_⟩
      have hsplit : ∀ {u : Ipv6} {os : List Bytes}, u.Derives octet → u.quad = some os →
          ([46].intercalate os).splitOn 46 = os := by
        intro u os hu hos
        obtain ⟨hlen, hmem⟩ := hu.quad os hos
        refine List.splitOn_intercalate 46 (fun o ho hc => hoctet (hmem o ho) 46 hc (List.mem_singleton_self _)) ?_
        rintro rfl
        cases hlen
      rw [← hsplit h hq, ← hsplit h' hq', (List.cons_eq_cons.mp hlast).1]

/-- Pieces that are padded to one empty piece when there are none are found again. -/
theorem padded_inj {xs xs' : List Bytes} (h : [] ∉ xs) (h' : [] ∉ xs')
    (heq : (if xs = [] then [[]] else xs) = if xs' = [] then [[]] else xs') : xs = xs' := by
  split at heq
  · rename_i hnil
    split at heq
    · rename_i hnil'
      rw [hnil, hnil']
    · exact absurd (heq ▸ List.mem_singleton_self _) h'
  · split at heq
    · exact absurd (heq ▸ List.mem_singleton_self _) h
    · exact heq

/-- They are found again in front of an empty piece and more. -/
theorem padded_append_inj {xs xs' ys ys' : List Bytes} (h : [] ∉ xs) (h' : [] ∉ xs')
    (heq : (if xs = [] then [[]] else xs) ++ [] :: ys = (if xs' = [] then [[]] else xs') ++ [] :: ys') :
    xs = xs' ∧ ys = ys' := by
  cases xs with
  | nil =>
    cases xs' with
    | nil => exact ⟨rfl, (List.cons_eq_cons.mp (List.append_cancel_left heq)).2⟩
    | cons x xs' =>
      obtain ⟨rfl, _⟩ := List.cons_eq_cons.mp heq
      exact absurd List.mem_cons_self h'
  | cons x xs =>
    cases xs' with
    | nil =>
      obtain ⟨rfl, _⟩ := List.cons_eq_cons.mp heq
      exact absurd List.mem_cons_self h
    | cons x' xs' => exact List.cut_unique h h' heq

/-- What stands on the two sides of the `::` is found again in the pieces. -/
theorem Derives.pieces_unique (h : v.Derives octet) (h' : v'.Derives octet) (hoctet : octet ≤ avoiding [58])
    (heq : v.pieces = v'.pieces) : v.front = v'.front ∧ v.fields = v'.fields := by
  have hne : ∀ {u : Ipv6}, u.Derives octet → [] ∉ u.fields := fun hu hnil => (hu.fields_mem hoctet [] hnil).1 rfl
  have hgroups : ∀ {u : Ipv6} {groups : List Bytes}, u.Derives octet → u.front = some groups → [] ∉ groups :=
    fun hu hg hnil => nil_not_mem_h16 (hu.front _ hg [] hnil)
  have hmixed : ∀ {u u' : Ipv6}, u.Derives octet → u.front = none → u'.front ≠ none → u.pieces ≠ u'.pieces := by
    intro u u' hu hnone hsome hp
    obtain ⟨groups, hg⟩ := Option.ne_none_iff_exists'.mp hsome
    simp only [pieces, hnone, hg, Option.elim_none, Option.elim_some] at hp
    exact hne hu (hp ▸ List.mem_append_right _ List.mem_cons_self)
  cases hg : v.front with
  | none =>
    cases hg' : v'.front with
    | none => exact ⟨rfl, by simpa only [pieces, hg, hg', Option.elim_none] using heq⟩
    | some groups' => exact absurd heq (hmixed h hg (by simp [hg']))
  | some groups =>
    cases hg' : v'.front with
    | none => exact absurd heq.symm (hmixed h' hg' (by simp [hg]))
    | some groups' =>
      simp only [pieces, hg, hg', Option.elim_some] at heq
      obtain ⟨rfl, hfields⟩ := padded_append_inj (hgroups h hg) (hgroups h' hg') heq
      exact ⟨rfl, padded_inj (hne h) (hne h') hfields⟩

/-- An address has one reading. -/
theorem Derives.unique (h : v.Derives octet) (h' : v'.Derives octet) (hoctet : octet ≤ avoiding [58, 46])
    (heq : v.text = v'.text) : v = v' := by
  have hcolon : octet ≤ avoiding [58] := hoctet.trans (avoiding_mono (by simp))
  have hpieces : v.pieces = v'.pieces := by
    rw [← h.splitOn_text hcolon, ← h'.splitOn_text hcolon, heq]
  obtain ⟨hfront, hfields⟩ := h.pieces_unique h' hcolon hpieces
  obtain ⟨hback, hquad⟩ := h.fields_unique h' (hoctet.trans (avoiding_mono (by simp))) hfields
  obtain ⟨front, back, quad⟩ := v
  obtain ⟨front', back', quad'⟩ := v'
  obtain rfl : front = front' := hfront
  obtain rfl : back = back' := hback
  obtain rfl : quad = quad' := hquad
  rfl

end Ipv6

end Bobliew
