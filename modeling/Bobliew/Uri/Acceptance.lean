import Bobliew.Uri.Create
import Bobliew.Uri.Hosts

/-!
# The accepted strings

The strings from which a URI is created are compared with the references of RFC 3986. They differ in their hosts,
and a reference with a scheme and an empty port throws.
-/

namespace Bobliew

open Ragel Http UriGrammar

/-! ## Octets -/

/-- An octet whose first digit is this byte from 200 to 249. -/
def OctetShape (two : UInt8) (o : Bytes) : Prop :=
  (∃ a, digit.has a = true ∧ o = [a]) ∨
    (∃ a b, (ByteSet.range 49 57).has a = true ∧ digit.has b = true ∧ o = [a, b]) ∨
    (∃ a b, digit.has a = true ∧ digit.has b = true ∧ o = [49, a, b]) ∨
    (∃ a b, (ByteSet.range 48 52).has a = true ∧ digit.has b = true ∧ o = [two, a, b]) ∨
    ∃ a, (ByteSet.range 48 53).has a = true ∧ o = [50, 53, a]

/-- The five forms of an octet. -/
theorem mem_octet {first : Language UInt8} {two : UInt8} (hfirst : ∀ w, w ∈ first ↔ w = [two]) {o : Bytes} :
    o ∈ Rfc3986.bytes digit + Rfc3986.bytes (.range 49 57) * Rfc3986.bytes digit +
      Rfc3986.chr '1' * (Rfc3986.bytes digit * Rfc3986.bytes digit) +
      first * (Rfc3986.bytes (.range 48 52) * Rfc3986.bytes digit) +
      Rfc3986.chr '2' * (Rfc3986.chr '5' * Rfc3986.bytes (.range 48 53)) ↔ OctetShape two o := by
  have htwo : ∀ {s t : ByteSet} {w : Bytes}, w ∈ Rfc3986.bytes s * Rfc3986.bytes t ↔
      ∃ a b, s.has a = true ∧ t.has b = true ∧ w = [a, b] := by
    intro s t w
    rw [Language.mem_mul]
    constructor
    · rintro ⟨_, ⟨a, ha, rfl⟩, _, ⟨b, hb, rfl⟩, rfl⟩
      exact ⟨a, b, ha, hb, rfl⟩
    · rintro ⟨a, b, ha, hb, rfl⟩
      exact ⟨_, ⟨a, ha, rfl⟩, _, ⟨b, hb, rfl⟩, rfl⟩
  simp only [Language.mem_add, htwo, Rfc3986.mem_chr_mul (c := '1') (by decide), Rfc3986.mem_chr_mul (c := '2') (by decide),
    Rfc3986.mem_chr_mul (c := '5') (by decide), or_assoc]
  refine or_congr Iff.rfl (or_congr Iff.rfl (or_congr ?_ (or_congr ?_ ?_)))
  · constructor
    · rintro ⟨_, ⟨a, b, ha, hb, rfl⟩, rfl⟩
      exact ⟨a, b, ha, hb, rfl⟩
    · rintro ⟨a, b, ha, hb, rfl⟩
      exact ⟨_, ⟨a, b, ha, hb, rfl⟩, rfl⟩
  · rw [Language.mem_mul]
    constructor
    · rintro ⟨u, hu, v, hv, rfl⟩
      obtain rfl := (hfirst u).mp hu
      obtain ⟨a, b, ha, hb, rfl⟩ := htwo.mp hv
      exact ⟨a, b, ha, hb, rfl⟩
    · rintro ⟨a, b, ha, hb, rfl⟩
      exact ⟨_, (hfirst _).mpr rfl, _, htwo.mpr ⟨a, b, ha, hb, rfl⟩, rfl⟩
  · constructor
    · rintro ⟨_, ⟨_, ⟨a, ha, rfl⟩, rfl⟩, rfl⟩
      exact ⟨a, ha, rfl⟩
    · rintro ⟨a, ha, rfl⟩
      exact ⟨_, ⟨_, ⟨a, ha, rfl⟩, rfl⟩, rfl⟩

/-- The octets of RFC 3986. -/
theorem mem_decOctet {o : Bytes} : o ∈ Rfc3986.decOctet ↔ OctetShape 50 o :=
  mem_octet fun _ => Rfc3986.mem_chr (by decide)

/-- The octets of the machine. -/
theorem mem_byteOctet {o : Bytes} : o ∈ byteOctet ↔ OctetShape 2 o := by
  refine mem_octet fun w => ?_
  constructor
  · rintro ⟨c, hc, rfl⟩
    rw [UInt8.toNat_inj.mp (ByteSet.has_one.mp hc : c.toNat = (2 : UInt8).toNat)]
  · rintro rfl
    exact ⟨2, rfl, rfl⟩

/-- The bytes of an octet are digits, and the byte for its first digit. -/
theorem OctetShape.bytes {two : UInt8} {o : Bytes} (h : OctetShape two o) :
    ∀ c ∈ o, digit.has c = true ∨ c = two := by
  have hsub : ∀ {lo hi : ℕ} {c : UInt8}, 48 ≤ lo → hi ≤ 57 → (ByteSet.range lo hi).has c = true →
      digit.has c = true := by
    intro lo hi c hlo hhi hc
    simp only [digit, ByteSet.has, Bool.and_eq_true, Nat.ble_eq] at hc ⊢
    omega
  rcases h with ⟨a, ha, rfl⟩ | ⟨a, b, ha, hb, rfl⟩ | ⟨a, b, ha, hb, rfl⟩ | ⟨a, b, ha, hb, rfl⟩ | ⟨a, ha, rfl⟩
  · exact List.forall_mem_singleton.mpr (.inl ha)
  · simp only [List.forall_mem_cons]
    exact ⟨.inl (hsub (by omega) (by omega) ha), .inl hb, by simp⟩
  · simp only [List.forall_mem_cons]
    exact ⟨.inl rfl, .inl ha, .inl hb, by simp⟩
  · simp only [List.forall_mem_cons]
    exact ⟨.inr trivial, .inl (hsub (by omega) (by omega) ha), .inl hb, by simp⟩
  · simp only [List.forall_mem_cons]
    exact ⟨.inl rfl, .inl rfl, .inl (hsub (by omega) (by omega) ha), by simp⟩

/-- The octets contain no other bytes. -/
theorem OctetShape.avoids {two : UInt8} {o : Bytes} (h : OctetShape two o) {stops : List UInt8}
    (hstops : stops.all (fun c => !digit.has c && c != two) = true) : o ∈ avoiding stops := by
  intro c hc hmem
  have hnot := List.all_eq_true.mp hstops c hmem
  rcases h.bytes c hc with hd | rfl
  · simp [hd] at hnot
  · simp at hnot

/-- An octet of the machine without the byte 2 is one of RFC 3986. -/
theorem mem_decOctet_of_byteOctet {o : Bytes} (h : o ∈ byteOctet) (htwo : o ∈ avoiding [2]) :
    o ∈ Rfc3986.decOctet := by
  rcases mem_byteOctet.mp h with h | h | h | ⟨a, b, _, _, rfl⟩ | h
  · exact mem_decOctet.mpr (.inl h)
  · exact mem_decOctet.mpr (.inr (.inl h))
  · exact mem_decOctet.mpr (.inr (.inr (.inl h)))
  · exact absurd (List.mem_singleton_self 2) (htwo 2 List.mem_cons_self)
  · exact mem_decOctet.mpr (.inr (.inr (.inr (.inr h))))

/-- An octet of RFC 3986 that is not one from 200 to 249 is one of the machine. -/
theorem mem_byteOctet_of_decOctet {o : Bytes} (h : o ∈ Rfc3986.decOctet)
    (hlow : ∀ c d, o = [50, c, d] → (ByteSet.range 48 52).has c = false) : o ∈ byteOctet := by
  rcases mem_decOctet.mp h with h | h | h | ⟨a, b, ha, _, heq⟩ | h
  · exact mem_byteOctet.mpr (.inl h)
  · exact mem_byteOctet.mpr (.inr (.inl h))
  · exact mem_byteOctet.mpr (.inr (.inr (.inl h)))
  · rw [hlow a b heq] at ha
    cases ha
  · exact mem_byteOctet.mpr (.inr (.inr (.inr (.inr h))))

/-- An octet of the machine is not one from 200 to 249. -/
theorem low_of_byteOctet {o : Bytes} (h : o ∈ byteOctet) (c d : UInt8) (heq : o = [50, c, d]) :
    (ByteSet.range 48 52).has c = false := by
  subst heq
  rcases mem_byteOctet.mp h with ⟨a, _, heq⟩ | ⟨a, b, _, _, heq⟩ | ⟨a, b, _, _, heq⟩ | ⟨a, b, _, _, heq⟩ | ⟨a, _, heq⟩
  · cases heq
  · cases heq
  · exact absurd (List.cons_eq_cons.mp heq).1 (by decide)
  · exact absurd (List.cons_eq_cons.mp heq).1 (by decide)
  · obtain rfl : c = 53 := (List.cons_eq_cons.mp (List.cons_eq_cons.mp heq).2).1
    rfl

/-! ## IPv6 addresses -/

namespace Ipv6

variable {octet : Language UInt8} {v : Ipv6}

/-- More octets derive more addresses. -/
theorem Derives.of_octets (h : v.Derives octet) {octet' : Language UInt8}
    (hoctets : ∀ octets ∈ v.quad, ∀ o ∈ octets, o ∈ octet → o ∈ octet') : v.Derives octet' where
  front := h.front
  back := h.back
  quad octets hq := ⟨(h.quad octets hq).1, fun o ho => hoctets octets hq o ho ((h.quad octets hq).2 o ho)⟩
  count := h.count

/-- The bytes of an address are those of its groups and octets, colons and dots. -/
theorem Derives.text_avoids (h : v.Derives octet) {stops : List UInt8} (hoctet : octet ≤ avoiding stops)
    (hstops : stops.all (fun c => !xdigit.has c) = true) (hcolon : 58 ∉ stops) (hdot : 46 ∉ stops) :
    v.text ∈ avoiding stops := by
  have hjoin : ∀ {s : UInt8} {xs : List Bytes}, s ∉ stops → (∀ x ∈ xs, x ∈ avoiding stops) →
      [s].intercalate xs ∈ avoiding stops := by
    intro s xs hs hxs c hc
    rcases List.mem_of_mem_intercalate hc with hc | ⟨x, hx, hc⟩
    · rwa [List.mem_singleton.mp hc]
    · exact hxs x hx c hc
  have hgroups : Rfc3986.h16 ≤ avoiding stops := h16_le hstops
  refine append_mem_avoiding ?_ (hjoin hcolon fun x hx => ?_)
  · cases hfront : v.front with
    | none => exact fun c hc => absurd hc List.not_mem_nil
    | some groups =>
      refine append_mem_avoiding (hjoin hcolon fun g hg => hgroups (h.front groups hfront g hg)) ?_
      exact List.forall_mem_cons.mpr ⟨hcolon, List.forall_mem_singleton.mpr hcolon⟩
  · rcases List.mem_append.mp hx with hx | hx
    · exact hgroups (h.back x hx)
    · cases hquad : v.quad with
      | none =>
        rw [hquad] at hx
        cases hx
      | some octets =>
        rw [hquad] at hx
        rw [List.mem_singleton.mp hx]
        exact hjoin hdot fun o ho => hoctet ((h.quad octets hquad).2 o ho)

/-- The bytes of the octets are bytes of the text. -/
theorem mem_text {octets : List Bytes} (hquad : v.quad = some octets) {o : Bytes} (ho : o ∈ octets) {c : UInt8}
    (hc : c ∈ o) : c ∈ v.text := by
  have hinside : c ∈ [46].intercalate octets := List.mem_intercalate_of_mem ho hc
  refine List.mem_append_right _ (List.mem_intercalate_of_mem ?_ hinside)
  rw [fields, hquad]
  exact List.mem_append_right _ (List.mem_singleton_self _)

/-- An address of RFC 3986 or of the machine has one reading. -/
theorem Derives.eq_of_text {octet octet' : Language UInt8} {v v' : Ipv6} (h : v.Derives octet)
    (h' : v'.Derives octet')
    (hoctet : octet ≤ avoiding [58, 46]) (hoctet' : octet' ≤ avoiding [58, 46]) (heq : v.text = v'.text) : v = v' :=
  (h.of_octets fun _ _ _ _ ho => hoctet ho).unique (h'.of_octets fun _ _ _ _ ho => hoctet' ho) le_rfl heq

end Ipv6

/-! ## Hosts -/

/-- The hosts that the machine takes: an IP literal does not begin with the letter V, the `::` of an IPv6 address
stands at its beginning or for one group, and no octet of an IPv4 address in it is one from 200 to 249. -/
def HostTaken (octet : Language UInt8) (h : Bytes) : Prop :=
  ∀ l, h = 91 :: (l ++ [93]) → l.head? ≠ some 86 ∧ ∀ v : Ipv6, v.Derives octet → v.text = l → v.Full ∧ v.Low

/-- A word of a language in brackets. -/
theorem Rfc3986.mem_bracketed {L : Language UInt8} {h : Bytes} :
    h ∈ Rfc3986.chr '[' * (L * Rfc3986.chr ']') ↔ ∃ l ∈ L, h = 91 :: (l ++ [93]) := by
  rw [Rfc3986.mem_chr_mul (by decide)]
  constructor
  · rintro ⟨_, ht, rfl⟩
    obtain ⟨l, hl, c, hc, rfl⟩ := Language.mem_mul.mp ht
    obtain rfl := (Rfc3986.mem_chr (by decide)).mp hc
    exact ⟨l, hl, rfl⟩
  · rintro ⟨l, hl, rfl⟩
    exact ⟨_, Language.mem_mul.mpr ⟨l, hl, _, (Rfc3986.mem_chr (by decide)).mpr rfl, rfl⟩, rfl⟩

/-- IP literals. -/
theorem Rfc3986.mem_ipLiteral {octet : Language UInt8} {h : Bytes} : h ∈ Rfc3986.ipLiteral octet ↔
    ∃ l, (l ∈ Rfc3986.ipv6Address octet ∨ l ∈ Rfc3986.ipvFuture) ∧ h = 91 :: (l ++ [93]) :=
  Rfc3986.mem_bracketed

namespace UriGrammar

/-- The IP literals of the machine. -/
theorem mem_ipLiteral {h : Bytes} : h ∈ ipLiteral.lang ↔
    ∃ l, (l ∈ ipv6Address.lang ∨ l ∈ ipvFuture.lang) ∧ h = 91 :: (l ++ [93]) := by
  have hnames : ipLiteral.lang = Rfc3986.chr '[' * ((ipv6Address.lang + ipvFuture.lang) * Rfc3986.chr ']') := rfl
  rw [hnames]
  exact Rfc3986.mem_bracketed

/-- The machine takes the small letter only. -/
theorem mem_ipvFuture {l : Bytes} : l ∈ ipvFuture.lang ↔ l ∈ Rfc3986.ipvFuture ∧ l.head? ≠ some 86 := by
  have hnames : ipvFuture.lang = Rfc3986.chr 'v' * (Rfc3986.plus (Rfc3986.bytes xdigit) * (Rfc3986.chr '.' *
      Rfc3986.plus (Rfc3986.bytes unreserved + (Rfc3986.bytes subDelims + Rfc3986.chr ':')))) := rfl
  rw [hnames, ← add_assoc, Rfc3986.mem_chr_mul (by decide), Rfc3986.ipvFuture, Language.mem_mul]
  constructor
  · rintro ⟨t, ht, rfl⟩
    exact ⟨⟨[118], ⟨118, by decide, rfl⟩, t, ht, rfl⟩, by simp⟩
  · rintro ⟨⟨_, ⟨c, hc, rfl⟩, t, ht, rfl⟩, hhead⟩
    refine ⟨t, ht, ?_⟩
    have hcases : c = 118 ∨ c = 86 := by
      have hset : ((ByteSet.range 118 118).has c || (ByteSet.range 86 86).has c) = true := hc
      exact (Bool.or_eq_true_iff.mp hset).imp (fun h => UInt8.toNat_inj.mp (ByteSet.has_one.mp h))
        fun h => UInt8.toNat_inj.mp (ByteSet.has_one.mp h)
    rcases hcases with rfl | rfl
    · rfl
    · exact absurd rfl hhead

end UriGrammar

/-- The hosts of the grammar. -/
theorem Rfc3986.mem_host {octet : Language UInt8} {h : Bytes} : h ∈ Rfc3986.host octet ↔
    (∃ l, (l ∈ Rfc3986.ipv6Address octet ∨ l ∈ Rfc3986.ipvFuture) ∧ h = 91 :: (l ++ [93])) ∨
      h ∈ Rfc3986.ipv4Address octet ∨ h ∈ Rfc3986.regName := by
  rw [Rfc3986.host, Language.mem_add, Language.mem_add, Rfc3986.mem_ipLiteral, or_assoc]

/-- The hosts of the machine. -/
theorem UriGrammar.mem_host {h : Bytes} : h ∈ UriGrammar.host.lang ↔
    (∃ l, (l ∈ UriGrammar.ipv6Address.lang ∨ l ∈ UriGrammar.ipvFuture.lang) ∧ h = 91 :: (l ++ [93])) ∨
      h ∈ Rfc3986.ipv4Address byteOctet ∨ h ∈ Rfc3986.regName := by
  have hnames : UriGrammar.host.lang = UriGrammar.ipLiteral.lang + (UriGrammar.ipv4Address.lang + regName.lang) := rfl
  rw [hnames, Language.mem_add, Language.mem_add, UriGrammar.mem_ipLiteral, lang_ipv4Address, lang_regName]

/-- The octets of RFC 3986 and of the machine contain no colon, no dot and no letter v. -/
theorem octets_le : Rfc3986.decOctet ≤ avoiding [58, 46, 118, 86, 93, 91] ∧
    byteOctet ≤ avoiding [58, 46, 118, 86, 93, 91] :=
  ⟨fun _ ho => (mem_decOctet.mp ho).avoids (by decide), fun _ ho => (mem_byteOctet.mp ho).avoids (by decide)⟩

section Hosts

variable {octet : Language UInt8} {h l : Bytes}

/-- An IPv4 address contains no other bytes than its octets and dots. -/
theorem Rfc3986.ipv4Address_le {stops : List UInt8} (hoctet : octet ≤ avoiding stops) (hdot : 46 ∉ stops) :
    Rfc3986.ipv4Address octet ≤ avoiding stops := by
  intro w hw c hc
  obtain ⟨octets, ⟨_, hmem⟩, rfl⟩ := Rfc3986.mem_ipv4Address.mp hw
  rcases List.mem_of_mem_intercalate hc with hc | ⟨o, ho, hc⟩
  · rwa [List.mem_singleton.mp hc]
  · exact hoctet (hmem o ho) c hc

/-- A name contains no delimiter. -/
theorem Rfc3986.regName_le {stops : List UInt8}
    (hstops : stops.all (fun c => !unreserved.has c && !subDelims.has c && !xdigit.has c && c != 37) = true) :
    Rfc3986.regName ≤ avoiding stops := by
  have hset : ∀ {set : ByteSet}, (∀ c ∈ stops, set.has c = false) → Rfc3986.bytes set ≤ avoiding stops := by
    intro set hset
    exact Rfc3986.bytes_le_avoiding (List.all_eq_true.mpr fun c hc => by rw [hset c hc]; rfl)
  have hcases : ∀ c ∈ stops, unreserved.has c = false ∧ subDelims.has c = false ∧ xdigit.has c = false ∧ c ≠ 37 := by
    intro c hc
    have hnot := List.all_eq_true.mp hstops c hc
    simp only [Bool.and_eq_true, Bool.not_eq_true', bne_iff_ne] at hnot
    exact ⟨hnot.1.1.1, hnot.1.1.2, hnot.1.2, hnot.2⟩
  have hxdigit : Rfc3986.bytes xdigit ≤ avoiding stops := hset fun c hc => (hcases c hc).2.2.1
  have hpercent : Rfc3986.chr '%' ≤ avoiding stops := by
    intro w hw
    obtain rfl := (Rfc3986.mem_chr (by decide)).mp hw
    exact List.forall_mem_singleton.mpr fun hmem => (hcases _ hmem).2.2.2 rfl
  exact Rfc3986.kstar_le_avoiding (sup_le (sup_le (hset fun c hc => (hcases c hc).1)
    (Rfc3986.mul_le_avoiding hpercent (Rfc3986.mul_le_avoiding hxdigit hxdigit))) (hset fun c hc => (hcases c hc).2.1))

/-- An IPv4 address is a name as well. -/
theorem Rfc3986.ipv4Address_le_regName : Rfc3986.ipv4Address Rfc3986.decOctet ≤ Rfc3986.regName := by
  intro w hw
  have hbytes : ∀ c ∈ w, unreserved.has c = true := by
    obtain ⟨octets, ⟨_, hmem⟩, rfl⟩ := Rfc3986.mem_ipv4Address.mp hw
    have hdigit : ∀ c, digit.has c = true → unreserved.has c = true := by
      intro c hc
      simp [unreserved, ByteSet.has, hc]
    intro c hc
    rcases List.mem_of_mem_intercalate hc with hc | ⟨o, ho, hc⟩
    · rw [List.mem_singleton.mp hc]
      decide
    · rcases (mem_decOctet.mp (hmem o ho)).bytes c hc with hd | rfl
      · exact hdigit c hd
      · decide
  exact Rfc3986.mem_kstar_of_bytes fun c hc => .inl (.inl ⟨c, hbytes c hc, rfl⟩)

/-- Hosts without a bracket are taken. -/
theorem hostTaken_of_avoids (hh : h ∈ avoiding [91]) : HostTaken octet h := by
  rintro l rfl
  exact absurd (List.mem_singleton_self 91) (hh 91 List.mem_cons_self)

/-- Whether an IP literal is taken. -/
theorem hostTaken_literal : HostTaken octet (91 :: (l ++ [93])) ↔
    l.head? ≠ some 86 ∧ ∀ v : Ipv6, v.Derives octet → v.text = l → v.Full ∧ v.Low := by
  constructor
  · exact fun h => h l rfl
  · intro h l' heq
    obtain rfl : l = l' := List.append_cancel_right (List.cons_eq_cons.mp heq).2
    exact h

/-- An IPv6 address does not begin with the letter of a future one. -/
theorem Ipv6.Derives.head_ne {v : Ipv6} (hv : v.Derives octet) (hoctet : octet ≤ avoiding [58, 46, 118, 86, 93, 91]) :
    v.text.head? ≠ some 118 ∧ v.text.head? ≠ some 86 := by
  have htext : v.text ∈ avoiding [118, 86] :=
    hv.text_avoids (hoctet.trans (avoiding_mono (by simp))) rfl (by decide) (by decide)
  have hnot : ∀ c ∈ ([118, 86] : List UInt8), v.text.head? ≠ some c :=
    fun c hc hhead => htext c (List.mem_of_mem_head? hhead) hc
  exact ⟨hnot 118 (by simp), hnot 86 (by simp)⟩

/-- A future address begins with a letter v. -/
theorem Rfc3986.head_of_ipvFuture (hl : l ∈ Rfc3986.ipvFuture) : l.head? = some 118 ∨ l.head? = some 86 := by
  obtain ⟨_, ⟨c, hc, rfl⟩, t, _, rfl⟩ := Language.mem_mul.mp hl
  have hset : ((ByteSet.range 118 118).has c || (ByteSet.range 86 86).has c) = true := hc
  exact (Bool.or_eq_true_iff.mp hset).imp (fun h => congrArg some (UInt8.toNat_inj.mp (ByteSet.has_one.mp h)))
    fun h => congrArg some (UInt8.toNat_inj.mp (ByteSet.has_one.mp h))

/-- Whether an IPv6 address is taken. -/
theorem hostTaken_ipv6 {v : Ipv6} (hv : v.Derives octet) (hoctet : octet ≤ avoiding [58, 46, 118, 86, 93, 91]) :
    HostTaken octet (91 :: (v.text ++ [93])) ↔ v.Full ∧ v.Low := by
  rw [hostTaken_literal]
  constructor
  · exact fun h => h.2 v hv rfl
  · intro h
    refine ⟨(hv.head_ne hoctet).2, fun v' hv' heq => ?_⟩
    have hsub : octet ≤ avoiding [58, 46] := hoctet.trans (avoiding_mono (by simp))
    obtain rfl := hv'.eq_of_text hv hsub hsub heq
    exact h

/-- Whether a future address is taken. -/
theorem hostTaken_ipvFuture (hl : l ∈ Rfc3986.ipvFuture) (hoctet : octet ≤ avoiding [58, 46, 118, 86, 93, 91]) :
    HostTaken octet (91 :: (l ++ [93])) ↔ l.head? ≠ some 86 := by
  rw [hostTaken_literal]
  refine and_iff_left_of_imp fun hhead v hv heq => ?_
  have hfirst := (Rfc3986.head_of_ipvFuture hl).resolve_right hhead
  exact absurd (heq ▸ hfirst) (hv.head_ne hoctet).1

/-- The hosts of the machine are those that it takes among the hosts with its octets. -/
theorem mem_host_iff : h ∈ UriGrammar.host.lang ↔ h ∈ Rfc3986.host byteOctet ∧ HostTaken byteOctet h := by
  have hbyte := octets_le.2
  have hlow : ∀ {v : Ipv6}, v.Derives byteOctet → v.Low :=
    fun hv octets hq o ho c d => low_of_byteOctet ((hv.quad octets hq).2 o ho) c d
  have hplain : ∀ {h : Bytes}, h ∈ Rfc3986.ipv4Address byteOctet ∨ h ∈ Rfc3986.regName → HostTaken byteOctet h := by
    intro h hh
    refine hostTaken_of_avoids ?_
    rcases hh with hh | hh
    · exact Rfc3986.ipv4Address_le (hbyte.trans (avoiding_mono (by simp))) (by decide) hh
    · exact Rfc3986.regName_le (by decide) hh
  rw [UriGrammar.mem_host, Rfc3986.mem_host]
  constructor
  · rintro (⟨l, hl | hl, rfl⟩ | hh)
    · obtain ⟨v, hv, hfull, rfl⟩ := UriGrammar.mem_ipv6Address.mp hl
      exact ⟨.inl ⟨_, .inl (Rfc3986.mem_ipv6Address.mpr ⟨v, hv, rfl⟩), rfl⟩,
        (hostTaken_ipv6 hv hbyte).mpr ⟨hfull, hlow hv⟩⟩
    · obtain ⟨hl, hhead⟩ := UriGrammar.mem_ipvFuture.mp hl
      exact ⟨.inl ⟨l, .inr hl, rfl⟩, (hostTaken_ipvFuture hl hbyte).mpr hhead⟩
    · exact ⟨.inr hh, hplain hh⟩
  · rintro ⟨⟨l, hl | hl, rfl⟩ | hh, htaken⟩
    · obtain ⟨v, hv, rfl⟩ := Rfc3986.mem_ipv6Address.mp hl
      exact .inl ⟨_, .inl (UriGrammar.mem_ipv6Address.mpr ⟨v, hv, ((hostTaken_ipv6 hv hbyte).mp htaken).1, rfl⟩), rfl⟩
    · exact .inl ⟨l, .inr (UriGrammar.mem_ipvFuture.mpr ⟨hl, (hostTaken_ipvFuture hl hbyte).mp htaken⟩), rfl⟩
    · exact .inr hh

/-- Which hosts of RFC 3986 the machine takes. -/
theorem mem_host_of_rfc (hh : h ∈ Rfc3986.host Rfc3986.decOctet) :
    h ∈ UriGrammar.host.lang ↔ HostTaken Rfc3986.decOctet h := by
  have hdec := octets_le.1
  have hsub : ∀ {octet : Language UInt8}, octet ≤ avoiding [58, 46, 118, 86, 93, 91] → octet ≤ avoiding [58, 46] :=
    fun h => h.trans (avoiding_mono (by simp))
  have hliteral : ∀ {l : Bytes}, 91 :: (l ++ [93]) ∈ UriGrammar.host.lang ↔
      l ∈ UriGrammar.ipv6Address.lang ∨ l ∈ UriGrammar.ipvFuture.lang := by
    intro l
    rw [UriGrammar.mem_host]
    constructor
    · rintro (⟨l', hl', heq⟩ | hh | hh)
      · obtain rfl : l = l' := List.append_cancel_right (List.cons_eq_cons.mp heq).2
        exact hl'
      · exact absurd (List.mem_singleton_self 91)
          (Rfc3986.ipv4Address_le (octets_le.2.trans (avoiding_mono (by simp))) (by decide) hh 91 List.mem_cons_self)
      · have hname : Rfc3986.regName ≤ avoiding [91] := Rfc3986.regName_le (by decide)
        exact absurd (List.mem_singleton_self 91) (hname hh 91 List.mem_cons_self)
    · exact fun hl => .inl ⟨l, hl, rfl⟩
  rcases Rfc3986.mem_host.mp hh with ⟨l, hl | hl, rfl⟩ | hh
  · obtain ⟨v, hv, rfl⟩ := Rfc3986.mem_ipv6Address.mp hl
    rw [hliteral, hostTaken_ipv6 hv hdec]
    constructor
    · rintro (hl | hl)
      · obtain ⟨v', hv', hfull, heq⟩ := UriGrammar.mem_ipv6Address.mp hl
        obtain rfl := hv'.eq_of_text hv (hsub octets_le.2) (hsub hdec) heq
        exact ⟨hfull, fun octets hq o ho c d => low_of_byteOctet ((hv'.quad octets hq).2 o ho) c d⟩
      · obtain ⟨hl, hhead⟩ := UriGrammar.mem_ipvFuture.mp hl
        exact absurd ((Rfc3986.head_of_ipvFuture hl).resolve_right hhead) (hv.head_ne hdec).1
    · rintro ⟨hfull, hlow⟩
      refine .inl (UriGrammar.mem_ipv6Address.mpr ⟨v, hv.of_octets fun octets hq o ho hmem => ?_, hfull, rfl⟩)
      exact mem_byteOctet_of_decOctet hmem (hlow octets hq o ho)
  · rw [hliteral, hostTaken_ipvFuture hl hdec]
    constructor
    · rintro (hl' | hl')
      · obtain ⟨v, hv, _, rfl⟩ := UriGrammar.mem_ipv6Address.mp hl'
        exact (hv.head_ne octets_le.2).2
      · exact (UriGrammar.mem_ipvFuture.mp hl').2
    · exact fun hhead => .inr (UriGrammar.mem_ipvFuture.mpr ⟨hl, hhead⟩)
  · have hname : h ∈ Rfc3986.regName := hh.elim (fun hh => Rfc3986.ipv4Address_le_regName hh) id
    exact iff_of_true (UriGrammar.mem_host.mpr (.inr (.inr hname)))
      (hostTaken_of_avoids (Rfc3986.regName_le (by decide) hname))

/-- The literals of RFC 3986 contain no other bytes than those of their grammar. -/
theorem Rfc3986.literal_le {stops : List UInt8} (hoctet : stops.all (fun c => !digit.has c && c != 50) = true)
    (hxdigit : stops.all (fun c => !xdigit.has c) = true) (hletter : stops.all (fun c => !(charSet ['v', 'V']).has c) = true)
    (hunreserved : stops.all (fun c => !unreserved.has c) = true) (hsub : stops.all (fun c => !subDelims.has c) = true)
    (hdot : stops.all (fun c => !(charSet ['.']).has c) = true) (hcolon : stops.all (fun c => !(charSet [':']).has c) = true)
    (hl : l ∈ Rfc3986.ipv6Address Rfc3986.decOctet ∨ l ∈ Rfc3986.ipvFuture) : l ∈ avoiding stops := by
  have hnot : ∀ {ch : Char}, stops.all (fun c => !(charSet [ch]).has c) = true → ch.toNat < 256 →
      UInt8.ofNat ch.toNat ∉ stops := by
    intro ch hch hlt hmem
    have hchr : [UInt8.ofNat ch.toNat] ∈ Rfc3986.chr ch := (Rfc3986.mem_chr hlt).mpr rfl
    exact Rfc3986.bytes_le_avoiding hch hchr _ List.mem_cons_self hmem
  rcases hl with hl | hl
  · obtain ⟨v, hv, rfl⟩ := Rfc3986.mem_ipv6Address.mp hl
    exact hv.text_avoids (fun o ho => (mem_decOctet.mp ho).avoids hoctet) hxdigit (hnot hcolon (by decide))
      (hnot hdot (by decide))
  · have hplus : ∀ {m : Language UInt8}, m ≤ avoiding stops → Rfc3986.plus m ≤ avoiding stops :=
      fun hm => Rfc3986.mul_le_avoiding hm (Rfc3986.kstar_le_avoiding hm)
    have hfuture : Rfc3986.ipvFuture ≤ avoiding stops :=
      Rfc3986.mul_le_avoiding (Rfc3986.bytes_le_avoiding hletter) (Rfc3986.mul_le_avoiding
        (hplus (Rfc3986.bytes_le_avoiding hxdigit)) (Rfc3986.mul_le_avoiding (Rfc3986.bytes_le_avoiding hdot)
          (hplus (sup_le (sup_le (Rfc3986.bytes_le_avoiding hunreserved) (Rfc3986.bytes_le_avoiding hsub))
            (Rfc3986.bytes_le_avoiding hcolon)))))
    exact hfuture hl

/-- A host of RFC 3986 is found again by its delimiters, and contains no byte 2. -/
theorem host_rfc_le : Rfc3986.host Rfc3986.decOctet ≤ hostShape ∧ Rfc3986.host Rfc3986.decOctet ≤ avoiding [2] := by
  have hname : Rfc3986.regName ≤ avoiding [47, 63, 35, 64, 58, 91, 2] := Rfc3986.regName_le (by decide)
  have hplain : ∀ {h : Bytes}, h ∈ Rfc3986.ipv4Address Rfc3986.decOctet ∨ h ∈ Rfc3986.regName →
      h ∈ avoiding [47, 63, 35, 64, 58, 91, 2] :=
    fun hh => hname (hh.elim (fun hh => Rfc3986.ipv4Address_le_regName hh) id)
  constructor
  · intro h hh
    rcases Rfc3986.mem_host.mp hh with ⟨l, hl, rfl⟩ | hh
    · have hinside : l ∈ avoiding [93, 47, 63, 35, 64] := Rfc3986.literal_le rfl rfl rfl rfl rfl rfl rfl hl
      refine ⟨?_, .inr ⟨l, avoiding_mono (by simp) hinside, rfl⟩⟩
      exact append_mem_avoiding (u := [91]) (List.forall_mem_singleton.mpr (by decide))
        (append_mem_avoiding (avoiding_mono (by simp) hinside) (List.forall_mem_singleton.mpr (by decide)))
    · exact ⟨avoiding_mono (by simp) (hplain hh), .inl (avoiding_mono (by simp) (hplain hh))⟩
  · intro h hh
    rcases Rfc3986.mem_host.mp hh with ⟨l, hl, rfl⟩ | hh
    · have hinside : l ∈ avoiding [2] := Rfc3986.literal_le rfl rfl rfl rfl rfl rfl rfl hl
      exact append_mem_avoiding (u := [91]) (List.forall_mem_singleton.mpr (by decide))
        (append_mem_avoiding hinside (List.forall_mem_singleton.mpr (by decide)))
    · exact avoiding_mono (by simp) (hplain hh)

/-- A host of the machine without the byte 2 is one of RFC 3986. -/
theorem mem_host_rfc (hh : h ∈ UriGrammar.host.lang) (htwo : h ∈ avoiding [2]) :
    h ∈ Rfc3986.host Rfc3986.decOctet := by
  rcases UriGrammar.mem_host.mp hh with ⟨l, hl | hl, rfl⟩ | hh | hh
  · obtain ⟨v, hv, _, rfl⟩ := UriGrammar.mem_ipv6Address.mp hl
    refine Rfc3986.mem_host.mpr (.inl ⟨_, .inl (Rfc3986.mem_ipv6Address.mpr ⟨v, ?_, rfl⟩), rfl⟩)
    refine hv.of_octets fun octets hq o ho hmem => mem_decOctet_of_byteOctet hmem fun c hc => ?_
    exact htwo c (List.mem_cons_of_mem _ (List.mem_append_left _ (Ipv6.mem_text hq ho hc)))
  · exact Rfc3986.mem_host.mpr (.inl ⟨l, .inr (UriGrammar.mem_ipvFuture.mp hl).1, rfl⟩)
  · obtain ⟨octets, ⟨hlen, hmem⟩, rfl⟩ := Rfc3986.mem_ipv4Address.mp hh
    refine Rfc3986.mem_host.mpr (.inr (.inl (Rfc3986.mem_ipv4Address.mpr ⟨octets, ⟨hlen, fun o ho => ?_⟩, rfl⟩)))
    exact mem_decOctet_of_byteOctet (hmem o ho) fun c hc => htwo c (List.mem_intercalate_of_mem ho hc)
  · exact Rfc3986.mem_host.mpr (.inr (.inr hh))

end Hosts

/-! ## References -/

/-- Components with other hosts. -/
theorem Reference.Derives.of_host {host host' : Language UInt8} {r : Reference} (hr : r.Derives host)
    (hhost : ∀ a ∈ r.authority, a.host ∈ host → a.host ∈ host') : r.Derives host' where
  scheme := hr.scheme
  authority a ha := ⟨(hr.authority a ha).userinfo, hhost a ha (hr.authority a ha).host, (hr.authority a ha).port⟩
  path := hr.path
  query := hr.query
  fragment := hr.fragment

/-- A URI is created from a reference of RFC 3986 unless it has a scheme and an empty port or a host that the machine
does not take, and only from such references unless a host has the byte 2 in place of the first digit of an octet
from 200 to 249. -/
def Uri.Conforms (s : Bytes) : Prop :=
  (∀ r : Reference, r.Derives (Rfc3986.host Rfc3986.decOctet) → r.text = s →
      ¬ r.EmptyPort ∧ ∀ a ∈ r.authority, HostTaken Rfc3986.decOctet a.host) ∧
    ∀ r : Reference, r.Derives (Rfc3986.host byteOctet) → r.text = s → ¬ r.EmptyPort →
      ∀ a ∈ r.authority, HostTaken byteOctet a.host → 2 ∉ a.host

namespace Uri

/-- A string is accepted exactly when it is a reference of RFC 3986, for the strings that conform and for no
others. -/
theorem create_isSome_iff (s : Bytes) :
    ((∃ u, create s = .ok (some u)) ↔ s ∈ Rfc3986.uriReference (Rfc3986.host Rfc3986.decOctet)) ↔ Conforms s := by
  have haccepted : (∃ u, create s = .ok (some u)) ↔
      ∃ r : Reference, r.Derives UriGrammar.host.lang ∧ r.text = s ∧ ¬ r.EmptyPort := by
    constructor
    · rintro ⟨u, hu⟩
      obtain ⟨r, hr, htext, hempty, _⟩ := create_eq_some.mp hu
      exact ⟨r, hr, htext, hempty⟩
    · rintro ⟨r, hr, htext, hempty⟩
      exact ⟨_, create_eq_some.mpr ⟨r, hr, htext, hempty, rfl⟩⟩
  have hunique : ∀ {r r' : Reference}, r.Derives UriGrammar.host.lang →
      r'.Derives (Rfc3986.host Rfc3986.decOctet) → r.text = r'.text → r = r' :=
    fun hr hr' => (hr.splits host_le_hostShape).unique (hr'.splits host_rfc_le.1)
  rw [haccepted, Rfc3986.mem_uriReference]
  constructor
  · intro hiff
    refine ⟨fun r hr htext => ?_, fun r hr htext hempty a ha htaken hmem => ?_⟩
    · obtain ⟨r', hr', htext', hempty⟩ := hiff.mpr ⟨r, hr, htext⟩
      obtain rfl := hunique hr' hr (htext'.trans htext.symm)
      exact ⟨hempty, fun a ha => (mem_host_of_rfc (hr.authority a ha).host).mp (hr'.authority a ha).host⟩
    · have hr' : r.Derives UriGrammar.host.lang := by
        refine hr.of_host fun a' ha' hhost => ?_
        obtain rfl := Option.some.inj (ha.symm.trans ha')
        exact mem_host_iff.mpr ⟨hhost, htaken⟩
      obtain ⟨r', hrfc, htext'⟩ := hiff.mp ⟨r, hr', htext, hempty⟩
      obtain rfl := hunique hr' hrfc (htext.trans htext'.symm)
      exact host_rfc_le.2 (hrfc.authority a ha).host 2 hmem (List.mem_singleton_self 2)
  · rintro ⟨hrfc, hbyte⟩
    constructor
    · rintro ⟨r, hr, htext, hempty⟩
      refine ⟨r, hr.of_host fun a ha hhost => mem_host_rfc hhost ?_, htext⟩
      obtain ⟨hhost', htaken⟩ := mem_host_iff.mp hhost
      have htwo := hbyte r (hr.of_host fun a' _ hh => (mem_host_iff.mp hh).1) htext hempty a ha htaken
      exact fun c hc hmem => htwo (List.mem_singleton.mp hmem ▸ hc)
    · rintro ⟨r, hr, htext⟩
      obtain ⟨hempty, htaken⟩ := hrfc r hr htext
      exact ⟨r, hr.of_host fun a ha hhost => (mem_host_of_rfc hhost).mpr (htaken a ha), htext, hempty⟩

/-- `http://[1::2]/`, whose IPv6 address has one group on either side of the `::`. -/
def shortFront : Reference :=
  ⟨some (asciiText ['h', 't', 't', 'p']), some ⟨none, asciiText ['[', '1', ':', ':', '2', ']'], none⟩,
    asciiText ['/'],
    none, none⟩

/-- `http://[1::2]/` is a reference of RFC 3986. -/
theorem shortFront_derives : shortFront.Derives (Rfc3986.host Rfc3986.decOctet) := by
  have hgroup : ∀ {c : UInt8}, xdigit.has c = true → [c] ∈ Rfc3986.h16 :=
    fun hc => Language.mem_mul.mpr ⟨_, ⟨_, hc, rfl⟩, [], .inr rfl, rfl⟩
  have haddress : (⟨some [[49]], [[50]], none⟩ : Ipv6).Derives Rfc3986.decOctet := by
    refine ⟨?_, List.forall_mem_singleton.mpr (hgroup (by decide)), by simp, (by decide : 1 + 1 ≤ 7)⟩
    rintro _ ⟨⟩
    exact List.forall_mem_singleton.mpr (hgroup (by decide))
  refine ⟨?_, ?_, ?_, by simp [shortFront], by simp [shortFront]⟩
  · rintro _ ⟨⟩
    refine Language.mem_mul.mpr ⟨[104], ⟨104, by decide, rfl⟩, [116, 116, 112], ?_, rfl⟩
    refine Language.mem_kstar.mpr ⟨[[116], [116], [112]], rfl, ?_⟩
    simp only [List.forall_mem_cons]
    exact ⟨⟨116, by decide, rfl⟩, ⟨116, by decide, rfl⟩, ⟨112, by decide, rfl⟩, by simp⟩
  · rintro _ ⟨⟩
    refine ⟨by simp, Rfc3986.mem_host.mpr (.inl ⟨[49, 58, 58, 50], .inl ?_, rfl⟩), by simp⟩
    exact Rfc3986.mem_ipv6Address.mpr ⟨_, haddress, rfl⟩
  · refine Language.mem_kstar.mpr ⟨[asciiText ['/']], rfl, List.forall_mem_singleton.mpr ?_⟩
    exact (Rfc3986.mem_chr_mul (by decide)).mpr ⟨[], Language.nil_mem_kstar _, rfl⟩

/-- From `http://[1::2]/` nothing is created. -/
theorem not_create_isSome_iff : ¬ ∀ s, (∃ u, create s = .ok (some u)) ↔
    s ∈ Rfc3986.uriReference (Rfc3986.host Rfc3986.decOctet) := by
  intro h
  obtain ⟨u, hu⟩ := (h shortFront.text).mpr (Rfc3986.mem_uriReference.mpr ⟨_, shortFront_derives, rfl⟩)
  have hnone : create shortFront.text = .ok none := by
    decide +kernel
  rw [hnone] at hu
  cases hu

end Uri

end Bobliew
