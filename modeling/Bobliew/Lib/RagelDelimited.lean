import Bobliew.Lib.RagelActions

/-!
# Delimited words

The actions that a machine performs while it reads a word are those of all words that agree with it so far.
In a concatenation whose first part is found again by its delimiter no such word is divided elsewhere, so the
actions are those of the two parts one after the other. Within one part that offers several alternatives the
actions of abandoned alternatives are performed as well.
-/

namespace Ragel

variable {A : Type*}

/-! ## Delimiters -/

/-- Words of two concatenations that agree so far are divided at the same place, or not yet divided. -/
def Delimited (R S : Language UInt8) : Prop :=
  ∀ u ∈ R, ∀ u' ∈ R, ∀ v ∈ S, ∀ v' ∈ S, ∀ y, y <+: u ++ v → y <+: u' ++ v' →
    y <+: u ∧ y <+: u' ∨ u = u' ∧ ∃ z, y = u ++ z ∧ z <+: v ∧ z <+: v'

/-- A prefix that is longer than the first part is that part and some of the second. -/
theorem prefix_append_cases {u v y : List UInt8} (h : y <+: u ++ v) :
    y <+: u ∨ ∃ z, y = u ++ z ∧ z <+: v := by
  rcases Nat.le_total y.length u.length with hlen | hlen
  · exact .inl (List.prefix_of_prefix_length_le h (List.prefix_append u v) hlen)
  · obtain ⟨z, rfl⟩ := List.prefix_of_prefix_length_le (List.prefix_append u v) h hlen
    exact .inr ⟨z, rfl, (List.prefix_append_right_inj u).mp h⟩

/-- The second part begins with bytes that the first part does not have. -/
theorem delimited_of_stops {R S : Language UInt8} (stop : UInt8 → Bool)
    (hR : ∀ u ∈ R, ∀ c ∈ u, stop c = false) (hS : ∀ v ∈ S, ∀ c, v.head? = some c → stop c = true) :
    Delimited R S := by
  have hnot : ∀ u ∈ R, ∀ u' ∈ R, ∀ v' ∈ S, ∀ z', z' ≠ [] → z' <+: v' → ¬ u' ++ z' <+: u := by
    intro u hu u' _ v' hv' z' hz' hpre hle
    obtain ⟨c, z', rfl⟩ := List.exists_cons_of_ne_nil hz'
    obtain ⟨t, rfl⟩ := hpre
    have hc : c ∈ u := hle.subset (List.mem_append_right _ List.mem_cons_self)
    have hstop := hS _ hv' c rfl
    rw [hR u hu c hc] at hstop
    cases hstop
  intro u hu u' hu' v hv v' hv' y hy hy'
  rcases prefix_append_cases hy with hle | ⟨z, rfl, hz⟩
  · rcases prefix_append_cases hy' with hle' | ⟨z', rfl, hz'⟩
    · exact .inl ⟨hle, hle'⟩
    · cases z' with
      | nil =>
        rw [List.append_nil] at hle
        rw [List.append_nil]
        exact .inl ⟨hle, List.prefix_rfl⟩
      | cons d z' => exact absurd hle (hnot u hu u' hu' v' hv' _ (List.cons_ne_nil _ _) hz')
  · rcases prefix_append_cases hy' with hle' | ⟨z', heq, hz'⟩
    · cases z with
      | nil =>
        rw [List.append_nil] at hle'
        rw [List.append_nil]
        exact .inl ⟨List.prefix_rfl, hle'⟩
      | cons d z => exact absurd hle' (hnot u' hu' u hu v hv _ (List.cons_ne_nil _ _) hz)
    · rcases List.append_eq_append_iff.mp heq with ⟨t, rfl, rfl⟩ | ⟨t, rfl, rfl⟩
      · cases t with
        | nil =>
          rw [List.append_nil]
          exact .inr ⟨rfl, z', by rw [List.nil_append], hz, hz'⟩
        | cons d t =>
          have ht : d :: t <+: v := (List.prefix_append _ z').trans hz
          exact absurd List.prefix_rfl (hnot _ hu' u hu v hv _ (List.cons_ne_nil d t) ht)
      · cases t with
        | nil =>
          rw [List.append_nil]
          exact .inr ⟨rfl, z, rfl, hz, hz'⟩
        | cons d t =>
          have ht : d :: t <+: v' := (List.prefix_append _ z).trans hz'
          exact absurd List.prefix_rfl (hnot _ hu u' hu' v' hv' _ (List.cons_ne_nil d t) ht)

/-- The words without some bytes. -/
def avoiding (stops : List UInt8) : Language UInt8 := {w | ∀ c ∈ w, c ∉ stops}

/-- The words that begin with one of some bytes, and the empty word. -/
def startingIn (stops : List UInt8) : Language UInt8 := {w | ∀ c, w.head? = some c → c ∈ stops}

/-- The first of some bytes divides a word. -/
theorem delimited_avoiding (stops : List UInt8) : Delimited (avoiding stops) (startingIn stops) :=
  delimited_of_stops (fun c => decide (c ∈ stops)) (fun _ hu c hc => decide_eq_false (hu c hc))
    fun _ hv c hc => decide_eq_true (hv c hc)

/-- A byte by itself. -/
theorem delimited_single (c : UInt8) (S : Language UInt8) : Delimited {[c]} S := by
  rintro u rfl u' rfl v _ v' _ y hy hy'
  rcases prefix_append_cases hy with hle | ⟨z, rfl, hz⟩
  · exact .inl ⟨hle, hle⟩
  · exact .inr ⟨rfl, z, rfl, hz, (List.prefix_append_right_inj _).mp hy'⟩

/-- Smaller languages are delimited as well. -/
theorem Delimited.mono {R R' S S' : Language UInt8} (h : Delimited R S) (hR : R' ≤ R) (hS : S' ≤ S) :
    Delimited R' S' :=
  fun u hu u' hu' v hv v' hv' => h u (hR hu) u' (hR hu') v (hS hv) v' (hS hv')

/-- A delimited word is divided in one way. -/
theorem Delimited.unique {R S : Language UInt8} (h : Delimited R S) {u u' v v' : List UInt8} (hu : u ∈ R)
    (hu' : u' ∈ R) (hv : v ∈ S) (hv' : v' ∈ S) (heq : u ++ v = u' ++ v') : u = u' ∧ v = v' := by
  rcases h u hu u' hu' v hv v' hv' (u ++ v) List.prefix_rfl (heq ▸ List.prefix_rfl) with ⟨hle, hle'⟩ | ⟨rfl, _⟩
  · have hsame : u = u' := by
      rw [heq] at hle
      exact ((List.prefix_append u v).trans hle').eq_of_length_le (((List.prefix_append u' v').trans hle).length_le)
    subst hsame
    exact ⟨rfl, List.append_cancel_left heq⟩
  · exact ⟨rfl, List.append_cancel_left heq⟩

namespace Rx

variable {r s : Rx A} {u v w : List UInt8} {p : ℕ} {a b b' : A}

/-! ## Actions while a word is read -/

/-- Some word that agrees with `w` up to the byte at `p`, or is `w` if `p` is its end, performs the action
there. -/
def Acts (r : Rx A) (w : List UInt8) (p : ℕ) (a : A) : Prop :=
  p ≤ w.length ∧ ∃ w', w.take (p + 1) <+: w' ∧ (p = w.length → w' = w) ∧ r.Performs w' p a

/-- The actions of a word are performed while it is read. -/
theorem acts_of_performs (h : r.Performs w p a) : r.Acts w p a :=
  ⟨h.mem_lang.2, w, List.take_prefix _ _, fun _ => rfl, h⟩

/-- Of an alternation. -/
theorem acts_alt : (Rx.alt r s).Acts w p a ↔ r.Acts w p a ∨ s.Acts w p a := by
  simp only [Acts, Performs, and_or_left, exists_or]

/-- Of a plain expression. -/
theorem not_acts_of_plain (hr : r.plain = true) : ¬ r.Acts w p a :=
  fun ⟨_, _, _, _, h⟩ => not_performs_of_plain hr h

/-- Of an expression with an entering action. -/
theorem acts_enter (hw : w ∈ r.lang) : (Rx.enter b r).Acts w p a ↔ r.Acts w p a ∨ p = 0 ∧ a = b := by
  constructor
  · rintro ⟨hp, w', hpre, hend, h | ⟨_, rfl, rfl⟩⟩
    · exact .inl ⟨hp, w', hpre, hend, h⟩
    · exact .inr ⟨rfl, rfl⟩
  · rintro (⟨hp, w', hpre, hend, h⟩ | ⟨rfl, rfl⟩)
    · exact ⟨hp, w', hpre, hend, .inl h⟩
    · exact acts_of_performs (.inr ⟨hw, rfl, rfl⟩)

/-- Of an expression with a leaving action. -/
theorem acts_leave (hw : w ∈ r.lang) : (Rx.leave b r).Acts w p a ↔ r.Acts w p a ∨ p = w.length ∧ a = b := by
  constructor
  · rintro ⟨hp, w', hpre, hend, h | ⟨_, rfl, rfl⟩⟩
    · exact .inl ⟨hp, w', hpre, hend, h⟩
    · rcases Nat.lt_or_eq_of_le hp with hlt | heq
      · have hlen := hpre.length_le
        rw [List.length_take] at hlen
        omega
      · exact .inr ⟨heq, rfl⟩
  · rintro (⟨hp, w', hpre, hend, h⟩ | ⟨rfl, rfl⟩)
    · exact ⟨hp, w', hpre, hend, .inl h⟩
    · exact acts_of_performs (.inr ⟨hw, rfl, rfl⟩)

/-- Of a delimited concatenation: those of its parts, one after the other. -/
theorem acts_cat (hd : Delimited r.lang s.lang) (hu : u ∈ r.lang) (hv : v ∈ s.lang) :
    (Rx.cat r s).Acts (u ++ v) p a ↔ r.Acts u p a ∨ ∃ q, p = u.length + q ∧ s.Acts v q a := by
  constructor
  · rintro ⟨hp, w', hpre, hend, u', v', rfl, hcases⟩
    have hu' : u' ∈ r.lang := hcases.elim (fun h => h.1.mem_lang.1) (fun h => h.1)
    have hv' : v' ∈ s.lang := hcases.elim (fun h => h.2) fun ⟨_, q, _, h⟩ => h.mem_lang.1
    rcases Nat.lt_or_eq_of_le hp with hlt | heq
    · have hlen : ((u ++ v).take (p + 1)).length = p + 1 := by
        rw [List.length_take]
        omega
      rcases hd u hu u' hu' v hv v' hv' _ (List.take_prefix _ _) hpre with ⟨hle, hle'⟩ | ⟨rfl, z, hz, hzv, hzv'⟩
      · have hplen : p + 1 ≤ u.length := hlen ▸ hle.length_le
        have hplen' : p + 1 ≤ u'.length := hlen ▸ hle'.length_le
        rcases hcases with ⟨h, _⟩ | ⟨_, q, rfl, h⟩
        · refine .inl ⟨by omega, u', ?_, by omega, h⟩
          rwa [List.take_append_of_le_length hplen] at hle'
        · omega
      · rcases hcases with ⟨h, _⟩ | ⟨_, q, rfl, h⟩
        · exact .inl (acts_of_performs h)
        · rw [List.length_append] at hlt
          have hzlen : z.length = q + 1 := by
            rw [hz, List.length_append] at hlen
            omega
          refine .inr ⟨q, rfl, by omega, v', ?_, by omega, h⟩
          rwa [← hzlen, ← List.prefix_iff_eq_take.mp hzv]
    · obtain ⟨rfl, rfl⟩ := hd.unique hu' hu hv' hv (hend heq)
      rcases hcases with ⟨h, _⟩ | ⟨_, q, rfl, h⟩
      · exact .inl (acts_of_performs h)
      · exact .inr ⟨q, rfl, acts_of_performs h⟩
  · rintro (⟨hp, w', hpre, hend, h⟩ | ⟨q, rfl, hp, w', hpre, hend, h⟩)
    · refine ⟨hp.trans (by rw [List.length_append]; omega), w' ++ v, ?_, fun heq => ?_, w', v, rfl, .inl ⟨h, hv⟩⟩
      · rcases Nat.lt_or_eq_of_le hp with hlt | heq
        · rw [List.take_append_of_le_length hlt]
          exact hpre.trans (List.prefix_append w' v)
        · rw [hend heq]
          exact List.take_prefix _ _
      · rw [List.length_append] at heq
        rw [hend (by omega)]
    · refine ⟨by rw [List.length_append]; omega, u ++ w', ?_, fun heq => ?_, u, w', rfl, .inr ⟨hu, q, rfl, h⟩⟩
      · rw [Nat.add_assoc, List.take_length_add_append]
        exact (List.prefix_append_right_inj u).mpr hpre
      · rw [List.length_append] at heq
        rw [hend (by omega)]

/-- Of an optional first part: what either alternative performs. -/
theorem acts_cat_opt : (Rx.cat (.alt r .empty) s).Acts w p a ↔ (Rx.cat r s).Acts w p a ∨ s.Acts w p a := by
  have hperf : ∀ w', (Rx.cat (.alt r .empty) s).Performs w' p a ↔
      (Rx.cat r s).Performs w' p a ∨ s.Performs w' p a := by
    intro w'
    constructor
    · rintro ⟨u, v, rfl, ⟨h | h, hv⟩ | ⟨hu | hu, q, rfl, h⟩⟩
      · exact .inl ⟨u, v, rfl, .inl ⟨h, hv⟩⟩
      · cases h
      · exact .inl ⟨u, v, rfl, .inr ⟨hu, q, rfl, h⟩⟩
      · obtain rfl := mem_lang_empty.mp hu
        rw [List.length_nil, Nat.zero_add]
        exact .inr h
    · rintro (⟨u, v, rfl, ⟨h, hv⟩ | ⟨hu, q, rfl, h⟩⟩ | h)
      · exact ⟨u, v, rfl, .inl ⟨.inl h, hv⟩⟩
      · exact ⟨u, v, rfl, .inr ⟨.inl hu, q, rfl, h⟩⟩
      · exact ⟨[], w', rfl, .inr ⟨.inr (mem_lang_empty.mpr rfl), p, (Nat.zero_add p).symm, h⟩⟩
  simp only [Acts, hperf, and_or_left, exists_or]

/-- Of concatenations grouped to the left or to the right. -/
theorem acts_cat_assoc {t : Rx A} : (Rx.cat (.cat r s) t).Acts w p a ↔ (Rx.cat r (.cat s t)).Acts w p a := by
  have hperf : ∀ w', (Rx.cat (.cat r s) t).Performs w' p a ↔ (Rx.cat r (.cat s t)).Performs w' p a := by
    intro w'
    constructor
    · rintro ⟨_, z, rfl, ⟨⟨u, v, rfl, ⟨h, hv⟩ | ⟨hu, q, rfl, h⟩⟩, hz⟩ | ⟨huv, q, rfl, h⟩⟩
      · exact ⟨u, v ++ z, (List.append_assoc u v z).symm, .inl ⟨h, mem_lang_cat.mpr ⟨v, hv, z, hz, rfl⟩⟩⟩
      · exact ⟨u, v ++ z, (List.append_assoc u v z).symm, .inr ⟨hu, q, rfl, v, z, rfl, .inl ⟨h, hz⟩⟩⟩
      · obtain ⟨u, hu, v, hv, rfl⟩ := mem_lang_cat.mp huv
        refine ⟨u, v ++ z, (List.append_assoc u v z).symm,
          .inr ⟨hu, v.length + q, ?_, v, z, rfl, .inr ⟨hv, q, rfl, h⟩⟩⟩
        rw [List.length_append, Nat.add_assoc]
    · rintro ⟨u, _, rfl, ⟨h, hvz⟩ | ⟨hu, q, rfl, v, z, rfl, ⟨h, hz⟩ | ⟨hv, q', rfl, h⟩⟩⟩
      · obtain ⟨v, hv, z, hz, rfl⟩ := mem_lang_cat.mp hvz
        exact ⟨u ++ v, z, List.append_assoc u v z, .inl ⟨⟨u, v, rfl, .inl ⟨h, hv⟩⟩, hz⟩⟩
      · exact ⟨u ++ v, z, List.append_assoc u v z, .inl ⟨⟨u, v, rfl, .inr ⟨hu, q, rfl, h⟩⟩, hz⟩⟩
      · refine ⟨u ++ v, z, List.append_assoc u v z, .inr ⟨mem_lang_cat.mpr ⟨u, hu, v, hv, rfl⟩, q', ?_, h⟩⟩
        rw [List.length_append, Nat.add_assoc]
  simp only [Acts, hperf]

/-- Of a plain expression between an entering and a leaving action. -/
theorem acts_marked (hr : r.plain = true) (hw : w ∈ r.lang) :
    (Rx.leave b (.enter b' r)).Acts w p a ↔ p = 0 ∧ a = b' ∨ p = w.length ∧ a = b := by
  rw [acts_leave (r := Rx.enter b' r) hw, acts_enter hw]
  simp [not_acts_of_plain hr]

/-- Behind a byte. -/
theorem acts_byte_cat {c : UInt8} (hv : v ∈ s.lang) :
    (Rx.cat (.byte (.range c.toNat c.toNat)) s).Acts (c :: v) p a ↔ ∃ q, p = q + 1 ∧ s.Acts v q a := by
  have hlang : (Rx.byte (.range c.toNat c.toNat) : Rx A).lang = {[c]} := by
    ext w
    constructor
    · rintro ⟨d, hd, rfl⟩
      rw [UInt8.toNat_inj.mp (ByteSet.has_one.mp hd)]
      exact Set.mem_singleton _
    · rintro rfl
      exact ⟨c, ByteSet.has_one.mpr rfl, rfl⟩
  rw [← List.singleton_append, acts_cat (hlang ▸ delimited_single c _) (hlang ▸ Set.mem_singleton _) hv,
    List.length_singleton]
  have hbyte : ¬ (Rx.byte (.range c.toNat c.toNat) : Rx A).Acts [c] p a := fun ⟨_, _, _, _, h⟩ => h
  simp only [hbyte, false_or, Nat.add_comm 1]

/-- A word of a byte and something behind it is not empty. -/
theorem not_acts_byte_cat_nil {set : ByteSet} : ¬ (Rx.cat (.byte set) s).Acts [] p a := by
  rintro ⟨hp, w', _, hend, h⟩
  obtain rfl := hend (Nat.le_zero.mp hp)
  obtain ⟨u, ⟨c, _, rfl⟩, v, _, hnil⟩ := mem_lang_cat.mp h.mem_lang.1
  cases hnil

/-! ## Actions behind a byte -/

/-- Every action comes behind one of some bytes. -/
def Heralded (stops : List UInt8) (r : Rx A) : Prop :=
  ∀ w p a, r.Performs w p a → ∃ c ∈ w.take p, c ∈ stops

variable {stops : List UInt8}

/-- Of a plain expression. -/
theorem heralded_of_plain (hr : r.plain = true) : r.Heralded stops :=
  fun _ _ _ h => absurd h (not_performs_of_plain hr)

/-- Of an alternation. -/
theorem Heralded.alt (hr : r.Heralded stops) (hs : s.Heralded stops) : (Rx.alt r s).Heralded stops :=
  fun w p a h => h.elim (hr w p a) (hs w p a)

/-- Of a concatenation. -/
theorem Heralded.cat (hr : r.Heralded stops) (hs : s.Heralded stops) : (Rx.cat r s).Heralded stops := by
  rintro _ p a ⟨u, v, rfl, ⟨h, _⟩ | ⟨_, q, rfl, h⟩⟩
  · obtain ⟨c, hc, hstop⟩ := hr u p a h
    rw [List.take_append_of_le_length h.mem_lang.2]
    exact ⟨c, hc, hstop⟩
  · obtain ⟨c, hc, hstop⟩ := hs v q a h
    rw [List.take_length_add_append]
    exact ⟨c, List.mem_append_right _ hc, hstop⟩

/-- Of an expression behind one of the bytes. -/
theorem heralded_byte_cat {c : UInt8} (hc : c ∈ stops) (s : Rx A) :
    (Rx.cat (.byte (.range c.toNat c.toNat)) s).Heralded stops := by
  rintro _ p a ⟨u, v, rfl, ⟨h, _⟩ | ⟨⟨d, hd, rfl⟩, q, rfl, _⟩⟩
  · cases h
  · refine ⟨c, ?_, hc⟩
    rw [UInt8.toNat_inj.mp (ByteSet.has_one.mp hd), Nat.add_comm]
    exact List.mem_cons_self

/-- The leaving actions of a first part, and what is performed behind it, come behind its words. -/
theorem exists_of_performs_leave (hr : r.plain = true) (h : (Rx.cat (.leave b r) s).Performs w p a) :
    ∃ u ∈ r.lang, ∃ v ∈ s.lang, w = u ++ v ∧ u.length ≤ p := by
  obtain ⟨u, v, rfl, ⟨h | ⟨hu, rfl, _⟩, hv⟩ | ⟨hu, q, rfl, h⟩⟩ := h
  · exact absurd h (not_performs_of_plain hr)
  · exact ⟨u, hu, v, hv, rfl, Nat.le_refl _⟩
  · exact ⟨u, hu, v, h.mem_lang.1, rfl, Nat.le_add_right _ _⟩

/-- A word that agrees with another one up to the byte at a position agrees with its beginnings up to there. -/
theorem prefix_of_acts {w' x : List UInt8} (hp : p ≤ w.length) (hpre : w.take (p + 1) <+: w')
    (hend : p = w.length → w' = w) (hx : x <+: w') (hlen : x.length ≤ p + 1) : x <+: w := by
  rcases Nat.lt_or_eq_of_le hp with hlt | heq
  · refine (List.prefix_of_prefix_length_le hx hpre ?_).trans (List.take_prefix _ _)
    rw [List.length_take]
    omega
  · rwa [hend heq] at hx

end Rx

/-! ## Reading a word -/

section Ran

variable [DecidableEq A] {σ : Type*} {act : ℕ → A → σ → σ} {r : Thread A} {s₀ s : σ} {w : List UInt8} {p q : ℕ}

/-- The machine has performed the actions before the position, those at the end of the buffer being at the
position of the end, and the state of the actions is this one. -/
def Ran (act : ℕ → A → σ → σ) (r : Thread A) (s₀ : σ) (w : List UInt8) (p : ℕ) (s : σ) : Prop :=
  p ≤ w.length ∧ Reads act r s₀ (w.take p) s ∨
    p = w.length + 1 ∧ ∃ ts, execEof act w ⟨some [r], 0, s₀, false⟩ = ⟨some ts, w.length, s, false⟩ ∧
      isFinal ts = true

/-- These are the actions at a position, in the order of their stamps. -/
structure ActsExactly (r : Thread A) (w : List UInt8) (p : ℕ) (l : List (ℕ × A)) : Prop where
  sorted : l.Pairwise fun x y => x.1 < y.1
  mem_iff : ∀ x, x ∈ l ↔ r.Acts w p x

/-- The first byte has not been read. -/
theorem ran_zero (hr : r.tame = true) (act : ℕ → A → σ → σ) (s₀ : σ) (w : List UInt8) : Ran act r s₀ w 0 s₀ :=
  .inl ⟨Nat.zero_le _, .nil hr s₀⟩

/-- The actions at a position are performed. -/
theorem Ran.step (h : Ran act r s₀ w p s) (hw : w ∈ r.lang) (hp : p ≤ w.length) {l : List (ℕ × A)}
    (hl : ActsExactly r w p l) : Ran act r s₀ w (p + 1) (performAt act p (keepFirst (l.map (·.2))) s) := by
  rcases h with ⟨_, hreads⟩ | ⟨rfl, _⟩
  · rcases Nat.lt_or_eq_of_le hp with hlt | rfl
    · have htake : w.take p ++ [w[p]] = w.take (p + 1) := List.take_concat_get' w p hlt
      have hlen : (w.take p).length = p := by
        rw [List.length_take]
        omega
      have hon : PerformsOn r (w.take p) w[p] l := by
        refine ⟨hl.sorted, fun x => (hl.mem_iff x).trans ?_⟩
        constructor
        · rintro ⟨_, w', ⟨zs, rfl⟩, _, hx⟩
          refine ⟨zs, ?_⟩
          rwa [hlen, ← List.singleton_append, ← List.append_assoc, htake]
        · rintro ⟨zs, hx⟩
          rw [hlen, ← List.singleton_append, ← List.append_assoc, htake] at hx
          exact ⟨hp, _, List.prefix_append _ zs, by omega, hx⟩
      have hsome : ∃ zs, w.take p ++ w[p] :: zs ∈ r.lang := by
        refine ⟨w.drop (p + 1), ?_⟩
        rwa [← List.singleton_append, ← List.append_assoc, htake, List.take_append_drop]
      have hnext := hreads.snoc_of_performsOn hsome hon
      rw [htake, hlen] at hnext
      exact .inl ⟨hlt, hnext⟩
    · rw [List.take_length] at hreads
      have hbehind : PerformsBehind r w l := by
        refine ⟨hl.sorted, fun x => (hl.mem_iff x).trans ?_⟩
        constructor
        · rintro ⟨_, w', _, hend, hx⟩
          rwa [hend rfl] at hx
        · exact fun hx => Rx.acts_of_performs hx
      obtain ⟨ts, hexec, hfinal⟩ := hreads.execEof_eq hbehind
      exact .inr ⟨rfl, ts, hexec, hfinal.mpr hw⟩
  · omega

/-- The machine has read a word when all its actions are performed. -/
theorem Ran.finished (h : Ran act r s₀ w (w.length + 1) s) :
    ∃ ts, execEof act w ⟨some [r], 0, s₀, false⟩ = ⟨some ts, w.length, s, false⟩ ∧ isFinal ts = true := by
  rcases h with ⟨hle, _⟩ | ⟨_, hfinished⟩
  · omega
  · exact hfinished

end Ran

end Ragel
