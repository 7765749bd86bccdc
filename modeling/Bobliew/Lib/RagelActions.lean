import Bobliew.Lib.RagelLanguage

/-!
# The actions of a machine

Which actions a machine performs follows from the words of its expression alone. An embedded action is
performed at a position of a word: an entering action where its operand begins, a leaving action where
its operand ends. On a byte the machine performs every action that some word with the same bytes up to
there performs at that position, and at the end of the buffer every action that the word itself performs
behind its last byte.

The expressions are those without finishing actions and priorities, whose repetitions perform nothing
and whose byte sets are not empty. A byte set without a byte would leave threads behind that no word
accounts for.
-/

namespace Ragel

variable {A : Type*}

/-! ## Words and transitions -/

/-- The set has a byte. -/
def ByteSet.inhabited : ByteSet → Bool
  | .range lo hi => Nat.ble lo hi && Nat.ble hi 255
  | .union s t => s.inhabited && t.inhabited
  | .diff s t => (List.range 256).any fun n => (ByteSet.diff s t).has (UInt8.ofNat n)

/-- A set that was found to have a byte. -/
theorem ByteSet.exists_of_inhabited {s : ByteSet} (h : s.inhabited = true) : ∃ c, s.has c = true := by
  induction s with
  | range lo hi =>
    rw [inhabited, Bool.and_eq_true, Nat.ble_eq, Nat.ble_eq] at h
    refine ⟨UInt8.ofNat hi, ?_⟩
    have hhi : (UInt8.ofNat hi).toNat = hi := by
      rw [UInt8.toNat_ofNat']
      omega
    rw [has, hhi, Bool.and_eq_true, Nat.ble_eq, Nat.ble_eq]
    exact ⟨h.1, Nat.le_refl hi⟩
  | union s t ihs _ =>
    rw [inhabited, Bool.and_eq_true] at h
    obtain ⟨c, hc⟩ := ihs h.1
    exact ⟨c, by rw [has, hc, Bool.true_or]⟩
  | diff s t _ _ =>
    obtain ⟨n, _, hn⟩ := List.any_eq_true.mp h
    exact ⟨UInt8.ofNat n, hn⟩

namespace Rx

/-- No actions and no priorities. -/
def plain : Rx A → Bool
  | .empty => true
  | .byte s => s.inhabited
  | .alt r s => r.plain && s.plain
  | .cat r s => r.plain && s.plain
  | .star r => r.plain
  | _ => false

/-- Entering and leaving actions outside repetitions only, and no priorities. -/
def tame : Rx A → Bool
  | .empty => true
  | .byte s => s.inhabited
  | .alt r s => r.tame && s.tame
  | .cat r s => r.tame && s.tame
  | .star r => r.plain
  | .enter _ r => r.tame
  | .leave _ r => r.tame
  | _ => false

/-- Some derivation of the word performs the action at the position: the action comes before the byte at
this position, or behind the word. -/
def Performs : Rx A → List UInt8 → ℕ → A → Prop
  | .alt r s, w, p, a => r.Performs w p a ∨ s.Performs w p a
  | .cat r s, w, p, a => ∃ u v, u ++ v = w ∧
      (r.Performs u p a ∧ v ∈ s.lang ∨ u ∈ r.lang ∧ ∃ q, p = u.length + q ∧ s.Performs v q a)
  | .enter b r, w, p, a => r.Performs w p a ∨ w ∈ r.lang ∧ p = 0 ∧ a = b
  | .leave b r, w, p, a => r.Performs w p a ∨ w ∈ r.lang ∧ p = w.length ∧ a = b
  | _, _, _, _ => False

variable {r s : Rx A} {c : UInt8} {u v w : List UInt8} {p : ℕ} {a b : A}

@[simp] theorem mem_lang_enter : w ∈ (Rx.enter b r).lang ↔ w ∈ r.lang := Iff.rfl

@[simp] theorem mem_lang_leave : w ∈ (Rx.leave b r).lang ↔ w ∈ r.lang := Iff.rfl

/-- The expression accepts the empty word if it can be left at once. -/
theorem nil_mem_lang : [] ∈ r.lang ↔ r.null.isSome = true := by
  induction r with
  | empty => simp [null]
  | byte s => simp [null]
  | alt r s ihr ihs =>
    rw [mem_lang_alt, ihr, ihs, null]
    cases r.null <;> cases s.null <;> simp
  | cat r s ihr ihs =>
    have hboth : [] ∈ (Rx.cat r s).lang ↔ [] ∈ r.lang ∧ [] ∈ s.lang := by
      simp [mem_lang_cat, List.append_eq_nil_iff]
    rw [hboth, ihr, ihs, null]
    cases r.null <;> cases s.null <;> simp
  | star r _ => exact iff_of_true (Language.nil_mem_kstar _) rfl
  | enter b r ih =>
    rw [null, Option.isSome_map]
    exact ih
  | leave b r ih =>
    rw [null, Option.isSome_map]
    exact ih
  | finish b r ih => exact ih
  | prioAll _ _ r ih => exact ih
  | prioEnter _ _ r ih => exact ih
  | prioFinish _ _ r ih => exact ih

/-- Concatenation with a finished left operand dropped has the words of the concatenation. -/
theorem lang_followedBy : (r.followedBy s).lang = (Rx.cat r s).lang := by
  rcases followedBy_cases r s with ⟨rfl, h⟩ | h
  · rw [h]
    exact (one_mul s.lang).symm
  · rw [h]

/-- The words of a concatenation that begin with a byte: the byte belongs to the first part, or the first
part is empty. -/
theorem cons_mem_lang_cat : c :: w ∈ (Rx.cat r s).lang ↔
    (∃ u v, u ++ v = w ∧ c :: u ∈ r.lang ∧ v ∈ s.lang) ∨ [] ∈ r.lang ∧ c :: w ∈ s.lang := by
  rw [mem_lang_cat]
  constructor
  · rintro ⟨u, hu, v, hv, h⟩
    cases u with
    | nil =>
      obtain rfl : v = c :: w := h
      exact .inr ⟨hu, hv⟩
    | cons d u =>
      obtain ⟨rfl, hw⟩ := List.cons_eq_cons.mp h
      exact .inl ⟨u, v, hw, hu, hv⟩
  · rintro (⟨u, v, rfl, hu, hv⟩ | ⟨hr, hs⟩)
    · exact ⟨c :: u, hu, v, hv, rfl⟩
    · exact ⟨[], hr, c :: w, hs, rfl⟩

/-- The words of a repetition that begin with a byte. -/
theorem cons_mem_lang_star : c :: w ∈ (Rx.star r).lang ↔
    ∃ u v, u ++ v = w ∧ c :: u ∈ r.lang ∧ v ∈ (Rx.star r).lang := by
  constructor
  · intro h
    obtain ⟨ws, hws, hmem⟩ := Language.mem_kstar_iff_exists_nonempty.mp h
    cases ws with
    | nil => cases hws
    | cons x ws =>
      obtain ⟨hx, hne⟩ := hmem x List.mem_cons_self
      cases x with
      | nil => exact absurd rfl hne
      | cons d u =>
        obtain ⟨rfl, hw⟩ := List.cons_eq_cons.mp hws
        refine ⟨u, ws.flatten, hw.symm, hx, mem_lang_star.mpr ⟨ws, rfl, fun y hy => ?_⟩⟩
        exact (hmem y (List.mem_cons_of_mem _ hy)).1
  · rintro ⟨u, v, rfl, hu, hv⟩
    obtain ⟨ws, rfl, hws⟩ := mem_lang_star.mp hv
    exact mem_lang_star.mpr ⟨(c :: u) :: ws, rfl, List.forall_mem_cons.mpr ⟨hu, hws⟩⟩

/-- The words that begin with a byte are those that follow its transitions. -/
theorem cons_mem_lang : c :: w ∈ r.lang ↔ ∃ e ∈ r.der c, w ∈ e.cont.lang := by
  induction r generalizing w with
  | empty => simp [der]
  | byte s =>
    simp only [mem_lang_byte, mem_der_byte]
    constructor
    · rintro ⟨d, hd, h⟩
      obtain ⟨rfl, rfl⟩ := List.cons_eq_cons.mp h
      exact ⟨_, ⟨hd, rfl⟩, mem_lang_empty.mpr rfl⟩
    · rintro ⟨e, ⟨hc, rfl⟩, h⟩
      obtain rfl := mem_lang_empty.mp h
      exact ⟨c, hc, rfl⟩
  | alt r s ihr ihs =>
    rw [mem_lang_alt, ihr, ihs]
    simp only [mem_der_alt, or_and_right, exists_or]
  | cat r s ihr ihs =>
    rw [cons_mem_lang_cat]
    constructor
    · rintro (⟨u, v, rfl, hu, hv⟩ | ⟨hr, hs⟩)
      · obtain ⟨e, he, hcont⟩ := ihr.mp hu
        refine ⟨_, mem_der_cat_of_left he, ?_⟩
        rw [lang_followedBy]
        exact mem_lang_cat.mpr ⟨u, hcont, v, hv, rfl⟩
      · obtain ⟨out, hout⟩ := Option.isSome_iff_exists.mp (nil_mem_lang.mp hr)
        obtain ⟨e, he, hcont⟩ := ihs.mp hs
        exact ⟨_, mem_der_cat_of_right hout he, hcont⟩
    · rintro ⟨e, he, hw⟩
      rcases mem_der_cat.mp he with ⟨e', he', rfl⟩ | ⟨out, hout, e', he', rfl⟩
      · dsimp only at hw
        rw [lang_followedBy] at hw
        obtain ⟨u, hu, v, hv, rfl⟩ := mem_lang_cat.mp hw
        exact .inl ⟨u, v, rfl, ihr.mpr ⟨e', he', hu⟩, hv⟩
      · exact .inr ⟨nil_mem_lang.mpr (by rw [hout]; rfl), ihs.mpr ⟨e', he', hw⟩⟩
  | star r ih =>
    rw [cons_mem_lang_star]
    constructor
    · rintro ⟨u, v, rfl, hu, hv⟩
      obtain ⟨e, he, hcont⟩ := ih.mp hu
      refine ⟨_, mem_der_star.mpr ⟨e, he, rfl⟩, ?_⟩
      rw [lang_followedBy]
      exact mem_lang_cat.mpr ⟨u, hcont, v, hv, rfl⟩
    · rintro ⟨e, he, hw⟩
      obtain ⟨e', he', rfl⟩ := mem_der_star.mp he
      rw [lang_followedBy] at hw
      obtain ⟨u, hu, v, hv, rfl⟩ := mem_lang_cat.mp hw
      exact ⟨u, v, rfl, ih.mpr ⟨e', he', hu⟩, hv⟩
  | enter b r ih => exact ih.trans (by simp [der])
  | leave b r ih => exact ih.trans (by simp [der, lang])
  | finish b r ih => exact ih.trans (by simp [der, lang])
  | prioAll _ _ r ih => exact ih.trans (by simp [der, lang])
  | prioEnter _ _ r ih => exact ih.trans (by simp [der])
  | prioFinish _ _ r ih => exact ih.trans (by simp [der, lang])

/-! ## Actions and transitions -/

/-- Only words of the expression perform actions, up to their ends. -/
theorem Performs.mem_lang (h : r.Performs w p a) : w ∈ r.lang ∧ p ≤ w.length := by
  induction r generalizing w p with
  | alt r s ihr ihs =>
    rcases h with h | h
    · exact ⟨mem_lang_alt.mpr (.inl (ihr h).1), (ihr h).2⟩
    · exact ⟨mem_lang_alt.mpr (.inr (ihs h).1), (ihs h).2⟩
  | cat r s ihr ihs =>
    obtain ⟨u, v, rfl, ⟨hu, hv⟩ | ⟨hu, q, rfl, hv⟩⟩ := h
    · refine ⟨mem_lang_cat.mpr ⟨u, (ihr hu).1, v, hv, rfl⟩, ?_⟩
      rw [List.length_append]
      exact (ihr hu).2.trans (Nat.le_add_right _ _)
    · refine ⟨mem_lang_cat.mpr ⟨u, hu, v, (ihs hv).1, rfl⟩, ?_⟩
      rw [List.length_append]
      exact Nat.add_le_add_left (ihs hv).2 _
  | enter b r ih =>
    rcases h with h | ⟨hw, rfl, _⟩
    · exact ih h
    · exact ⟨hw, Nat.zero_le _⟩
  | leave b r ih =>
    rcases h with h | ⟨hw, rfl, _⟩
    · exact ih h
    · exact ⟨hw, Nat.le_refl _⟩
  | _ => cases h

/-- A plain expression performs nothing. -/
theorem not_performs_of_plain (hr : r.plain = true) : ¬ r.Performs w p a := by
  induction r generalizing w p with
  | alt r s ihr ihs =>
    rw [plain, Bool.and_eq_true] at hr
    rintro (h | h)
    · exact ihr hr.1 h
    · exact ihs hr.2 h
  | cat r s ihr ihs =>
    rw [plain, Bool.and_eq_true] at hr
    rintro ⟨u, v, _, ⟨h, _⟩ | ⟨_, q, _, h⟩⟩
    · exact ihr hr.1 h
    · exact ihs hr.2 h
  | enter b r _ => cases hr
  | leave b r _ => cases hr
  | _ => exact id

/-- A plain expression is tame. -/
theorem tame_of_plain (hr : r.plain = true) : r.tame = true := by
  induction r with
  | alt r s ihr ihs =>
    rw [plain, Bool.and_eq_true] at hr
    rw [tame, ihr hr.1, ihs hr.2, Bool.and_self]
  | cat r s ihr ihs =>
    rw [plain, Bool.and_eq_true] at hr
    rw [tame, ihr hr.1, ihs hr.2, Bool.and_self]
  | empty => rfl
  | byte s => exact hr
  | star r _ => exact hr
  | _ => cases hr

/-- A tame expression has words. -/
theorem exists_mem_lang (hr : r.tame = true) : ∃ w, w ∈ r.lang := by
  induction r with
  | empty => exact ⟨[], mem_lang_empty.mpr rfl⟩
  | byte s =>
    obtain ⟨c, hc⟩ := ByteSet.exists_of_inhabited hr
    exact ⟨[c], c, hc, rfl⟩
  | alt r s ihr _ =>
    rw [tame, Bool.and_eq_true] at hr
    obtain ⟨w, hw⟩ := ihr hr.1
    exact ⟨w, mem_lang_alt.mpr (.inl hw)⟩
  | cat r s ihr ihs =>
    rw [tame, Bool.and_eq_true] at hr
    obtain ⟨u, hu⟩ := ihr hr.1
    obtain ⟨v, hv⟩ := ihs hr.2
    exact ⟨u ++ v, mem_lang_cat.mpr ⟨u, hu, v, hv, rfl⟩⟩
  | star r _ => exact ⟨[], Language.nil_mem_kstar _⟩
  | enter b r ih => exact ih hr
  | leave b r ih => exact ih hr
  | _ => cases hr

variable {e : Edge A}

/-- A plain expression embeds no action. -/
theorem actsIn_of_plain (hr : r.plain = true) : r.actsIn (fun _ => false) = true := by
  induction r with
  | alt r s ihr ihs =>
    rw [plain, Bool.and_eq_true] at hr
    rw [actsIn, ihr hr.1, ihs hr.2, Bool.and_self]
  | cat r s ihr ihs =>
    rw [plain, Bool.and_eq_true] at hr
    rw [actsIn, ihr hr.1, ihs hr.2, Bool.and_self]
  | empty => rfl
  | byte s => rfl
  | star r ih => exact ih hr
  | _ => cases hr

/-- What follows a transition of a plain expression is plain. -/
theorem plain_der (hr : r.plain = true) (he : e ∈ r.der c) : e.prios = [] ∧ e.cont.plain = true := by
  have hcat : ∀ {r s : Rx A}, r.plain = true → s.plain = true → (r.followedBy s).plain = true := by
    intro r s hr hs
    rcases followedBy_cases r s with ⟨_, h⟩ | h
    · rwa [h]
    · rw [h, plain, hr, hs, Bool.and_self]
  induction r generalizing e with
  | empty => cases he
  | byte s =>
    obtain ⟨_, rfl⟩ := mem_der_byte.mp he
    exact ⟨rfl, rfl⟩
  | alt r s ihr ihs =>
    rw [plain, Bool.and_eq_true] at hr
    rcases mem_der_alt.mp he with he | he
    · exact ihr hr.1 he
    · exact ihs hr.2 he
  | cat r s ihr ihs =>
    rw [plain, Bool.and_eq_true] at hr
    rcases mem_der_cat.mp he with ⟨e', he', rfl⟩ | ⟨out, _, e', he', rfl⟩
    · exact ⟨(ihr hr.1 he').1, hcat (ihr hr.1 he').2 hr.2⟩
    · obtain ⟨hprios, hcont⟩ := ihs hr.2 he'
      exact ⟨hprios, hcont⟩
  | star r ih =>
    obtain ⟨e', he', rfl⟩ := mem_der_star.mp he
    exact ⟨(ih hr he').1, hcat (ih hr he').2 hr⟩
  | _ => cases hr

/-- What follows a transition of a tame expression is tame. -/
theorem tame_der (hr : r.tame = true) (he : e ∈ r.der c) : e.prios = [] ∧ e.cont.tame = true := by
  have hcat : ∀ {r s : Rx A}, r.tame = true → s.tame = true → (r.followedBy s).tame = true := by
    intro r s hr hs
    rcases followedBy_cases r s with ⟨_, h⟩ | h
    · rwa [h]
    · rw [h, tame, hr, hs, Bool.and_self]
  induction r generalizing e with
  | empty => cases he
  | byte s =>
    obtain ⟨_, rfl⟩ := mem_der_byte.mp he
    exact ⟨rfl, rfl⟩
  | alt r s ihr ihs =>
    rw [tame, Bool.and_eq_true] at hr
    rcases mem_der_alt.mp he with he | he
    · exact ihr hr.1 he
    · exact ihs hr.2 he
  | cat r s ihr ihs =>
    rw [tame, Bool.and_eq_true] at hr
    rcases mem_der_cat.mp he with ⟨e', he', rfl⟩ | ⟨out, _, e', he', rfl⟩
    · exact ⟨(ihr hr.1 he').1, hcat (ihr hr.1 he').2 hr.2⟩
    · obtain ⟨hprios, hcont⟩ := ihs hr.2 he'
      exact ⟨hprios, hcont⟩
  | star r _ =>
    obtain ⟨hprios, hcont⟩ := plain_der (r := Rx.star r) hr he
    exact ⟨hprios, tame_of_plain hcont⟩
  | enter b r ih =>
    obtain ⟨e', he', rfl⟩ := List.mem_map.mp he
    obtain ⟨hprios, hcont⟩ := ih hr he'
    exact ⟨hprios, hcont⟩
  | leave b r ih =>
    obtain ⟨e', he', rfl⟩ := List.mem_map.mp he
    obtain ⟨hprios, hcont⟩ := ih hr he'
    exact ⟨hprios, hcont⟩
  | _ => cases hr

/-- Concatenation with a finished left operand dropped performs what the concatenation performs. -/
theorem performs_followedBy : (r.followedBy s).Performs w p a ↔ (Rx.cat r s).Performs w p a := by
  rcases followedBy_cases r s with ⟨rfl, h⟩ | h
  · rw [h]
    constructor
    · intro hs
      exact ⟨[], w, rfl, .inr ⟨mem_lang_empty.mpr rfl, p, (Nat.zero_add p).symm, hs⟩⟩
    · rintro ⟨u, v, rfl, ⟨h, _⟩ | ⟨hu, q, rfl, hs⟩⟩
      · cases h
      · obtain rfl := mem_lang_empty.mp hu
        rwa [List.length_nil, Nat.zero_add]
  · rw [h]

/-- On the empty word the leaving actions are performed. -/
theorem performs_nil (hr : r.tame = true) : r.Performs [] p a ↔ p = 0 ∧ a ∈ r.null.getD [] := by
  induction r generalizing p with
  | empty => simp [Performs, null]
  | byte s => simp [Performs, null]
  | alt r s ihr ihs =>
    rw [tame, Bool.and_eq_true] at hr
    rw [Performs, ihr hr.1, ihs hr.2, null]
    cases r.null <;> cases s.null <;> simp [← and_or_left]
  | cat r s ihr ihs =>
    rw [tame, Bool.and_eq_true] at hr
    have hsplit : (Rx.cat r s).Performs [] p a ↔
        r.Performs [] p a ∧ [] ∈ s.lang ∨ [] ∈ r.lang ∧ s.Performs [] p a := by
      simp [Performs, List.append_eq_nil_iff]
    rw [hsplit, ihr hr.1, ihs hr.2, nil_mem_lang, nil_mem_lang, null]
    cases r.null <;> cases s.null <;> simp [← and_or_left]
  | star r _ =>
    have hout : ∀ b, b ∉ r.null.getD [] := by
      intro b hb
      cases hnull : r.null with
      | none => simp [hnull] at hb
      | some out =>
        rw [hnull] at hb
        exact absurd (actsIn_null (actsIn_of_plain hr) hnull b hb) Bool.false_ne_true
    simp only [Performs, null, Option.getD_some, false_iff, not_and]
    exact fun _ => hout a
  | enter b r ih =>
    rw [Performs, ih hr, nil_mem_lang, null]
    cases r.null <;> simp [← and_or_left, or_comm]
  | leave b r ih =>
    rw [Performs, ih hr, nil_mem_lang, null]
    cases r.null <;> simp [← and_or_left]
  | _ => cases hr

/-- On the first byte a transition performs its actions, if a word follows it. -/
theorem performs_cons_zero (hr : r.tame = true) :
    r.Performs (c :: w) 0 a ↔ ∃ e ∈ r.der c, a ∈ e.acts ∧ w ∈ e.cont.lang := by
  induction r generalizing w with
  | empty => simp [Performs, der]
  | byte s =>
    simp only [Performs, mem_der_byte, false_iff]
    rintro ⟨e, ⟨_, rfl⟩, ha, _⟩
    cases ha
  | alt r s ihr ihs =>
    rw [tame, Bool.and_eq_true] at hr
    rw [Performs, ihr hr.1, ihs hr.2]
    simp only [mem_der_alt, or_and_right, exists_or]
  | cat r s ihr ihs =>
    rw [tame, Bool.and_eq_true] at hr
    constructor
    · rintro ⟨u, v, h, hcases⟩
      cases u with
      | nil =>
        obtain rfl : v = c :: w := h
        rcases hcases with ⟨hout, hs⟩ | ⟨hr', q, hq, hs⟩
        · obtain ⟨_, ha⟩ := (performs_nil hr.1).mp hout
          obtain ⟨e, he, hcont⟩ := cons_mem_lang.mp hs
          cases hnull : r.null with
          | none => simp [hnull] at ha
          | some out =>
            rw [hnull] at ha
            exact ⟨_, mem_der_cat_of_right hnull he, List.mem_append_left _ ha, hcont⟩
        · obtain rfl : q = 0 := by simpa using hq.symm
          obtain ⟨e, he, ha, hcont⟩ := (ihs hr.2).mp hs
          obtain ⟨out, hout⟩ := Option.isSome_iff_exists.mp (nil_mem_lang.mp hr')
          exact ⟨_, mem_der_cat_of_right hout he, List.mem_append_right _ ha, hcont⟩
      | cons d u =>
        obtain ⟨rfl, rfl⟩ := List.cons_eq_cons.mp h
        rcases hcases with ⟨hu, hv⟩ | ⟨_, q, hq, _⟩
        · obtain ⟨e, he, ha, hcont⟩ := (ihr hr.1).mp hu
          refine ⟨_, mem_der_cat_of_left he, ha, ?_⟩
          rw [lang_followedBy]
          exact mem_lang_cat.mpr ⟨u, hcont, v, hv, rfl⟩
        · rw [List.length_cons] at hq
          omega
    · rintro ⟨e, he, ha, hw⟩
      rcases mem_der_cat.mp he with ⟨e', he', rfl⟩ | ⟨out, hout, e', he', rfl⟩
      · dsimp only at hw
        rw [lang_followedBy] at hw
        obtain ⟨u, hu, v, hv, rfl⟩ := mem_lang_cat.mp hw
        exact ⟨c :: u, v, rfl, .inl ⟨(ihr hr.1).mpr ⟨e', he', ha, hu⟩, hv⟩⟩
      · rcases List.mem_append.mp ha with ha | ha
        · refine ⟨[], c :: w, rfl, .inl ⟨(performs_nil hr.1).mpr ⟨rfl, ?_⟩, cons_mem_lang.mpr ⟨e', he', hw⟩⟩⟩
          rwa [hout]
        · refine ⟨[], c :: w, rfl, .inr ⟨nil_mem_lang.mpr (by rw [hout]; rfl), 0, rfl, ?_⟩⟩
          exact (ihs hr.2).mpr ⟨e', he', ha, hw⟩
  | star r _ =>
    simp only [Performs, false_iff]
    rintro ⟨e, he, ha, _⟩
    exact absurd ((actsIn_der (actsIn_of_plain (r := Rx.star r) hr) he).1 a ha) Bool.false_ne_true
  | enter b r ih =>
    rw [Performs, ih hr, cons_mem_lang]
    constructor
    · rintro (⟨e, he, ha, hw⟩ | ⟨⟨e, he, hw⟩, _, rfl⟩)
      · exact ⟨_, List.mem_map_of_mem he, List.mem_cons_of_mem _ ha, hw⟩
      · exact ⟨_, List.mem_map_of_mem he, List.mem_cons_self, hw⟩
    · rintro ⟨e, he, ha, hw⟩
      obtain ⟨e', he', rfl⟩ := List.mem_map.mp he
      rcases List.mem_cons.mp ha with rfl | ha
      · exact .inr ⟨⟨e', he', hw⟩, rfl, rfl⟩
      · exact .inl ⟨e', he', ha, hw⟩
  | leave b r ih =>
    rw [Performs, ih hr]
    constructor
    · rintro (⟨e, he, ha, hw⟩ | ⟨_, hp, _⟩)
      · exact ⟨_, List.mem_map_of_mem he, ha, hw⟩
      · cases hp
    · rintro ⟨e, he, ha, hw⟩
      obtain ⟨e', he', rfl⟩ := List.mem_map.mp he
      exact .inl ⟨e', he', ha, hw⟩
  | _ => cases hr

/-- Behind the first byte the transitions perform what follows them performs. -/
theorem performs_cons_succ (hr : r.tame = true) :
    r.Performs (c :: w) (p + 1) a ↔ ∃ e ∈ r.der c, e.cont.Performs w p a := by
  induction r generalizing w p with
  | empty => simp [Performs, der]
  | byte s =>
    simp only [Performs, mem_der_byte, false_iff]
    rintro ⟨e, ⟨_, rfl⟩, h⟩
    cases h
  | alt r s ihr ihs =>
    rw [tame, Bool.and_eq_true] at hr
    rw [Performs, ihr hr.1, ihs hr.2]
    simp only [mem_der_alt, or_and_right, exists_or]
  | cat r s ihr ihs =>
    rw [tame, Bool.and_eq_true] at hr
    constructor
    · rintro ⟨u, v, h, hcases⟩
      cases u with
      | nil =>
        obtain rfl : v = c :: w := h
        rcases hcases with ⟨hout, hs⟩ | ⟨hr', q, hq, hs⟩
        · exact absurd ((performs_nil hr.1).mp hout).1 (Nat.succ_ne_zero p)
        · obtain rfl : q = p + 1 := by simpa using hq.symm
          obtain ⟨e, he, hcont⟩ := (ihs hr.2).mp hs
          obtain ⟨out, hout⟩ := Option.isSome_iff_exists.mp (nil_mem_lang.mp hr')
          exact ⟨_, mem_der_cat_of_right hout he, hcont⟩
      | cons d u =>
        obtain ⟨rfl, rfl⟩ := List.cons_eq_cons.mp h
        rcases hcases with ⟨hu, hv⟩ | ⟨hu, q, hq, hv⟩
        · obtain ⟨e, he, hcont⟩ := (ihr hr.1).mp hu
          refine ⟨_, mem_der_cat_of_left he, performs_followedBy.mpr ?_⟩
          exact ⟨u, v, rfl, .inl ⟨hcont, hv⟩⟩
        · obtain ⟨e, he, hcont⟩ := cons_mem_lang.mp hu
          refine ⟨_, mem_der_cat_of_left he, performs_followedBy.mpr ?_⟩
          refine ⟨u, v, rfl, .inr ⟨hcont, q, ?_, hv⟩⟩
          rw [List.length_cons] at hq
          omega
    · rintro ⟨e, he, hw⟩
      rcases mem_der_cat.mp he with ⟨e', he', rfl⟩ | ⟨out, hout, e', he', rfl⟩
      · obtain ⟨u, v, rfl, ⟨hu, hv⟩ | ⟨hu, q, rfl, hv⟩⟩ := performs_followedBy.mp hw
        · exact ⟨c :: u, v, rfl, .inl ⟨(ihr hr.1).mpr ⟨e', he', hu⟩, hv⟩⟩
        · refine ⟨c :: u, v, rfl, .inr ⟨cons_mem_lang.mpr ⟨e', he', hu⟩, q, ?_, hv⟩⟩
          rw [List.length_cons, Nat.add_right_comm]
      · refine ⟨[], c :: w, rfl, .inr ⟨nil_mem_lang.mpr (by rw [hout]; rfl), p + 1, (Nat.zero_add _).symm, ?_⟩⟩
        exact (ihs hr.2).mpr ⟨e', he', hw⟩
  | star r _ =>
    simp only [Performs, false_iff]
    rintro ⟨e, he, h⟩
    exact not_performs_of_plain (plain_der (r := Rx.star r) hr he).2 h
  | enter b r ih =>
    rw [Performs, ih hr]
    constructor
    · rintro (⟨e, he, h⟩ | ⟨_, hp, _⟩)
      · exact ⟨_, List.mem_map_of_mem he, h⟩
      · cases hp
    · rintro ⟨e, he, h⟩
      obtain ⟨e', he', rfl⟩ := List.mem_map.mp he
      exact .inl ⟨e', he', h⟩
  | leave b r ih =>
    rw [Performs, ih hr]
    constructor
    · rintro (⟨e, he, h⟩ | ⟨hw, hp, rfl⟩)
      · exact ⟨_, List.mem_map_of_mem he, .inl h⟩
      · obtain ⟨e, he, hcont⟩ := cons_mem_lang.mp hw
        exact ⟨_, List.mem_map_of_mem he, .inr ⟨hcont, Nat.succ.inj hp, rfl⟩⟩
    · rintro ⟨e, he, h⟩
      obtain ⟨e', he', rfl⟩ := List.mem_map.mp he
      rcases h with h | ⟨hw, rfl, rfl⟩
      · exact .inl ⟨e', he', h⟩
      · exact .inr ⟨cons_mem_lang.mpr ⟨e', he', hw⟩, rfl, rfl⟩
  | _ => cases hr

/-! ## Stamped expressions -/

/-- Moving stamps keeps an expression plain. -/
theorem plain_shiftStart {r : Rx (ℕ × A)} (hr : r.plain = true) (k : ℕ) :
    (r.shiftStart k).plain = true ∧ (r.shiftStart k).lang = r.lang := by
  induction r with
  | empty => exact ⟨rfl, rfl⟩
  | byte s => exact ⟨hr, rfl⟩
  | alt r s ihr ihs =>
    rw [plain, Bool.and_eq_true] at hr
    rw [shiftStart, plain, (ihr hr.1).1, (ihs hr.2).1, lang, lang, (ihr hr.1).2, (ihs hr.2).2]
    exact ⟨rfl, rfl⟩
  | cat r s ihr ihs =>
    rw [plain, Bool.and_eq_true] at hr
    rw [shiftStart, plain, (ihr hr.1).1, lang, lang, (ihr hr.1).2]
    split
    · exact ⟨(ihs hr.2).1, by rw [(ihs hr.2).2]⟩
    · exact ⟨hr.2, rfl⟩
  | star r _ => exact ⟨hr, rfl⟩
  | _ => cases hr

/-- Stamping keeps a plain expression plain and uses no stamps. -/
theorem plain_stamp (hr : r.plain = true) (n : ℕ) :
    (r.stamp n).1.plain = true ∧ (r.stamp n).1.lang = r.lang ∧ (r.stamp n).2 = n := by
  induction r with
  | empty => exact ⟨rfl, rfl, rfl⟩
  | byte s => exact ⟨hr, rfl, rfl⟩
  | alt r s ihr ihs =>
    rw [plain, Bool.and_eq_true] at hr
    obtain ⟨hr1, hr2, hr3⟩ := ihr hr.1
    obtain ⟨hs1, hs2, hs3⟩ := ihs hr.2
    simp only [stamp, hr3, plain, lang, hr1, hs1, hr2, hs2, hs3, Bool.and_self, and_self]
  | cat r s ihr ihs =>
    rw [plain, Bool.and_eq_true] at hr
    obtain ⟨hr1, hr2, hr3⟩ := ihr hr.1
    obtain ⟨hs1, hs2, hs3⟩ := ihs hr.2
    simp only [stamp, hr3, plain, lang, hr1, hs1, hr2, hs2, hs3, Bool.and_self, and_self]
  | star r ih =>
    obtain ⟨h1, h2, h3⟩ := ih hr
    obtain ⟨hs1, hs2⟩ := plain_shiftStart h1 ((r.stamp n).2 - n)
    refine ⟨hs1, ?_, ?_⟩
    · simp only [stamp, lang, hs2, h2]
    · simp only [stamp, h3, Nat.sub_self, Nat.add_zero]
  | _ => cases hr

/-- The stamps of an alternation. -/
theorem stamp_alt (n : ℕ) : (Rx.alt r s).stamp n =
    (.alt (r.stamp n).1 (s.stamp (r.stamp n).2).1, (s.stamp (r.stamp n).2).2) :=
  rfl

/-- The stamps of a concatenation. -/
theorem stamp_cat (n : ℕ) : (Rx.cat r s).stamp n =
    (.cat (r.stamp n).1 (s.stamp (r.stamp n).2).1, (s.stamp (r.stamp n).2).2) :=
  rfl

/-- The stamps around a plain expression. -/
theorem stamp_marked (hr : r.plain = true) (n : ℕ) : (Rx.leave a (.enter b r)).stamp n =
    (.leave (n + 1, a) (.enter (n, b) (r.stamp (n + 1)).1), n + 2) := by
  simp only [stamp, (plain_stamp hr (n + 1)).2.2]

/-- Stamping keeps a tame expression tame and its words. -/
theorem tame_stamp (hr : r.tame = true) (n : ℕ) : (r.stamp n).1.tame = true ∧ (r.stamp n).1.lang = r.lang := by
  induction r generalizing n with
  | empty => exact ⟨rfl, rfl⟩
  | byte s => exact ⟨hr, rfl⟩
  | alt r s ihr ihs =>
    rw [tame, Bool.and_eq_true] at hr
    simp only [stamp, tame, lang, ihr hr.1, ihs hr.2, Bool.and_self, and_self]
  | cat r s ihr ihs =>
    rw [tame, Bool.and_eq_true] at hr
    simp only [stamp, tame, lang, ihr hr.1, ihs hr.2, Bool.and_self, and_self]
  | star r _ =>
    obtain ⟨hplain, hlang, _⟩ := plain_stamp (r := Rx.star r) hr n
    exact ⟨tame_of_plain hplain, hlang⟩
  | enter b r ih => exact ih hr (n + 1)
  | leave b r ih => exact ih hr n
  | _ => cases hr

/-- A byte that no byte set holds is in no word. -/
theorem not_mem_of_avoids (hr : r.avoids c = true) (hw : w ∈ r.lang) : c ∉ w := by
  induction r generalizing w with
  | empty =>
    obtain rfl := mem_lang_empty.mp hw
    exact List.not_mem_nil
  | byte s =>
    obtain ⟨d, hd, rfl⟩ := hw
    rw [List.mem_singleton]
    rintro rfl
    rw [avoids, hd] at hr
    cases hr
  | alt r s ihr ihs =>
    rw [avoids, Bool.and_eq_true] at hr
    exact (mem_lang_alt.mp hw).elim (ihr hr.1) (ihs hr.2)
  | cat r s ihr ihs =>
    rw [avoids, Bool.and_eq_true] at hr
    obtain ⟨u, hu, v, hv, rfl⟩ := mem_lang_cat.mp hw
    exact fun hc => (List.mem_append.mp hc).elim (ihr hr.1 hu) (ihs hr.2 hv)
  | star r ih =>
    obtain ⟨ws, rfl, hws⟩ := mem_lang_star.mp hw
    intro hc
    obtain ⟨x, hx, hcx⟩ := List.mem_flatten.mp hc
    exact ih hr (hws x hx) hcx
  | enter b r ih => exact ih hr hw
  | leave b r ih => exact ih hr hw
  | finish b r ih => exact ih hr hw
  | prioAll _ _ r ih => exact ih hr hw
  | prioEnter _ _ r ih => exact ih hr hw
  | prioFinish _ _ r ih => exact ih hr hw

end Rx

/-! ## The order of the actions -/

section Order

variable {B C : Type*} [DecidableEq B] [DecidableEq C]

/-- Values are kept once. -/
theorem nodup_keepFirst (l : List B) : (keepFirst l).Nodup := by
  induction l with
  | nil => exact List.nodup_nil
  | cons b l ih =>
    refine List.nodup_cons.mpr ⟨fun hmem => ?_, ih.filter _⟩
    simpa using (List.mem_filter.mp hmem).2

/-- Kept values stand in the order in which they first occur. -/
theorem keepFirst_sublist (l : List B) : (keepFirst l).Sublist l := by
  induction l with
  | nil => exact List.Sublist.slnil
  | cons b l ih => exact (List.filter_sublist.trans ih).cons_cons b

/-- Values can be dropped before or after repetitions are. -/
theorem filter_keepFirst (p : B → Bool) (l : List B) : (keepFirst l).filter p = keepFirst (l.filter p) := by
  induction l with
  | nil => rfl
  | cons b l ih =>
    rw [keepFirst, List.filter_cons, List.filter_cons]
    split
    · rw [keepFirst, ← ih, List.filter_comm]
    · rename_i hb
      rw [List.filter_filter, ← ih]
      refine List.filter_congr fun b' _ => ?_
      by_cases hb' : b' = b
      · subst hb'
        simp [hb]
      · simp [hb']

/-- Repetitions can be dropped before a function is applied. -/
theorem keepFirst_map_keepFirst (f : B → C) (l : List B) :
    keepFirst ((keepFirst l).map f) = keepFirst (l.map f) := by
  induction l with
  | nil => rfl
  | cons b l ih =>
    rw [keepFirst, List.map_cons, List.map_cons, keepFirst, keepFirst, ← ih,
      filter_keepFirst _ (((keepFirst l).filter _).map f), filter_keepFirst _ ((keepFirst l).map f),
      List.filter_map, List.filter_map, List.filter_filter]
    refine congrArg (fun l => f b :: keepFirst (l.map f)) (List.filter_congr fun b' _ => ?_)
    by_cases hb' : b' = b
    · subst hb'
      simp
    · simp [hb']

end Order

/-- The actions of a list of stamped actions whose order by stamps is known. -/
theorem keepFirst_sorted [DecidableEq A] {l l' : List (ℕ × A)} (hl' : l'.Pairwise fun x y => x.1 < y.1)
    (hmem : ∀ x, x ∈ l ↔ x ∈ l') :
    keepFirst ((l.insertionSort fun x y => x.1 ≤ y.1).map (·.2)) = keepFirst (l'.map (·.2)) := by
  have hstamp : ∀ x ∈ l', ∀ y ∈ l', x.1 ≤ y.1 → y.1 ≤ x.1 → x = y := by
    intro x hx y hy hxy hyx
    by_contra hne
    rcases List.Pairwise.forall_of_forall_of_flip (l := l') (R := fun x y => x = y ∨ x.1 ≠ y.1) (fun _ _ => .inl rfl)
      (hl'.imp fun h => .inr h.ne) (hl'.imp fun h => .inr h.ne') hx hy with h | h
    · exact hne h
    · exact h (Nat.le_antisymm hxy hyx)
  have hsorted : (keepFirst (l.insertionSort fun x y => x.1 ≤ y.1)).Pairwise fun x y => x.1 ≤ y.1 :=
    (List.pairwise_insertionSort _ l).sublist (keepFirst_sublist _)
  have hperm : (keepFirst (l.insertionSort fun x y => x.1 ≤ y.1)).Perm l' := by
    refine (List.perm_ext_iff_of_nodup (nodup_keepFirst _) (hl'.imp fun h => ?_)).mpr fun x => ?_
    · exact fun heq => absurd (congrArg Prod.fst heq) h.ne
    · rw [mem_keepFirst, List.mem_insertionSort, hmem]
  have heq : keepFirst (l.insertionSort fun x y => x.1 ≤ y.1) = l' := by
    refine hperm.eq_of_pairwise (fun x y hx hy hxy hyx => ?_) hsorted (hl'.imp fun h => h.le)
    exact hstamp x (hperm.mem_iff.mp hx) y hy hxy hyx
  rw [← keepFirst_map_keepFirst, heq]

/-! ## The machine -/

/-- What the machine performs at the end of the buffer: the leaving actions of its threads. -/
def eofActions [DecidableEq A] (ts : List (Thread A)) : List A :=
  keepFirst (((ts.flatMap (·.null.getD [])).insertionSort fun x y => x.1 ≤ y.1).map (·.2))

/-- Performing actions one after the other at a position. -/
def performAt {σ : Type*} (act : ℕ → A → σ → σ) (p : ℕ) (as : List A) (s : σ) : σ :=
  as.foldl (fun s a => act p a s) s

/-- The generated loop followed by the actions at the end of the buffer. -/
def execEof {σ : Type*} [DecidableEq A] (act : ℕ → A → σ → σ) (data : List UInt8) (e : Exec A σ) : Exec A σ :=
  let e' := exec act (fun _ => false) data e
  match e'.cs with
  | none => e'
  | some ts => { e' with st := performAt act e'.p (eofActions ts) e'.st }

variable {r : Thread A} {xs : List UInt8} {ts : List (Thread A)} {c : UInt8} {l : List (ℕ × A)}

/-- The threads are what is left of an expression behind some bytes. -/
structure Behind (r : Thread A) (xs : List UInt8) (ts : List (Thread A)) : Prop where
  tame : ∀ t ∈ ts, t.tame = true
  accepts : ∀ w, (∃ t ∈ ts, w ∈ t.lang) ↔ xs ++ w ∈ r.lang
  performs : ∀ w p x, (∃ t ∈ ts, t.Performs w p x) ↔ r.Performs (xs ++ w) (xs.length + p) x

/-- These actions, in the order of their stamps, are performed on a byte behind some others. -/
structure PerformsOn (r : Thread A) (xs : List UInt8) (c : UInt8) (l : List (ℕ × A)) : Prop where
  sorted : l.Pairwise fun x y => x.1 < y.1
  mem_iff : ∀ x, x ∈ l ↔ ∃ zs, r.Performs (xs ++ c :: zs) xs.length x

/-- These actions, in the order of their stamps, are performed behind a word. -/
structure PerformsBehind (r : Thread A) (xs : List UInt8) (l : List (ℕ × A)) : Prop where
  sorted : l.Pairwise fun x y => x.1 < y.1
  mem_iff : ∀ x, x ∈ l ↔ r.Performs xs xs.length x

namespace Behind

/-- Before the first byte the expression itself is left. -/
theorem nil (hr : r.tame = true) : Behind r [] [r] where
  tame := List.forall_mem_singleton.mpr hr
  accepts w := by simp
  performs w p x := by simp

/-- The transitions of tame threads carry no priorities, so none is beaten. -/
theorem liveEdges_eq (h : Behind r xs ts) (c : UInt8) : liveEdges ts c = ts.flatMap (·.der c) := by
  refine List.filter_eq_self.mpr fun e he => ?_
  obtain ⟨t, ht, het⟩ := List.mem_flatMap.mp he
  rw [Bool.not_eq_true', List.any_eq_false]
  intro f hf
  obtain ⟨t', ht', hft⟩ := List.mem_flatMap.mp hf
  simp [Edge.beats, (Rx.tame_der (h.tame t' ht') hft).1]

variable [DecidableEq A]

/-- A byte that no word goes on with leaves the machine without a transition. -/
theorem step_none (h : Behind r xs ts) (hnot : ∀ zs, xs ++ c :: zs ∉ r.lang) : step ts c = none := by
  have hnone : liveEdges ts c = [] := by
    rw [h.liveEdges_eq, List.flatMap_eq_nil_iff]
    intro t ht
    refine List.eq_nil_iff_forall_not_mem.mpr fun e he => ?_
    obtain ⟨zs, hzs⟩ := Rx.exists_mem_lang (Rx.tame_der (h.tame t ht) he).2
    exact hnot zs ((h.accepts _).mp ⟨t, ht, Rx.cons_mem_lang.mpr ⟨e, he, hzs⟩⟩)
  rw [step, hnone]

/-- On a byte that a word goes on with the machine performs the actions of all such words, and is behind
that byte. -/
theorem step_some (h : Behind r xs ts) (hsome : ∃ zs, xs ++ c :: zs ∈ r.lang) :
    ∃ ts' acts, step ts c = some (ts', acts) ∧ Behind r (xs ++ [c]) ts' ∧
      ∀ l, PerformsOn r xs c l → acts = keepFirst (l.map (·.2)) := by
  obtain ⟨zs, hzs⟩ := hsome
  obtain ⟨t, ht, hmem⟩ := (h.accepts _).mpr hzs
  obtain ⟨e, he, _⟩ := Rx.cons_mem_lang.mp hmem
  cases hlive : liveEdges ts c with
  | nil =>
    rw [h.liveEdges_eq, List.flatMap_eq_nil_iff] at hlive
    rw [hlive t ht] at he
    cases he
  | cons e es =>
    have hstep : step ts c = some (keepFirst ((e :: es).map (·.cont)), merged (e :: es)) := by
      rw [step, hlive]
    have hconts : ∀ t', t' ∈ keepFirst ((e :: es).map (·.cont)) ↔ ∃ t ∈ ts, ∃ e ∈ t.der c, e.cont = t' := by
      intro t'
      rw [mem_keepFirst, ← hlive, h.liveEdges_eq, List.mem_map]
      simp only [List.mem_flatMap]
      constructor
      · rintro ⟨e, ⟨t, ht, he⟩, hcont⟩
        exact ⟨t, ht, e, he, hcont⟩
      · rintro ⟨t, ht, e, he, hcont⟩
        exact ⟨e, ⟨t, ht, he⟩, hcont⟩
    refine ⟨_, _, hstep, ⟨fun t' ht' => ?_, fun w => ?_, fun w p x => ?_⟩, fun l hl => ?_⟩
    · obtain ⟨t, ht, e, he, rfl⟩ := (hconts t').mp ht'
      exact (Rx.tame_der (h.tame t ht) he).2
    · rw [List.append_assoc, List.singleton_append, ← h.accepts]
      constructor
      · rintro ⟨t', ht', hw⟩
        obtain ⟨t, ht, e, he, rfl⟩ := (hconts t').mp ht'
        exact ⟨t, ht, Rx.cons_mem_lang.mpr ⟨e, he, hw⟩⟩
      · rintro ⟨t, ht, hw⟩
        obtain ⟨e, he, hw⟩ := Rx.cons_mem_lang.mp hw
        exact ⟨e.cont, (hconts _).mpr ⟨t, ht, e, he, rfl⟩, hw⟩
    · rw [List.append_assoc, List.singleton_append, List.length_append, List.length_singleton, Nat.add_assoc,
        Nat.add_comm 1 p, ← h.performs]
      constructor
      · rintro ⟨t', ht', hw⟩
        obtain ⟨t, ht, e, he, rfl⟩ := (hconts t').mp ht'
        exact ⟨t, ht, (Rx.performs_cons_succ (h.tame t ht)).mpr ⟨e, he, hw⟩⟩
      · rintro ⟨t, ht, hw⟩
        obtain ⟨e, he, hw⟩ := (Rx.performs_cons_succ (h.tame t ht)).mp hw
        exact ⟨e.cont, (hconts _).mpr ⟨t, ht, e, he, rfl⟩, hw⟩
    · refine keepFirst_sorted hl.sorted fun x => ?_
      rw [hl.mem_iff, ← hlive, h.liveEdges_eq]
      simp only [List.mem_flatMap]
      constructor
      · rintro ⟨e, ⟨t, ht, he⟩, hx⟩
        obtain ⟨zs, hzs⟩ := Rx.exists_mem_lang (Rx.tame_der (h.tame t ht) he).2
        refine ⟨zs, (h.performs (c :: zs) 0 x).mp ⟨t, ht, ?_⟩⟩
        exact (Rx.performs_cons_zero (h.tame t ht)).mpr ⟨e, he, hx, hzs⟩
      · rintro ⟨zs, hzs⟩
        obtain ⟨t, ht, hperf⟩ := (h.performs (c :: zs) 0 x).mpr hzs
        obtain ⟨e, he, hx, _⟩ := (Rx.performs_cons_zero (h.tame t ht)).mp hperf
        exact ⟨e, ⟨t, ht, he⟩, hx⟩

omit [DecidableEq A] in
/-- The machine is in a final state behind the words of the expression. -/
theorem isFinal_iff (h : Behind r xs ts) : isFinal ts = true ↔ xs ∈ r.lang := by
  have haccepts := h.accepts []
  rw [List.append_nil] at haccepts
  rw [← haccepts, isFinal, List.any_eq_true]
  simp only [Rx.nil_mem_lang]

/-- At the end of the buffer the machine performs the actions behind the word. -/
theorem eofActions_eq (h : Behind r xs ts) (hl : PerformsBehind r xs l) :
    eofActions ts = keepFirst (l.map (·.2)) := by
  refine keepFirst_sorted hl.sorted fun x => ?_
  have hperf := h.performs [] 0 x
  rw [List.append_nil, Nat.add_zero] at hperf
  rw [hl.mem_iff, ← hperf, List.mem_flatMap]
  constructor
  · rintro ⟨t, ht, hx⟩
    exact ⟨t, ht, (Rx.performs_nil (h.tame t ht)).mpr ⟨rfl, hx⟩⟩
  · rintro ⟨t, ht, hx⟩
    exact ⟨t, ht, ((Rx.performs_nil (h.tame t ht)).mp hx).2⟩

end Behind

section Reads

variable [DecidableEq A] {σ : Type*} {act : ℕ → A → σ → σ} {s s' : σ}

/-- The loop has read some bytes, and the state of the actions is this one. -/
def Reads (act : ℕ → A → σ → σ) (r : Thread A) (s : σ) (xs : List UInt8) (s' : σ) : Prop :=
  ∃ ts, exec act (fun _ => false) xs ⟨some [r], 0, s, false⟩ = ⟨some ts, xs.length, s', false⟩ ∧ Behind r xs ts

/-- Nothing has been read. -/
theorem Reads.nil (hr : r.tame = true) (s : σ) : Reads act r s [] s :=
  ⟨[r], rfl, .nil hr⟩

omit [DecidableEq A] in
/-- Actions none of which breaks are all performed. -/
theorem performAll_eq (act : A → σ → σ) (as : List A) (s : σ) :
    performAll act (fun _ => false) as s = (as.foldl (fun s a => act a s) s, false) := by
  induction as generalizing s with
  | nil => rfl
  | cons a as ih => exact ih (act a s)

/-- Another byte is read. -/
theorem Reads.snoc (h : Reads act r s xs s') (hsome : ∃ zs, xs ++ c :: zs ∈ r.lang) :
    ∃ acts, Reads act r s (xs ++ [c]) (performAt act xs.length acts s') ∧
      ∀ l, PerformsOn r xs c l → acts = keepFirst (l.map (·.2)) := by
  obtain ⟨ts, hexec, hbehind⟩ := h
  obtain ⟨ts', acts, hstep, hbehind', hacts⟩ := hbehind.step_some hsome
  refine ⟨acts, ⟨ts', ?_, hbehind'⟩, hacts⟩
  rw [exec_append, hexec, exec, List.foldl_cons, List.foldl_nil, Exec.feed]
  simp only [Bool.false_eq_true, if_false, Option.bind_some, hstep, performAll_eq, List.length_append,
    List.length_singleton, performAt]

/-- Another byte is read whose actions are known. -/
theorem Reads.snoc_of_performsOn (h : Reads act r s xs s') (hsome : ∃ zs, xs ++ c :: zs ∈ r.lang)
    (hl : PerformsOn r xs c l) :
    Reads act r s (xs ++ [c]) (performAt act xs.length (keepFirst (l.map (·.2))) s') := by
  obtain ⟨acts, hreads, hacts⟩ := h.snoc hsome
  rwa [hacts l hl] at hreads

/-- The loop reads all bytes that some word begins with. -/
theorem exists_reads (hr : r.tame = true) (act : ℕ → A → σ → σ) (s : σ) (hsome : ∃ zs, xs ++ zs ∈ r.lang) :
    ∃ s', Reads act r s xs s' := by
  induction xs using List.reverseRecOn with
  | nil => exact ⟨s, .nil hr s⟩
  | append_singleton xs c ih =>
    have hviable : ∃ zs, xs ++ c :: zs ∈ r.lang := by
      obtain ⟨zs, hzs⟩ := hsome
      exact ⟨zs, by rwa [List.append_assoc] at hzs⟩
    obtain ⟨s', hs'⟩ := ih (hviable.imp' (c :: ·) fun zs hzs => hzs)
    obtain ⟨acts, hreads, _⟩ := hs'.snoc hviable
    exact ⟨_, hreads⟩

/-- The loop ends in the error state on bytes that no word begins with. -/
theorem exec_cs_none (hr : r.tame = true) (act : ℕ → A → σ → σ) (s : σ) (hnot : ∀ zs, xs ++ zs ∉ r.lang) :
    (exec act (fun _ => false) xs ⟨some [r], 0, s, false⟩).cs = none := by
  induction xs using List.reverseRecOn with
  | nil =>
    obtain ⟨zs, hzs⟩ := Rx.exists_mem_lang hr
    exact absurd hzs (hnot zs)
  | append_singleton xs c ih =>
    rw [exec_append]
    by_cases hviable : ∃ zs, xs ++ zs ∈ r.lang
    · obtain ⟨s', ts, hexec, hbehind⟩ := exists_reads hr act s hviable
      have hstep : step ts c = none := hbehind.step_none fun zs hzs => hnot zs (by rwa [List.append_assoc])
      rw [hexec, exec, List.foldl_cons, List.foldl_nil, Exec.feed]
      simp [hstep]
    · have hnone := ih fun zs hzs => hviable ⟨zs, hzs⟩
      rw [exec, List.foldl_cons, List.foldl_nil, Exec.feed]
      split
      · exact hnone
      · simp [hnone]

/-- The loop and the end of the buffer, for a word of the expression. -/
theorem Reads.execEof_eq (h : Reads act r s xs s') (hl : PerformsBehind r xs l) :
    ∃ ts, execEof act xs ⟨some [r], 0, s, false⟩ =
        ⟨some ts, xs.length, performAt act xs.length (keepFirst (l.map (·.2))) s', false⟩ ∧
      (isFinal ts = true ↔ xs ∈ r.lang) := by
  obtain ⟨ts, hexec, hbehind⟩ := h
  refine ⟨ts, ?_, hbehind.isFinal_iff⟩
  rw [execEof, hexec]
  dsimp only
  rw [hbehind.eofActions_eq hl]

/-- The end of the buffer leaves the machine state as it is. -/
theorem execEof_cs {data : List UInt8} {e : Exec A σ} :
    (execEof act data e).cs = (exec act (fun _ => false) data e).cs := by
  unfold execEof
  dsimp only
  split <;> rfl

/-- A machine that ends in a final state has read a word of the expression. -/
theorem mem_lang_of_isFinal (hr : r.tame = true) (hcs : (execEof act xs ⟨some [r], 0, s, false⟩).cs = some ts)
    (hfinal : isFinal ts = true) : xs ∈ r.lang := by
  rw [execEof_cs] at hcs
  by_cases hviable : ∃ zs, xs ++ zs ∈ r.lang
  · obtain ⟨s', ts', hexec', hbehind⟩ := exists_reads hr act s hviable
    rw [hexec'] at hcs
    obtain rfl := Option.some.inj hcs
    exact hbehind.isFinal_iff.mp hfinal
  · rw [exec_cs_none hr act s fun zs hzs => hviable ⟨zs, hzs⟩] at hcs
    cases hcs

end Reads

end Ragel
