import Bobliew.Lib.Ragel

/-!
# One action before another

When an action is embedded only behind a leaving action of an earlier part, a machine performs it only
after that leaving action. The condition is a check of the expression: each occurrence of the later
action sits in the second part of a concatenation whose first part is left with the earlier action,
and carries a greater stamp, which settles the order when both are performed on one byte.
-/

namespace Ragel

variable {A : Type*}

/-- Every `b` in a list comes after some `a`. -/
def Precedes (a b : A) (l : List A) : Prop :=
  ∀ l₁ l₂, l = l₁ ++ b :: l₂ → a ∈ l₁

namespace Precedes

variable {a b : A} {l l' : List A}

/-- A first part of a list. -/
theorem of_prefix (h : Precedes a b l) (hpre : l' <+: l) : Precedes a b l' := by
  obtain ⟨rest, rfl⟩ := hpre
  rintro l₁ l₂ rfl
  exact h l₁ (l₂ ++ rest) (by simp)

/-- Two lists one after the other. -/
theorem append (h : Precedes a b l) (h' : a ∈ l ∨ Precedes a b l') : Precedes a b (l ++ l') := by
  intro l₁ l₂ heq
  rcases List.append_eq_append_iff.mp heq with ⟨m, rfl, hm⟩ | ⟨m, rfl, hm⟩
  · rcases h' with h' | h'
    · exact List.mem_append_left m h'
    · exact List.mem_append_right l (h' m l₂ hm)
  · cases m with
    | nil =>
      rcases h' with ha | hp
      · simpa using ha
      · exact absurd (hp [] l₂ hm.symm) (by simp)
    | cons x m =>
      obtain ⟨rfl, -⟩ := List.cons.inj hm
      exact h l₁ m rfl

/-- A second part of a list, when `a` is not in the first. -/
theorem of_append (h : Precedes a b (l ++ l')) (ha : a ∉ l) : Precedes a b l' := by
  rintro l₁ l₂ rfl
  exact (List.mem_append.mp (h (l ++ l₁) l₂ (by simp))).resolve_left ha

/-- Removing values other than `a`. -/
theorem filter {p : A → Bool} (hp : p a = true) (h : Precedes a b l) : Precedes a b (l.filter p) := by
  intro l₁ l₂ heq
  obtain ⟨m₁, m₂, rfl, rfl, hm⟩ := List.filter_eq_append_iff.mp heq
  obtain ⟨k₁, k₂, rfl, hk, -, -⟩ := List.filter_eq_cons_iff.mp hm
  have ha := h (m₁ ++ k₁) k₂ (by simp)
  rcases List.mem_append.mp ha with ha | ha
  · exact List.mem_filter.mpr ⟨ha, hp⟩
  · exact absurd hp (hk a ha)

end Precedes

/-- Keeping first occurrences keeps the order of first occurrences. -/
theorem precedes_keepFirst [DecidableEq A] {a b : A} (hab : a ≠ b) {l : List A} (h : Precedes a b l) :
    Precedes a b (keepFirst l) := by
  induction l with
  | nil => exact h
  | cons x l ih =>
    by_cases hxa : x = a
    · rintro l₁ l₂ heq
      cases l₁ with
      | nil => exact absurd (hxa.symm.trans (List.cons.inj heq).1) hab
      | cons y l₁ =>
        rw [← (List.cons.inj heq).1, hxa]
        exact List.mem_cons_self
    · have hxb : x ≠ b := by
        rintro rfl
        exact absurd (h [] l rfl) (by simp)
      have htail : Precedes a b l := Precedes.of_append (l := [x]) h (by simp [Ne.symm hxa])
      rintro l₁ l₂ heq
      cases l₁ with
      | nil => exact absurd (List.cons.inj heq).1 hxb
      | cons y l₁ =>
        have hrest := (ih htail).filter (p := fun b' => !decide (b' = x)) (by simp [Ne.symm hxa])
        exact List.mem_cons_of_mem y (hrest l₁ l₂ (List.cons.inj heq).2)

/-- Stamped actions in which every `b` comes with an `a` of a smaller stamp. -/
def Ordered (a b : A) (acts : List (ℕ × A)) : Prop :=
  ∀ k, (k, b) ∈ acts → ∃ m, (m, a) ∈ acts ∧ m < k

section Stamped

variable {a b : A} {acts acts' : List (ℕ × A)}

/-- Joining two lists. -/
theorem Ordered.append (h : Ordered a b acts) (h' : Ordered a b acts') : Ordered a b (acts ++ acts') := by
  intro k hk
  rcases List.mem_append.mp hk with hk | hk
  · obtain ⟨m, hm, hlt⟩ := h k hk
    exact ⟨m, List.mem_append_left _ hm, hlt⟩
  · obtain ⟨m, hm, hlt⟩ := h' k hk
    exact ⟨m, List.mem_append_right _ hm, hlt⟩

/-- A single action other than `b`. -/
theorem ordered_singleton {x : ℕ × A} (hx : x.2 ≠ b) : Ordered a b [x] := by
  intro k hk
  rw [← List.mem_singleton.mp hk] at hx
  exact absurd rfl hx

/-- Sorted by their stamps, the actions are in order. -/
theorem Ordered.precedes (h : Ordered a b acts) (hsorted : acts.Pairwise fun x y => x.1 ≤ y.1) :
    Precedes a b (acts.map (·.2)) := by
  intro l₁ l₂ heq
  obtain ⟨s₁, s₂, rfl, rfl, hs⟩ := List.map_eq_append_iff.mp heq
  obtain ⟨⟨k, x⟩, s₂, rfl, rfl, -⟩ := List.map_eq_cons_iff.mp hs
  obtain ⟨m, hm, hlt⟩ := h k (by simp)
  have hlater : ∀ y ∈ (k, x) :: s₂, k ≤ y.1 := by
    intro y hy
    rcases List.mem_cons.mp hy with rfl | hy
    · exact Nat.le_refl _
    · exact (List.pairwise_cons.mp (List.pairwise_append.mp hsorted).2.1).1 y hy
  rcases List.mem_append.mp hm with hm | hm
  · exact List.mem_map.mpr ⟨_, hm, rfl⟩
  · exact absurd (hlater _ hm) (by simpa using hlt)

end Stamped

namespace Rx

variable [DecidableEq A] (a b : A)

/-- The first part is left with `a`, and `b` occurs in the second part only, with a greater stamp. -/
def opens : Rx (ℕ × A) → Rx (ℕ × A) → Bool
  | .leave x r, s => decide (x.2 = a) && r.actsIn (fun y => !decide (y.2 = b)) &&
      s.actsIn fun y => !decide (y.2 = b) || Nat.blt x.1 y.1
  | _, _ => false

/-- Every `b` is embedded behind an `a`. -/
def guarded : Rx (ℕ × A) → Bool
  | .empty => true
  | .byte _ => true
  | .alt r s => r.guarded && s.guarded
  | .cat r s => r.opens a b s || (r.guarded && s.guarded)
  | .star r => r.guarded
  | .enter x r => !decide (x.2 = b) && r.guarded
  | .leave x r => !decide (x.2 = b) && r.guarded
  | .finish x r => !decide (x.2 = b) && r.guarded
  | .prioAll _ _ r => r.guarded
  | .prioEnter _ _ r => r.guarded
  | .prioFinish _ _ r => r.guarded

variable {a b} {r s : Rx (ℕ × A)} {e : Edge (ℕ × A)} {c : UInt8} {out : List (ℕ × A)}

/-- Actions of an expression without `b`. -/
theorem ordered_of_forall (h : ∀ y ∈ out, (!decide (y.2 = b)) = true) : Ordered a b out :=
  fun k hk => absurd (h _ hk) (by simp)

/-- Behind the leaving action of the first part. -/
theorem ordered_past {x : ℕ × A} (hab : a ≠ b) (hx : x.2 = a)
    (hout : ∀ y ∈ out, (!decide (y.2 = b)) = true) {acts : List (ℕ × A)}
    (hacts : ∀ y ∈ acts, (!decide (y.2 = b) || Nat.blt x.1 y.1) = true) :
    Ordered a b (out ++ [x] ++ acts) := by
  intro k hk
  refine ⟨x.1, by simp [← hx], ?_⟩
  rcases List.mem_append.mp hk with hk | hk
  · rcases List.mem_append.mp hk with hk | hk
    · exact absurd (hout _ hk) (by simp)
    · rw [← List.mem_singleton.mp hk] at hx
      exact absurd hx (Ne.symm hab)
  · have hlt := hacts _ hk
    simpa [Nat.blt_eq] using hlt

/-- A first part that is left with `a`. -/
theorem exists_of_opens (h : r.opens a b s = true) : ∃ x r', r = .leave x r' ∧ x.2 = a ∧
    r'.actsIn (fun y => !decide (y.2 = b)) = true ∧
      s.actsIn (fun y => !decide (y.2 = b) || Nat.blt x.1 y.1) = true := by
  cases r with
  | leave x r' =>
    simp only [opens, Bool.and_eq_true, decide_eq_true_eq] at h
    exact ⟨x, r', rfl, h.1.1, h.1.2, h.2⟩
  | _ => exact absurd h Bool.false_ne_true

/-- The leaving actions of a guarded expression are in order. -/
theorem guarded_null (hab : a ≠ b) (hr : r.guarded a b = true) (hnull : r.null = some out) :
    Ordered a b out := by
  induction r generalizing out with
  | empty =>
    obtain rfl : out = [] := by simpa [null] using hnull.symm
    exact fun k hk => absurd hk (by simp)
  | byte s => simp [null] at hnull
  | alt r s ihr ihs =>
    simp only [guarded, Bool.and_eq_true] at hr
    simp only [null] at hnull
    split at hnull
    · exact ihs hr.2 hnull
    · rename_i hout _
      exact ihr hr.1 (hout.trans hnull)
    · rename_i houtr houts
      cases hnull
      exact (ihr hr.1 houtr).append (ihs hr.2 houts)
  | cat r s ihr ihs =>
    simp only [guarded, Bool.or_eq_true, Bool.and_eq_true] at hr
    simp only [null] at hnull
    split at hnull
    · rename_i outr outs houtr houts
      cases hnull
      rcases hr with hopens | ⟨hr, hs⟩
      · obtain ⟨x, r', rfl, hx, hr', hs⟩ := exists_of_opens hopens
        simp only [null, Option.map_eq_some_iff] at houtr
        obtain ⟨out', hout', rfl⟩ := houtr
        exact ordered_past hab hx (actsIn_null hr' hout') (actsIn_null hs houts)
      · exact (ihr hr houtr).append (ihs hs houts)
    · simp at hnull
  | star r ih =>
    simp only [null, Option.some.injEq] at hnull
    subst hnull
    cases hout : r.null with
    | none => exact fun k hk => absurd hk (by simp)
    | some out => exact ih hr hout
  | enter x r ih =>
    simp only [guarded, Bool.and_eq_true, Bool.not_eq_true', decide_eq_false_iff_not] at hr
    simp only [null, Option.map_eq_some_iff] at hnull
    obtain ⟨out', hout, rfl⟩ := hnull
    exact (ordered_singleton hr.1).append (ih hr.2 hout)
  | leave x r ih =>
    simp only [guarded, Bool.and_eq_true, Bool.not_eq_true', decide_eq_false_iff_not] at hr
    simp only [null, Option.map_eq_some_iff] at hnull
    obtain ⟨out', hout, rfl⟩ := hnull
    exact (ih hr.2 hout).append (ordered_singleton hr.1)
  | finish x r ih =>
    simp only [guarded, Bool.and_eq_true] at hr
    exact ih hr.2 hnull
  | prioAll _ _ r ih => exact ih hr hnull
  | prioEnter _ _ r ih => exact ih hr hnull
  | prioFinish _ _ r ih => exact ih hr hnull

/-- Concatenation of guarded expressions with a finished first part dropped. -/
theorem guarded_followedBy (hr : r.guarded a b = true) (hs : s.guarded a b = true) :
    (r.followedBy s).guarded a b = true := by
  rcases followedBy_cases r s with ⟨_, h⟩ | h
  · rwa [h]
  · simp [h, guarded, hr, hs]

/-- The actions of a transition are in order, and unless `a` is among them what follows is guarded. -/
theorem guarded_der (hab : a ≠ b) (hr : r.guarded a b = true) (he : e ∈ r.der c) :
    Ordered a b e.acts ∧ ((∃ m, (m, a) ∈ e.acts) ∨ e.cont.guarded a b = true) := by
  induction r generalizing e with
  | empty => simp [der] at he
  | byte s =>
    obtain ⟨-, rfl⟩ := mem_der_byte.mp he
    exact ⟨fun k hk => absurd hk (by simp), .inr rfl⟩
  | alt r s ihr ihs =>
    simp only [guarded, Bool.and_eq_true] at hr
    rcases mem_der_alt.mp he with he | he
    · exact ihr hr.1 he
    · exact ihs hr.2 he
  | cat r s ihr ihs =>
    simp only [guarded, Bool.or_eq_true, Bool.and_eq_true] at hr
    rcases hr with hopens | ⟨hr, hs⟩
    · obtain ⟨x, r', rfl, hx, hr', hs⟩ := exists_of_opens hopens
      rcases mem_der_cat.mp he with ⟨e', he', rfl⟩ | ⟨out, hout, e', he', rfl⟩
      · obtain ⟨e'', he'', rfl⟩ := List.mem_map.mp he'
        obtain ⟨hacts, hcont⟩ := actsIn_der hr' he''
        refine ⟨ordered_of_forall hacts, .inr ?_⟩
        simp only [followedBy, guarded, opens, hx, hcont, hs, decide_true, Bool.and_self, Bool.true_or]
      · simp only [null, Option.map_eq_some_iff] at hout
        obtain ⟨out', hout', rfl⟩ := hout
        refine ⟨ordered_past hab hx (actsIn_null hr' hout') (actsIn_der hs he').1, .inl ⟨x.1, ?_⟩⟩
        simp [← hx]
    · rcases mem_der_cat.mp he with ⟨e', he', rfl⟩ | ⟨out, hout, e', he', rfl⟩
      · obtain ⟨hacts, hcont⟩ := ihr hr he'
        exact ⟨hacts, hcont.imp_right fun hcont => guarded_followedBy hcont hs⟩
      · obtain ⟨hacts, hcont⟩ := ihs hs he'
        refine ⟨(guarded_null hab hr hout).append hacts, hcont.imp_left ?_⟩
        rintro ⟨m, hm⟩
        exact ⟨m, List.mem_append_right _ hm⟩
  | star r ih =>
    obtain ⟨e', he', rfl⟩ := mem_der_star.mp he
    obtain ⟨hacts, hcont⟩ := ih hr he'
    exact ⟨hacts, hcont.imp_right fun hcont => guarded_followedBy hcont hr⟩
  | enter x r ih =>
    simp only [guarded, Bool.and_eq_true, Bool.not_eq_true', decide_eq_false_iff_not] at hr
    obtain ⟨e', he', rfl⟩ := List.mem_map.mp he
    obtain ⟨hacts, hcont⟩ := ih hr.2 he'
    refine ⟨(ordered_singleton hr.1).append hacts, hcont.imp_left ?_⟩
    rintro ⟨m, hm⟩
    exact ⟨m, List.mem_cons_of_mem x hm⟩
  | leave x r ih =>
    simp only [guarded, Bool.and_eq_true] at hr
    obtain ⟨e', he', rfl⟩ := List.mem_map.mp he
    obtain ⟨hacts, hcont⟩ := ih hr.2 he'
    exact ⟨hacts, hcont.imp_right fun hcont => by simp [guarded, hr.1, hcont]⟩
  | finish x r ih =>
    simp only [guarded, Bool.and_eq_true] at hr
    have hx : x.2 ≠ b := by simpa using hr.1
    obtain ⟨e', he', rfl⟩ := List.mem_map.mp he
    obtain ⟨hacts, hcont⟩ := ih hr.2 he'
    have hcont' : e'.cont.guarded a b = true → (Rx.finish x e'.cont).guarded a b = true :=
      fun hcont => by simp [guarded, hr.1, hcont]
    simp only
    split
    · refine ⟨hacts.append (ordered_singleton hx), hcont.imp ?_ hcont'⟩
      rintro ⟨m, hm⟩
      exact ⟨m, List.mem_append_left _ hm⟩
    · exact ⟨hacts, hcont.imp_right hcont'⟩
  | prioAll _ _ r ih =>
    obtain ⟨e', he', rfl⟩ := List.mem_map.mp he
    have hcont := ih hr he'
    exact hcont
  | prioEnter _ _ r ih =>
    obtain ⟨e', he', rfl⟩ := List.mem_map.mp he
    have hcont := ih hr he'
    exact hcont
  | prioFinish _ _ r ih =>
    obtain ⟨e', he', rfl⟩ := List.mem_map.mp he
    have hcont := ih hr he'
    exact hcont

end Rx

section Scan

variable [DecidableEq A] {a b : A} {ts ts' : List (Thread A)} {c : UInt8} {acts : List A}

/-- The actions of transitions that are in order each are in order together. -/
theorem precedes_merged (hab : a ≠ b) {es : List (Edge (ℕ × A))} (hes : ∀ e ∈ es, Ordered a b e.acts) :
    Precedes a b (merged es) := by
  refine precedes_keepFirst hab (Ordered.precedes ?_ ?_)
  · intro k hk
    obtain ⟨e, he, hmem⟩ := List.mem_flatMap.mp ((List.mem_insertionSort _).mp hk)
    obtain ⟨m, hm, hlt⟩ := hes e he k hmem
    exact ⟨m, (List.mem_insertionSort _).mpr (List.mem_flatMap.mpr ⟨e, he, hm⟩), hlt⟩
  · have htotal : Std.Total fun x y : ℕ × A => x.1 ≤ y.1 := ⟨fun x y => Nat.le_total x.1 y.1⟩
    have htrans : IsTrans (ℕ × A) fun x y => x.1 ≤ y.1 := ⟨fun _ _ _ => Nat.le_trans⟩
    exact List.pairwise_insertionSort _ _

/-- A step from guarded threads performs `b` after `a` only, and unless it performs `a` it leads to
guarded threads. -/
theorem step_guarded (hab : a ≠ b) (hts : ∀ t ∈ ts, t.guarded a b = true)
    (hstep : step ts c = some (ts', acts)) :
    Precedes a b acts ∧ (a ∈ acts ∨ ∀ t ∈ ts', t.guarded a b = true) := by
  have hedges : ∀ e ∈ liveEdges ts c,
      Ordered a b e.acts ∧ ((∃ m, (m, a) ∈ e.acts) ∨ e.cont.guarded a b = true) := by
    intro e he
    obtain ⟨t, ht, het⟩ := exists_thread_of_mem_liveEdges he
    exact Rx.guarded_der hab (hts t ht) het
  obtain ⟨hts', hacts⟩ := step_eq_some hstep
  refine ⟨?_, ?_⟩
  · rw [step_acts hstep]
    exact precedes_merged hab fun e he => (hedges e he).1
  · by_cases ha : a ∈ acts
    · exact .inl ha
    · refine .inr fun t ht => ?_
      obtain ⟨e, he, rfl⟩ := (hts' t).mp ht
      refine (hedges e he).2.resolve_left ?_
      rintro ⟨m, hm⟩
      exact ha ((hacts a).mpr ⟨e, he, m, hm⟩)

/-- From guarded threads on, a machine performs `b` after `a` only; and as long as it has not performed
`a`, its threads are guarded. -/
theorem precedes_scan (hab : a ≠ b) (hts : ∀ t ∈ ts, t.guarded a b = true) (breaks : A → Bool)
    (data : List UInt8) :
    Precedes a b ((scan breaks data (some ts)).st.map (·.2)) ∧
      ((scan breaks data (some ts)).stopped = false → a ∈ (scan breaks data (some ts)).st.map (·.2) ∨
        ∀ ts', (scan breaks data (some ts)).cs = some ts' → ∀ t ∈ ts', t.guarded a b = true) := by
  have hacts : ∀ (l : List (ℕ × A)) (p : ℕ) (as : List A),
      (l ++ as.map fun a => (p, a)).map (·.2) = l.map (·.2) ++ as := by
    intro l p as
    simp [Function.comp_def]
  refine scan_invariant (fun cs _ l stopped => Precedes a b (l.map (·.2)) ∧
    (stopped = false → a ∈ l.map (·.2) ∨ ∀ ts', cs = some ts' → ∀ t ∈ ts', t.guarded a b = true))
    ?_ ?_ ?_ ⟨fun l₁ l₂ h => by simp at h, fun _ => .inr ?_⟩ data
  · rintro ts₁ p l c ts₂ as ⟨hprec, hgoes⟩ hstep -
    rw [hacts]
    rcases hgoes rfl with ha | hguarded
    · exact ⟨hprec.append (.inl ha), fun _ => .inl (List.mem_append_left _ ha)⟩
    · obtain ⟨hprec', hnext⟩ := step_guarded hab (hguarded ts₁ rfl) hstep
      refine ⟨hprec.append (.inr hprec'), fun _ => hnext.imp (List.mem_append_right _) ?_⟩
      rintro hts' _ ⟨⟩
      exact hts'
  · rintro ts₁ p l c ts₂ as as' ⟨hprec, hgoes⟩ hstep hpre
    rw [hacts]
    rcases hgoes rfl with ha | hguarded
    · exact ⟨hprec.append (.inl ha), nofun⟩
    · obtain ⟨hprec', -⟩ := step_guarded hab (hguarded ts₁ rfl) hstep
      exact ⟨hprec.append (.inr (hprec'.of_prefix hpre)), nofun⟩
  · rintro cs p l ⟨hprec, -⟩
    exact ⟨hprec, nofun⟩
  · rintro ts' ⟨⟩
    exact hts

end Scan

end Ragel
