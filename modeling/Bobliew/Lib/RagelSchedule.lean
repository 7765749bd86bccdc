import Bobliew.Lib.RagelDelimited

/-!
# Schedules

The actions of a machine on a word, listed by position and stamp. Performing the list in its order, each action
once at a position, is what the machine does with the word.
-/

namespace Ragel

variable {A : Type*}

/-- At an earlier position, or at the same position with a smaller stamp. -/
def Earlier (x y : ℕ × ℕ × A) : Prop := x.1 < y.1 ∨ x.1 = y.1 ∧ x.2.1 < y.2.1

/-- These are the actions on a word. -/
structure Schedule (r : Thread A) (w : List UInt8) (l : List (ℕ × ℕ × A)) : Prop where
  sorted : l.Pairwise Earlier
  mem_iff : ∀ p x, (p, x) ∈ l ↔ r.Acts w p x

/-- The last position, the actions that were performed there, and the state of the actions. -/
structure Progress (A σ : Type*) where
  last : ℕ
  done : List A
  st : σ

variable [DecidableEq A] {σ : Type*} {act : ℕ → A → σ → σ} {r : Thread A} {w : List UInt8} {l : List (ℕ × ℕ × A)}

/-- An action of a schedule is performed, unless it has been performed at this position. -/
def Progress.visit (act : ℕ → A → σ → σ) (e : Progress A σ) (x : ℕ × ℕ × A) : Progress A σ :=
  if x.1 = e.last then
    if x.2.2 ∈ e.done then e else ⟨e.last, x.2.2 :: e.done, act x.1 x.2.2 e.st⟩
  else ⟨x.1, [x.2.2], act x.1 x.2.2 e.st⟩

namespace Progress

variable {e : Progress A σ} {p n : ℕ} {a : A} {s : σ}

/-- An action at a new position. -/
theorem visit_of_ne (h : p ≠ e.last) : e.visit act (p, n, a) = ⟨p, [a], act p a e.st⟩ :=
  if_neg h

/-- An action at the last position that was not performed there. -/
theorem visit_of_not_mem (h : p = e.last) (ha : a ∉ e.done) :
    e.visit act (p, n, a) = ⟨p, a :: e.done, act p a e.st⟩ := by
  subst h
  exact (if_pos rfl).trans (if_neg ha)

/-- An action at the last position that was performed there. -/
theorem visit_of_mem (h : p = e.last) (ha : a ∈ e.done) : e.visit act (p, n, a) = e := by
  subst h
  exact (if_pos rfl).trans (if_pos ha)

/-- An action that was not performed at its position. -/
theorem visit_st (h : p = e.last → a ∉ e.done) : (e.visit act (p, n, a)).st = act p a e.st := by
  by_cases hp : p = e.last
  · rw [visit_of_not_mem hp (h hp)]
  · rw [visit_of_ne hp]

/-- The position of an action becomes the last one. -/
theorem visit_last : (e.visit act (p, n, a)).last = p := by
  by_cases hp : p = e.last
  · by_cases ha : a ∈ e.done
    · rw [visit_of_mem hp ha, hp]
    · rw [visit_of_not_mem hp ha]
  · rw [visit_of_ne hp]

/-- The actions that are performed at a position are those of the schedule there. -/
theorem mem_visit_done {b : A} (h : b ∈ (e.visit act (p, n, a)).done) : b = a ∨ p = e.last ∧ b ∈ e.done := by
  by_cases hp : p = e.last
  · by_cases ha : a ∈ e.done
    · rw [visit_of_mem hp ha] at h
      exact .inr ⟨hp, h⟩
    · rw [visit_of_not_mem hp ha] at h
      exact (List.mem_cons.mp h).imp_right fun h => ⟨hp, h⟩
  · rw [visit_of_ne hp] at h
    exact .inl (List.mem_singleton.mp h)

/-- The actions of one position, when some of them were performed there. -/
theorem foldl_visit (act : ℕ → A → σ → σ) (g : List (ℕ × ℕ × A)) (hg : ∀ x ∈ g, x.1 = p) (e : Progress A σ)
    (he : e.last = p) :
    (g.foldl (visit act) e).last = p ∧ (g.foldl (visit act) e).st =
      performAt act p ((keepFirst (g.map (·.2.2))).filter (· ∉ e.done)) e.st := by
  induction g generalizing e with
  | nil => exact ⟨he, rfl⟩
  | cons x g ih =>
    obtain ⟨q, n, a⟩ := x
    obtain rfl : q = p := hg _ List.mem_cons_self
    have hrest : ∀ x ∈ g, x.1 = q := fun x hx => hg x (List.mem_cons_of_mem _ hx)
    rw [List.foldl_cons, List.map_cons, keepFirst, List.filter_cons]
    by_cases ha : a ∈ e.done
    · rw [visit_of_mem he.symm ha, List.filter_filter]
      obtain ⟨hlast, hst⟩ := ih hrest e he
      refine ⟨hlast, hst.trans (congrArg (fun as => performAt act q as e.st) ?_)⟩
      rw [if_neg (by simpa using ha)]
      refine List.filter_congr fun b _ => ?_
      by_cases hb : b = a
      · subst hb
        simp [ha]
      · simp [hb]
    · rw [visit_of_not_mem he.symm ha]
      obtain ⟨hlast, hst⟩ := ih hrest ⟨q, a :: e.done, act q a e.st⟩ rfl
      refine ⟨hlast, hst.trans ?_⟩
      rw [if_pos (by simpa using ha), List.filter_filter]
      refine congrArg (fun as => performAt act q as (act q a e.st)) (List.filter_congr fun b _ => ?_)
      simp [Bool.and_comm]

/-- The actions of a new position. -/
theorem foldl_visit_of_new (act : ℕ → A → σ → σ) (g : List (ℕ × ℕ × A)) (hg : ∀ x ∈ g, x.1 = p)
    (he : e.last < p ∨ e.done = []) :
    (g.foldl (visit act) e).st = performAt act p (keepFirst (g.map (·.2.2))) e.st ∧
      (e.last ≤ p → (g.foldl (visit act) e).last < p + 1) := by
  cases g with
  | nil => exact ⟨rfl, Nat.lt_succ_of_le⟩
  | cons x g =>
    have hfirst : e.visit act x = visit act ⟨p, [], e.st⟩ x := by
      obtain ⟨q, n, a⟩ := x
      obtain rfl : q = p := hg _ List.mem_cons_self
      rw [visit_of_not_mem (e := ⟨q, [], e.st⟩) rfl List.not_mem_nil]
      by_cases hq : q = e.last
      · have hnil : e.done = [] := he.resolve_left (by omega)
        rw [visit_of_not_mem hq (hnil ▸ List.not_mem_nil), hnil]
      · exact visit_of_ne hq
    obtain ⟨hlast, hst⟩ := foldl_visit act (x :: g) hg ⟨p, [], e.st⟩ rfl
    rw [List.foldl_cons, hfirst, ← List.foldl_cons]
    refine ⟨hst.trans ?_, fun _ => by omega⟩
    simp

end Progress

omit [DecidableEq A] in
/-- The actions up to a position are those before it and those at it. -/
theorem filter_lt_succ (hl : l.Pairwise Earlier) (p : ℕ) :
    l.filter (·.1 < p + 1) = l.filter (·.1 < p) ++ l.filter (·.1 = p) := by
  induction l with
  | nil => rfl
  | cons x l ih =>
    obtain ⟨hx, hl⟩ := List.pairwise_cons.mp hl
    have hle : ∀ y ∈ l, x.1 ≤ y.1 := fun y hy => (hx y hy).elim le_of_lt fun h => h.1.le
    rcases Nat.lt_trichotomy x.1 p with hlt | heq | hgt
    · rw [List.filter_cons_of_pos (by simp; omega), List.filter_cons_of_pos (by simpa using hlt),
        List.filter_cons_of_neg (by simpa using hlt.ne), ih hl]
      rfl
    · have hnone : l.filter (·.1 < p) = [] := by
        refine List.filter_eq_nil_iff.mpr fun y hy => ?_
        have hy := hle y hy
        simp
        omega
      rw [List.filter_cons_of_pos (by simp; omega), List.filter_cons_of_neg (by simpa using heq.ge),
        List.filter_cons_of_pos (by simpa using heq), ih hl, hnone]
      rfl
    · rw [List.filter_cons_of_neg (by simp; omega), List.filter_cons_of_neg (by simpa using hgt.le),
        List.filter_cons_of_neg (by simpa using hgt.ne'), ih hl]

/-- The machine performs the schedule of a word. -/
theorem Schedule.execEof_eq (h : Schedule r w l) (hr : r.tame = true) (hw : w ∈ r.lang) (act : ℕ → A → σ → σ)
    (s₀ : σ) :
    ∃ ts, execEof act w ⟨some [r], 0, s₀, false⟩ =
      ⟨some ts, w.length, (l.foldl (Progress.visit act) ⟨0, [], s₀⟩).st, false⟩ ∧ isFinal ts = true := by
  have hrun : ∀ p ≤ w.length + 1,
      Ran act r s₀ w p ((l.filter (·.1 < p)).foldl (Progress.visit act) ⟨0, [], s₀⟩).st ∧
      (((l.filter (·.1 < p)).foldl (Progress.visit act) ⟨0, [], s₀⟩).last < p ∨
        p = 0 ∧ ((l.filter (·.1 < p)).foldl (Progress.visit act) ⟨0, [], s₀⟩).last = 0 ∧
          ((l.filter (·.1 < p)).foldl (Progress.visit act) ⟨0, [], s₀⟩).done = []) := by
    intro p hp
    induction p with
    | zero =>
      have hnone : l.filter (·.1 < 0) = [] := List.filter_eq_nil_iff.mpr (by simp)
      rw [hnone]
      exact ⟨ran_zero hr act s₀ w, .inr ⟨rfl, rfl, rfl⟩⟩
    | succ p ih =>
      obtain ⟨hran, hlast⟩ := ih (by omega)
      have hexact : ActsExactly r w p ((l.filter (·.1 = p)).map (·.2)) := by
        refine ⟨List.pairwise_map.mpr ?_, fun x => ?_⟩
        · refine (h.sorted.filter _).imp_of_mem fun {x y} hx hy hxy => ?_
          have hx1 : x.1 = p := by simpa using (List.mem_filter.mp hx).2
          have hy1 : y.1 = p := by simpa using (List.mem_filter.mp hy).2
          exact hxy.elim (fun hlt => by omega) fun h => h.2
        · rw [← h.mem_iff, List.mem_map]
          constructor
          · rintro ⟨y, hy, rfl⟩
            obtain ⟨hmem, hpos⟩ := List.mem_filter.mp hy
            obtain rfl : y.1 = p := by simpa using hpos
            exact hmem
          · exact fun hx => ⟨_, List.mem_filter.mpr ⟨hx, by simp⟩, rfl⟩
      have hgroup := Progress.foldl_visit_of_new act
        (e := (l.filter (·.1 < p)).foldl (Progress.visit act) ⟨0, [], s₀⟩) (l.filter (·.1 = p))
        (fun x hx => by simpa using (List.mem_filter.mp hx).2) (hlast.imp_right fun h => h.2.2)
      rw [filter_lt_succ h.sorted, List.foldl_append, hgroup.1]
      refine ⟨?_, .inl (hgroup.2 (hlast.elim le_of_lt fun h => by omega))⟩
      have hstep := hran.step hw (by omega) hexact
      rwa [List.map_map] at hstep
  have hall : l.filter (·.1 < w.length + 1) = l := by
    refine List.filter_eq_self.mpr fun x hx => ?_
    have hle := ((h.mem_iff x.1 x.2).mp hx).1
    simp
    omega
  have hfinished := (hrun _ le_rfl).1.finished
  rwa [hall] at hfinished

/-! ## Sorted entries -/

/-- The entries are sorted, and lie between two positions and between two stamps. -/
structure Within (l : List (ℕ × ℕ × A)) (p p' n n' : ℕ) : Prop where
  sorted : l.Pairwise Earlier
  bounds : ∀ x ∈ l, p ≤ x.1 ∧ x.1 < p' ∧ n ≤ x.2.1 ∧ x.2.1 < n'

omit [DecidableEq A] in
/-- No entries. -/
theorem within_nil (p p' n n' : ℕ) : Within ([] : List (ℕ × ℕ × A)) p p' n n' := ⟨List.Pairwise.nil, by simp⟩

omit [DecidableEq A] in
/-- An entry. -/
theorem within_singleton {p i p' n : ℕ} {a : A} (h : p ≤ i) (h' : i < p') : Within [(i, n, a)] p p' n (n + 1) :=
  ⟨List.pairwise_singleton _ _, by simp; omega⟩

omit [DecidableEq A] in
/-- Two entries. -/
theorem within_pair {p i j p' n : ℕ} {a b : A} (h : p ≤ i) (hij : i ≤ j) (h' : j < p') :
    Within [(i, n, a), (j, n + 1, b)] p p' n (n + 2) := by
  refine ⟨List.pairwise_pair.mpr ?_, by simp; omega⟩
  simp only [Earlier]
  omega

omit [DecidableEq A] in
/-- Entries one behind the other, at later positions or with larger stamps. -/
theorem Within.append {l l' : List (ℕ × ℕ × A)} {p q p' q' n k n' k' : ℕ} (h : Within l p q n k)
    (h' : Within l' p' q' n' k') (hlater : q ≤ p' ∨ q ≤ p' + 1 ∧ k ≤ n') {i j : ℕ} (hi : i ≤ n ∧ i ≤ n') (hj : k ≤ j ∧ k' ≤ j)
    (hp : p ≤ p') (hq : q ≤ q') : Within (l ++ l') p q' i j where
  sorted := by
    refine List.pairwise_append.mpr ⟨h.sorted, h'.sorted, fun x hx y hy => ?_⟩
    have hx := h.bounds x hx
    have hy := h'.bounds y hy
    unfold Earlier
    omega
  bounds x hx := by
    rcases List.mem_append.mp hx with hx | hx
    · have hx := h.bounds x hx
      omega
    · have hx := h'.bounds x hx
      omega

omit [DecidableEq A] in
/-- What is performed at finitely many positions from a list of stamped actions has a schedule. -/
theorem exists_sorted {P : ℕ → ℕ × A → Prop} {xs : List (ℕ × A)} (hxs : xs.Pairwise fun x y => x.1 < y.1)
    {n : ℕ} (h : ∀ p x, P p x → p < n ∧ x ∈ xs) :
    ∃ l : List (ℕ × ℕ × A), l.Pairwise Earlier ∧ ∀ p x, (p, x) ∈ l ↔ P p x := by
  classical
  refine ⟨(List.range n).flatMap fun p => (xs.filter fun x => P p x).map (Prod.mk p), ?_, fun p x => ?_⟩
  · refine List.pairwise_flatMap.mpr ⟨fun p _ => ?_, ?_⟩
    · refine List.pairwise_map.mpr ((hxs.filter _).imp fun hxy => ?_)
      exact .inr ⟨rfl, hxy⟩
    · refine List.pairwise_lt_range.imp fun hpq x hx y hy => ?_
      obtain ⟨_, _, rfl⟩ := List.mem_map.mp hx
      obtain ⟨_, _, rfl⟩ := List.mem_map.mp hy
      exact .inl hpq
  · rw [List.mem_flatMap]
    constructor
    · rintro ⟨q, _, hx⟩
      obtain ⟨y, hy, heq⟩ := List.mem_map.mp hx
      obtain ⟨rfl, rfl⟩ := Prod.mk.inj heq
      simpa using (List.mem_filter.mp hy).2
    · intro hP
      obtain ⟨hlt, hmem⟩ := h p x hP
      exact ⟨p, List.mem_range.mpr hlt, List.mem_map.mpr ⟨x, List.mem_filter.mpr ⟨hmem, by simpa using hP⟩, rfl⟩⟩

end Ragel
