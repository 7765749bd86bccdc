import Bobliew.Lib.Runs

/-!
# Locks that are taken in an order

Code is described by the locks that it takes: critical sections inside one another and one behind the other, with
choices and loops whose conditions are left open. A rank is given to each lock. Code is ordered when each section
stands only in sections of smaller rank.

Threads that run ordered code never wait for one another in a circle, whatever else decides who gets a lock, as long
as a lock that nobody holds is given to whoever asks for it. So some thread can always go on, and every run can be
carried on to its end. Locks that may be shared by readers, and those that are given to writers first, are covered.
-/

/-- Code, described by the locks that it takes. -/
inductive Critical (M : Type*) : Type _ where
  | skip
  | hold (lock : M) (body : Critical M)
  | seq (first rest : Critical M)
  | either (this that : Critical M)
  | anyOf {ι : Type} (code : ι → Critical M)
  | many (body : Critical M)

/-- What a thread does with a lock. -/
inductive LockAction (M : Type*) where
  | lock (m : M)
  | unlock (m : M)

namespace Critical

variable {M : Type*}

/-- The runs of code: the conditions may be true or false at any time. -/
inductive Run : Critical M → List (LockAction M) → Prop
  | skip : Run .skip []
  | hold {m : M} {body : Critical M} {t : List (LockAction M)} : Run body t →
      Run (.hold m body) (.lock m :: (t ++ [.unlock m]))
  | seq {first rest : Critical M} {t t' : List (LockAction M)} : Run first t → Run rest t' →
      Run (.seq first rest) (t ++ t')
  | this {this that : Critical M} {t : List (LockAction M)} : Run this t → Run (.either this that) t
  | that {this that : Critical M} {t : List (LockAction M)} : Run that t → Run (.either this that) t
  | anyOf {ι : Type} {code : ι → Critical M} {t : List (LockAction M)} (i : ι) : Run (code i) t →
      Run (.anyOf code) t
  | done {body : Critical M} : Run (.many body) []
  | again {body : Critical M} {t t' : List (LockAction M)} : Run body t → Run (.many body) t' →
      Run (.many body) (t ++ t')

/-- The code takes locks of at least a rank, and inside each section only locks of larger ranks. -/
def Above (rank : M → ℕ) : ℕ → Critical M → Prop
  | _, .skip => True
  | r, .hold m body => r ≤ rank m ∧ Above rank (rank m + 1) body
  | r, .seq first rest => Above rank r first ∧ Above rank r rest
  | r, .either this that => Above rank r this ∧ Above rank r that
  | r, .anyOf code => ∀ i, Above rank r (code i)
  | r, .many body => Above rank r body

/-- Code above a rank is above smaller ones. -/
theorem Above.mono {rank : M → ℕ} {code : Critical M} {r r' : ℕ} (h : code.Above rank r') (hr : r ≤ r') :
    code.Above rank r := by
  induction code with
  | skip => trivial
  | hold m body _ => exact ⟨hr.trans h.1, h.2⟩
  | seq first rest ihfirst ihrest => exact ⟨ihfirst h.1, ihrest h.2⟩
  | either this that ihthis ihthat => exact ⟨ihthis h.1, ihthat h.2⟩
  | anyOf code ih => exact fun i => ih i (h i)
  | many body ih => exact ih h

end Critical

namespace LockOrder

variable {M W : Type*}

/-- The locks are given back last in, first out, and each one that is taken has a larger rank than all that are
held. -/
inductive Disciplined (rank : M → ℕ) : List M → List (LockAction M) → Prop
  | done : Disciplined rank [] []
  | lock {held : List M} {m : M} {rest : List (LockAction M)} : (∀ h ∈ held, rank h < rank m) →
      Disciplined rank (m :: held) rest → Disciplined rank held (.lock m :: rest)
  | unlock {held : List M} {m : M} {rest : List (LockAction M)} : Disciplined rank held rest →
      Disciplined rank (m :: held) (.unlock m :: rest)

/-- **Ordered code is disciplined,** also inside of sections of smaller rank. -/
theorem disciplined_append {rank : M → ℕ} {code : Critical M} {t : List (LockAction M)} (h : code.Run t) {r : ℕ}
    (habove : code.Above rank r) {held : List M} (hheld : ∀ m ∈ held, rank m < r) {rest : List (LockAction M)}
    (hrest : Disciplined rank held rest) : Disciplined rank held (t ++ rest) := by
  induction h generalizing r held rest with
  | skip => exact hrest
  | @hold m body t _ ih =>
    obtain ⟨hr, hbody⟩ := habove
    have hinside : ∀ n ∈ m :: held, rank n < rank m + 1 := by
      intro n hn
      cases List.mem_cons.mp hn with
      | inl heq => exact heq ▸ Nat.lt_succ_self _
      | inr hold => exact Nat.lt_succ_of_lt (Nat.lt_of_lt_of_le (hheld n hold) hr)
    rw [List.cons_append, List.append_assoc, List.singleton_append]
    apply Disciplined.lock
    · intro n hn
      exact Nat.lt_of_lt_of_le (hheld n hn) hr
    · exact ih hbody hinside (Disciplined.unlock hrest)
  | seq _ _ ihfirst ihrest =>
    rw [List.append_assoc]
    exact ihfirst habove.1 hheld (ihrest habove.2 hheld hrest)
  | this _ ih => exact ih habove.1 hheld hrest
  | that _ ih => exact ih habove.2 hheld hrest
  | anyOf i _ ih => exact ih (habove i) hheld hrest
  | done => exact hrest
  | again _ _ ihbody ihrest =>
    rw [List.append_assoc]
    exact ihbody habove hheld (ihrest habove hheld hrest)

/-- The threads: the locks that each holds, and what it still does. -/
@[ext]
structure Threads (W M : Type*) where
  held : W → List M
  todo : W → List (LockAction M)

variable [DecidableEq W]

/-- A step of a thread. A lock is taken when it is granted. -/
inductive Step (grants : (W → List M) → W → M → Prop) : Threads W M → Threads W M → Prop
  | lock {s : Threads W M} {w : W} {m : M} {rest : List (LockAction M)} : s.todo w = .lock m :: rest →
      grants s.held w m →
      Step grants s ⟨Function.update s.held w (m :: s.held w), Function.update s.todo w rest⟩
  | unlock {s : Threads W M} {w : W} {m : M} {rest : List (LockAction M)} : s.todo w = .unlock m :: rest →
      Step grants s ⟨Function.update s.held w (s.held w).tail, Function.update s.todo w rest⟩

/-- Every thread is disciplined. -/
def Ordered (rank : M → ℕ) (s : Threads W M) : Prop := ∀ w, Disciplined rank (s.held w) (s.todo w)

variable {rank : M → ℕ} {grants : (W → List M) → W → M → Prop} {s s' : Threads W M}

omit [DecidableEq W] in
/-- What a thread in order does next. -/
theorem Ordered.cases (hs : Ordered rank s) (w : W) :
    s.todo w = [] ∧ s.held w = [] ∨
      (∃ m rest, s.todo w = .lock m :: rest ∧ (∀ n ∈ s.held w, rank n < rank m) ∧
        Disciplined rank (m :: s.held w) rest) ∨
      ∃ m held rest, s.todo w = .unlock m :: rest ∧ s.held w = m :: held ∧ Disciplined rank held rest := by
  have hw := hs w
  generalize s.todo w = todo at hw
  generalize s.held w = held at hw
  cases hw with
  | done => exact Or.inl ⟨rfl, rfl⟩
  | lock hlarger hrest => exact Or.inr (Or.inl ⟨_, _, rfl, hlarger, hrest⟩)
  | unlock hrest => exact Or.inr (Or.inr ⟨_, _, _, rfl, rfl, hrest⟩)

/-- What one thread does keeps the others in order. -/
theorem Ordered.update (hs : Ordered rank s) {w : W} {held : List M} {todo : List (LockAction M)}
    (hw : Disciplined rank held todo) :
    Ordered rank ⟨Function.update s.held w held, Function.update s.todo w todo⟩ := by
  intro u
  dsimp only
  by_cases hu : u = w
  · subst hu
    rw [Function.update_self, Function.update_self]
    exact hw
  · rw [Function.update_of_ne hu, Function.update_of_ne hu]
    exact hs u

/-- A step keeps the order. -/
theorem Step.ordered (h : Step grants s s') (hs : Ordered rank s) : Ordered rank s' := by
  cases h with
  | @lock w m rest htodo _ =>
    apply hs.update
    obtain ⟨hnil, _⟩ | ⟨n, more, hlock, _, hrest⟩ | ⟨n, held, more, hunlock, _⟩ := hs.cases w
    · cases htodo.symm.trans hnil
    · cases htodo.symm.trans hlock
      exact hrest
    · cases htodo.symm.trans hunlock
  | @unlock w m rest htodo =>
    apply hs.update
    obtain ⟨hnil, _⟩ | ⟨n, more, hlock, _⟩ | ⟨n, held, more, hunlock, hheld, hrest⟩ := hs.cases w
    · cases htodo.symm.trans hnil
    · cases htodo.symm.trans hlock
    · cases htodo.symm.trans hunlock
      rw [hheld]
      exact hrest

/-- The rank of the lock that a thread asks for, counted from one; zero for none. -/
def wanted (rank : M → ℕ) : List (LockAction M) → ℕ
  | .lock m :: _ => rank m + 1
  | _ => 0

/-- **Somebody can go on.** A lock that nobody holds is granted, and some thread has something to do. Among all
threads look at one that asks for a lock of the largest rank: who holds that lock would ask for a larger one. -/
theorem exists_step [Finite W] (hgrants : ∀ held w m, (∀ u, m ∉ held u) → grants held w m) (hs : Ordered rank s)
    {w : W} (hw : s.todo w ≠ []) : ∃ s', Step grants s s' := by
  by_contra hstuck
  have hnone : ∀ s', ¬Step grants s s' := fun s' h => hstuck ⟨s', h⟩
  -- Nobody is in front of an unlock.
  have hwaits : ∀ u, s.todo u = [] ∧ s.held u = [] ∨
      ∃ m rest, s.todo u = .lock m :: rest ∧ ∀ n ∈ s.held u, rank n < rank m := by
    intro u
    obtain hdone | ⟨m, rest, hlock, hlarger, _⟩ | ⟨m, held, rest, hunlock, _⟩ := hs.cases u
    · exact Or.inl hdone
    · exact Or.inr ⟨m, rest, hlock, hlarger⟩
    · exact (hnone _ (Step.unlock hunlock)).elim
  have : Nonempty W := ⟨w⟩
  obtain ⟨last, hlast⟩ := Finite.exists_max fun u => wanted rank (s.todo u)
  have hlastWaits : s.todo last ≠ [] := by
    intro hnil
    obtain ⟨hdone, _⟩ | ⟨m, rest, htodo, _⟩ := hwaits w
    · exact hw hdone
    · have hle := hlast w
      rw [htodo, hnil] at hle
      exact Nat.not_succ_le_zero _ hle
  obtain ⟨hdone, _⟩ | ⟨m, rest, htodo, _⟩ := hwaits last
  · exact hlastWaits hdone
  have hheld : ∃ u, m ∈ s.held u := by
    by_contra hfree
    have hgrant := hgrants s.held last m fun u hu => hfree ⟨u, hu⟩
    exact hnone _ (Step.lock htodo hgrant)
  obtain ⟨u, hu⟩ := hheld
  obtain ⟨_, hempty⟩ | ⟨n, more, hasks, hlarger⟩ := hwaits u
  · rw [hempty] at hu
    cases hu
  · have hmost := hlast u
    rw [hasks, htodo] at hmost
    exact absurd (hlarger m hu) (Nat.not_lt.mpr (Nat.le_of_succ_le_succ hmost))

/-- What all threads have to do is less after a step. -/
theorem Step.shorter [Fintype W] (h : Step grants s s') :
    (∑ u, (s'.todo u).length) + 1 = ∑ u, (s.todo u).length := by
  have hupdate (w : W) (action : LockAction M) (rest : List (LockAction M)) (htodo : s.todo w = action :: rest) :
      (∑ u, (Function.update s.todo w rest u).length) + 1 = ∑ u, (s.todo u).length := by
    have hsum := Runs.sum_update s.todo List.length w rest
    rw [htodo, List.length_cons] at hsum
    omega
  cases h with
  | lock htodo _ => exact hupdate _ _ _ htodo
  | unlock htodo => exact hupdate _ _ _ htodo

/-- The runs of the threads. -/
def Reaches (grants : (W → List M) → W → M → Prop) : Threads W M → Threads W M → Prop :=
  Relation.ReflTransGen (Step grants)

/-- A run keeps the order. -/
theorem Reaches.ordered (h : Reaches grants s s') (hs : Ordered rank s) : Ordered rank s' := by
  induction h with
  | refl => exact hs
  | tail _ hstep ih => exact hstep.ordered ih

/-- Threads in order can be carried on to the end, where nothing is held. -/
theorem exists_end [Finite W] (hgrants : ∀ held w m, (∀ u, m ∉ held u) → grants held w m) (hs : Ordered rank s) :
    ∃ s', Reaches grants s s' ∧ ∀ w, s'.todo w = [] ∧ s'.held w = [] := by
  have := Fintype.ofFinite W
  induction hleft : ∑ u, (s.todo u).length using Nat.strong_induction_on generalizing s with
  | _ left ih =>
    by_cases hdone : ∀ w, s.todo w = []
    · refine ⟨s, Relation.ReflTransGen.refl, fun w => ⟨hdone w, ?_⟩⟩
      obtain ⟨_, hheld⟩ | ⟨m, rest, hlock, _⟩ | ⟨m, held, rest, hunlock, _⟩ := hs.cases w
      · exact hheld
      · cases (hdone w).symm.trans hlock
      · cases (hdone w).symm.trans hunlock
    · obtain ⟨w, hw⟩ := not_forall.mp hdone
      obtain ⟨next, hstep⟩ := exists_step hgrants hs hw
      have hless : ∑ u, (next.todo u).length < left := by
        rw [← hleft, ← hstep.shorter]
        exact Nat.lt_succ_self _
      obtain ⟨last, hreaches, hend⟩ := ih _ hless (hstep.ordered hs) rfl
      exact ⟨last, Relation.ReflTransGen.head hstep hreaches, hend⟩

/-- Threads that hold nothing and run ordered code. -/
def start (todo : W → List (LockAction M)) : Threads W M := ⟨fun _ => [], todo⟩

omit [DecidableEq W] in
/-- Threads that run ordered code are in order. -/
theorem ordered_start {code : W → Critical M} {todo : W → List (LockAction M)} (hrun : ∀ w, (code w).Run (todo w))
    (habove : ∀ w, (code w).Above rank 0) : Ordered rank (start todo) := by
  intro w
  have happend := disciplined_append (hrun w) (habove w) (fun _ h => absurd h List.not_mem_nil) Disciplined.done
  rwa [List.append_nil] at happend

end LockOrder
