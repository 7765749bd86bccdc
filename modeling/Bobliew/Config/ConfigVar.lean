import Bobliew.Lib.Runs

/-!
# Configuration variables and their listeners

`ConfigVar::setValue` compares and notifies its listeners under the read lock, releases it, and stores the
new value under the write lock. Each of the two sections is one step; any number of calls are between them
at a time, since readers do not exclude each other.

The listeners follow the variable in the runs in which no call notifies while another has yet to store its
value. Two calls that overlap are stored in either order, and the listeners are left with the value of the
one that notified last.
-/

namespace Bobliew

/-- A call of a listener. -/
structure Notification (T : Type*) where
  listener : ℕ
  oldValue : T
  newValue : T

/-- A call of `setValue` between its two sections, with the notifications it has made. -/
structure SetCall (T : Type*) where
  value : T
  notified : List (Notification T)

/-- The value of the variable and the keys of its listeners. -/
structure ConfigVar (T : Type*) where
  val : T
  cbs : List ℕ

/-- A variable with the calls of `setValue` in progress, the notifications made so far, and each of them
again with the value that the variable held when it took the new one. -/
structure ConfigUse (T : Type*) where
  var : ConfigVar T
  setting : List (SetCall T)
  delivered : List (Notification T)
  taken : List (Notification T × T)

/-- One locked section of `setValue`. -/
inductive ConfigStep (T : Type*) where
  | notify (value : T)
  | assign (call : ℕ)

namespace ConfigVar

variable {T : Type*}

/-- `getValue`. -/
def getValue (var : ConfigVar T) : T := var.val

/-- The section of `setValue` under the read lock; an equal value ends the call. -/
def compareAndNotify [DecidableEq T] (var : ConfigVar T) (v : T) : Option (List (Notification T)) :=
  if v = var.val then none else some (var.cbs.map fun i => ⟨i, var.val, v⟩)

/-- The section of `setValue` under the write lock. -/
def assign (var : ConfigVar T) (v : T) : ConfigVar T := { var with val := v }

end ConfigVar

/-- The last value delivered to a listener that was given `initial` when it was registered. -/
def lastDelivered {T : Type*} (initial : T) (delivered : List (Notification T)) (listener : ℕ) : T :=
  delivered.foldl (fun last n => if n.listener = listener then n.newValue else last) initial

namespace ConfigUse

variable {T : Type*} [DecidableEq T] {initial : T} {cbs : List ℕ} {s : ConfigUse T}

/-- A variable whose listeners are registered and that nobody sets. -/
def init (initial : T) (cbs : List ℕ) : ConfigUse T := ⟨⟨initial, cbs⟩, [], [], []⟩

/-- Perform one section. -/
def step (s : ConfigUse T) : ConfigStep T → ConfigUse T
  | .notify v =>
    match s.var.compareAndNotify v with
    | none => s
    | some notified =>
      { s with setting := s.setting ++ [⟨v, notified⟩], delivered := s.delivered ++ notified }
  | .assign i =>
    match s.setting[i]? with
    | none => s
    | some call =>
      { s with
        var := s.var.assign call.value
        setting := s.setting.eraseIdx i
        taken := s.taken ++ call.notified.map fun n => (n, s.var.getValue) }

/-- While nobody sets the variable every listener has its value, and each notification gave as the old value
the one that the variable held when it took the new one. -/
structure InStep (initial : T) (s : ConfigUse T) : Prop where
  last : s.setting = [] → ∀ i ∈ s.var.cbs, lastDelivered initial s.delivered i = s.var.getValue
  takes : ∀ p ∈ s.taken, p.1.oldValue = p.2

/-- The steps in which no call notifies while another has yet to store its value. -/
def Alone (s : ConfigUse T) : ConfigStep T → Prop
  | .notify v => v ≠ s.var.val → s.setting = []
  | .assign _ => True

/-- The invariant: at most one call is in progress; it has delivered its value and holds the old one. -/
structure Inv (initial : T) (s : ConfigUse T) : Prop where
  settled : s.setting = [] → ∀ i ∈ s.var.cbs, lastDelivered initial s.delivered i = s.var.val
  setting : ∀ call ∈ s.setting, s.setting = [call] ∧
    (∀ i ∈ s.var.cbs, lastDelivered initial s.delivered i = call.value) ∧
    ∀ n ∈ call.notified, n.oldValue = s.var.val
  takes : ∀ p ∈ s.taken, p.1.oldValue = p.2

omit [DecidableEq T] in
/-- A value delivered to all listeners is the last one of each of them. -/
theorem lastDelivered_notified (delivered : List (Notification T)) (old new : T) {i : ℕ} (hi : i ∈ cbs) :
    lastDelivered initial (delivered ++ cbs.map fun i => ⟨i, old, new⟩) i = new := by
  have hfold : ∀ (cbs : List ℕ) (last : T),
      (cbs.map fun i => (⟨i, old, new⟩ : Notification T)).foldl
        (fun last n => if n.listener = i then n.newValue else last) last = if i ∈ cbs then new else last := by
    intro cbs
    induction cbs with
    | nil => exact fun _ => rfl
    | cons j cbs ih =>
      intro last
      rw [List.map_cons, List.foldl_cons, ih]
      by_cases hji : j = i
      · simp [hji]
      · simp [hji, Ne.symm hji]
  rw [lastDelivered, List.foldl_append, hfold, if_pos hi]

/-- Every section that is alone keeps the invariant. -/
theorem Inv.step (h : Inv initial s) {i : ConfigStep T} (halone : s.Alone i) : Inv initial (s.step i) := by
  cases i with
  | notify v =>
    simp only [ConfigUse.step, ConfigVar.compareAndNotify]
    by_cases hv : v = s.var.val
    · rw [if_pos hv]
      exact h
    · rw [if_neg hv]
      have hnone := halone hv
      refine ⟨fun hempty => ?_, fun call hcall => ?_, h.takes⟩
      · simp at hempty
      · have hcall' : call = ⟨v, s.var.cbs.map fun i => ⟨i, s.var.val, v⟩⟩ := by
          simpa [hnone] using hcall
        subst hcall'
        refine ⟨by simp [hnone], fun i hi => lastDelivered_notified _ _ _ hi, fun n hn => ?_⟩
        obtain ⟨i, -, rfl⟩ := List.mem_map.mp hn
        rfl
  | assign i =>
    simp only [ConfigUse.step]
    cases hcall : s.setting[i]? with
    | none => exact h
    | some call =>
      obtain ⟨hone, hlast, hold⟩ := h.setting call (List.mem_of_getElem? hcall)
      have hi : i = 0 := by
        have hlt := (List.getElem?_eq_some_iff.mp hcall).1
        rw [hone, List.length_singleton] at hlt
        omega
      have hnone : s.setting.eraseIdx i = [] := by rw [hone, hi]; rfl
      refine ⟨fun _ => hlast, fun other hother => ?_, fun p hp => ?_⟩
      · exact absurd hother (by simp [hnone])
      · rcases List.mem_append.mp hp with hbefore | hnow
        · exact h.takes p hbefore
        · obtain ⟨n, hn, rfl⟩ := List.mem_map.mp hnow
          exact hold n hn

/-- In the runs in which no call of `setValue` notifies while another has yet to store its value, the
listeners follow the variable. -/
theorem listeners_in_step
    (h : Runs.Reaches (Runs.faultless ConfigUse.step) Alone (init initial cbs) s) : InStep initial s := by
  have hinv : Inv initial s := by
    refine h.invariant (Inv initial) ⟨fun _ _ _ => rfl, fun call hcall => ?_, fun p hp => ?_⟩
      fun s i s' hs halone hok => ?_
    · exact absurd hcall List.not_mem_nil
    · exact absurd hp List.not_mem_nil
    · cases hok
      exact hs.step halone
  exact ⟨hinv.settled, hinv.takes⟩

/-- A value is set, and then another. -/
theorem listeners_in_step_twoValues :
    ∃ s : ConfigUse ℕ, Runs.Reaches (Runs.faultless step) Alone (init 0 [1]) s ∧ s.var.val = 2 ∧
      InStep 0 s := by
  have hfirst : Runs.Reaches (Runs.faultless step) Alone (init 0 [1]) _ :=
    .next .start (.notify 1) (fun _ => rfl) rfl
  have hsecond := (hfirst.next (.assign 0) trivial rfl).next (.notify 2) (fun _ => rfl) rfl
  have hset := hsecond.next (.assign 0) trivial rfl
  exact ⟨_, hset, rfl, listeners_in_step hset⟩

/-- Two calls notify before either stores its value: the listener is left with 2, the variable with 1. -/
theorem listener_left_behind :
    ∃ s : ConfigUse ℕ, Runs.Reaches (Runs.faultless step) (fun _ _ => True) (init 0 [1]) s ∧
      s.setting = [] ∧ s.var.getValue = 1 ∧ lastDelivered 0 s.delivered 1 = 2 ∧ ¬ InStep 0 s := by
  have hfirst : Runs.Reaches (Runs.faultless step) (fun _ _ => True) (init 0 [1]) _ :=
    .next .start (.notify 1) trivial rfl
  have hboth := hfirst.next (.notify 2) trivial rfl
  have hstored := (hboth.next (.assign 1) trivial rfl).next (.assign 0) trivial rfl
  refine ⟨_, hstored, rfl, rfl, rfl, fun hinStep => ?_⟩
  exact absurd (hinStep.last rfl 1 (List.mem_singleton_self 1)) (by decide)

end ConfigUse

end Bobliew
