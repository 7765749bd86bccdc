import Bobliew.Lib.RagelLanguage

/-!
# What the actions of a machine store of a text

The actions of a machine work on a state of their own. Which states hold a datum, once the buffer is read up
to some position, is given by a handler. A part of a text carries one machine state and datum to others if the
machine gets from the one state to the other over it, and the actions it performs turn every state that holds
the one datum into a state that holds the other, wherever the part stands in the buffer and whatever follows.

Parts one after the other compose, so a whole text is carried as soon as its parts are.
-/

namespace Ragel

/-- What the actions do at a position of a buffer, and which states hold a datum behind a position. A state
that holds a datum holds it at every later position. -/
structure Handler (A S D : Type*) where
  breaks : A → Bool
  perform : List UInt8 → ℕ → A → S → S
  Holds : ℕ → D → S → Prop
  mono : ∀ {k l : ℕ} {d : D} {s : S}, k ≤ l → Holds k d s → Holds l d s

namespace Handler

variable {A S D : Type*} (H : Handler A S D)

/-- Perform the actions of a run that begins at a position of a buffer. -/
def performAlong (buffer : List UInt8) (k : ℕ) (evs : List (ℕ × A)) (s : S) : S :=
  (shifted k evs).foldl (fun s x => H.perform buffer x.1 x.2 s) s

@[simp] theorem performAlong_nil (buffer : List UInt8) (k : ℕ) (s : S) : H.performAlong buffer k [] s = s := rfl

@[simp] theorem performAlong_cons (buffer : List UInt8) (k i : ℕ) (a : A) (evs : List (ℕ × A)) (s : S) :
    H.performAlong buffer k ((i, a) :: evs) s = H.performAlong buffer k evs (H.perform buffer (i + k) a s) := rfl

/-- The actions of two runs one after the other. -/
theorem performAlong_append (buffer : List UInt8) (k n : ℕ) (evs evs' : List (ℕ × A)) (s : S) :
    H.performAlong buffer k (evs ++ shifted n evs') s =
      H.performAlong buffer (k + n) evs' (H.performAlong buffer k evs s) := by
  have hshift : shifted k (evs ++ shifted n evs') = shifted k evs ++ shifted (k + n) evs' := by
    simp [shifted, Nat.add_assoc, Nat.add_comm n]
  rw [performAlong, hshift, List.foldl_append]
  rfl

variable [DecidableEq A]

/-- A part of a text behind `before` carries one machine state and datum to others. -/
def Carries (before : List UInt8) (ts : List (Thread A)) (d : D) (part : List UInt8) (ts' : List (Thread A))
    (d' : D) : Prop :=
  ∃ evs, Consumes H.breaks ts part ts' evs ∧ ∀ rest s, H.Holds before.length d s →
    H.Holds (before ++ part).length d' (H.performAlong (before ++ part ++ rest) before.length evs s)

variable {H} {before part part' rest : List UInt8} {ts ts' ts'' : List (Thread A)} {d d' d'' : D} {s : S}

/-- Nothing is carried without a byte. -/
theorem Carries.nil (before : List UInt8) (ts : List (Thread A)) (d : D) : H.Carries before ts d [] ts d := by
  refine ⟨[], .nil ts, fun rest s hs => ?_⟩
  rwa [List.append_nil, performAlong_nil]

/-- Two parts one after the other. -/
theorem Carries.append (h : H.Carries before ts d part ts' d')
    (h' : H.Carries (before ++ part) ts' d' part' ts'' d'') :
    H.Carries before ts d (part ++ part') ts'' d'' := by
  obtain ⟨evs, hread, hhold⟩ := h
  obtain ⟨evs', hread', hhold'⟩ := h'
  refine ⟨evs ++ shifted part.length evs', hread.append hread', fun rest s hs => ?_⟩
  have hsecond := hhold' rest _ (hhold (part' ++ rest) s hs)
  have hbuffer : before ++ part ++ part' ++ rest = before ++ part ++ (part' ++ rest) := List.append_assoc _ _ _
  rw [performAlong_append, ← List.append_assoc before, hbuffer, ← List.length_append]
  rwa [hbuffer] at hsecond

/-- What is known before a part may be more, and behind it less. -/
theorem Carries.imp {e e' : D} (h : H.Carries before ts d part ts' d') (hd : ∀ k s, H.Holds k e s → H.Holds k d s)
    (hd' : ∀ k s, H.Holds k d' s → H.Holds k e' s) : H.Carries before ts e part ts' e' := by
  obtain ⟨evs, hread, hhold⟩ := h
  exact ⟨evs, hread, fun rest s hs => hd' _ _ (hhold rest s (hd _ _ hs))⟩

/-- A part on which nothing is performed. -/
theorem Carries.silent (h : Consumes H.breaks ts part ts' []) : H.Carries before ts d part ts' d := by
  refine ⟨[], h, fun rest s hs => H.mono ?_ hs⟩
  rw [List.length_append]
  exact Nat.le_add_right _ _

/-- A part with the actions performed at its beginning. -/
theorem Carries.atStart (acts : List A) (h : Consumes H.breaks ts part ts' (acts.map fun a => (0, a)))
    (hact : ∀ rest s, H.Holds before.length d s →
      H.Holds before.length d'
        (acts.foldl (fun s a => H.perform (before ++ part ++ rest) before.length a s) s)) :
    H.Carries before ts d part ts' d' := by
  refine ⟨_, h, fun rest s hs => ?_⟩
  have hevs : shifted before.length (acts.map fun a => (0, a)) = acts.map fun a => (before.length, a) := by
    simp [shifted]
  rw [performAlong, hevs, List.foldl_map, List.length_append]
  exact H.mono (Nat.le_add_right _ _) (hact rest s hs)

/-- A text of bytes on each of which the machine stays where it is and performs nothing. -/
theorem Carries.loop (h : ∀ c ∈ part, step ts c = some (ts, [])) : H.Carries before ts d part ts d := by
  induction part generalizing before with
  | nil => exact .nil before ts d
  | cons c part ih =>
    have hone : H.Carries before ts d [c] ts d := .silent (.byte (h c List.mem_cons_self) rfl)
    exact hone.append (ih fun x hx => h x (List.mem_cons_of_mem c hx))

/-- Texts one after the other that each lead back to the same machine state. -/
theorem Carries.flatMap {X : Type*} {text : X → List UInt8} {store : D → X → D} {xs : List X}
    (h : ∀ before d, ∀ x ∈ xs, H.Carries before ts d (text x) ts (store d x)) :
    H.Carries before ts d (xs.flatMap text) ts (xs.foldl store d) := by
  induction xs generalizing before d with
  | nil => exact .nil before ts d
  | cons x xs ih =>
    have hone := h before d x List.mem_cons_self
    exact hone.append (ih fun before d y hy => h before d y (List.mem_cons_of_mem x hy))

/-- The machine on a text that begins with a part it carries: it goes on behind the part, from a state that
holds the datum. -/
theorem Carries.exec (h : H.Carries [] ts d part ts' d') (hs : H.Holds 0 d s) (rest : List UInt8) :
    ∃ s', H.Holds part.length d' s' ∧
      exec (H.perform (part ++ rest)) H.breaks (part ++ rest) ⟨some ts, 0, s, false⟩ =
        let e := scan H.breaks rest (some ts')
        ⟨e.cs, e.p + part.length,
          e.st.foldl (fun s x => H.perform (part ++ rest) (x.1 + part.length) x.2 s) s', e.stopped⟩ := by
  obtain ⟨evs, hread, hhold⟩ := h
  have hheld := hhold rest s hs
  have hgoes : (scan H.breaks part (some ts)).stopped = false := by rw [hread]
  have hscan := scan_append hgoes rest
  have hshift : shifted ([] : List UInt8).length evs = evs := by simp [shifted]
  rw [performAlong, hshift, List.nil_append] at hheld
  refine ⟨_, hheld, ?_⟩
  rw [exec_eq_scan, hscan, hread]
  simp only [List.foldl_append, List.foldl_map, Nat.add_zero]

end Handler

end Ragel
