import Mathlib

/-!
# Regular expressions with embedded actions

The fragment of the Ragel language that the parsers use: byte sets, alternation, concatenation and
repetition, entering (`>`), leaving (`%`) and finishing (`@`) actions, and the named priorities behind
the guarded concatenations `:>` and `:>>`. A state of the compiled machine is the list of expressions
that may still follow, called threads, and a byte takes every thread to its partial derivatives.

Where several transitions meet on one byte, those beaten on a common priority name are dropped and the
actions of the others are performed together, ordered by the time stamps of their embeddings. As in
Ragel, the entering action of an expression that accepts the empty string is also a leaving action.
The operand of a repetition is not expected to accept the empty string, nor to begin with a repetition
that has entering actions of its own.

The last part is the loop that drives a machine over a buffer: it performs the actions of each byte,
stops when no transition is left, and leaves early when an action breaks.
-/

namespace Ragel

/-- A set of bytes. -/
inductive ByteSet where
  | range (lo hi : ℕ)
  | union (s t : ByteSet)
  | diff (s t : ByteSet)
  deriving DecidableEq

/-- Membership in a set of bytes. -/
def ByteSet.has (c : UInt8) : ByteSet → Bool
  | .range lo hi => Nat.ble lo c.toNat && Nat.ble c.toNat hi
  | .union s t => s.has c || t.has c
  | .diff s t => s.has c && !t.has c

/-- An expression over actions of type `A`. -/
inductive Rx (A : Type*) where
  | empty
  | byte (s : ByteSet)
  | alt (r s : Rx A)
  | cat (r s : Rx A)
  | star (r : Rx A)
  | enter (a : A) (r : Rx A)
  | leave (a : A) (r : Rx A)
  | finish (a : A) (r : Rx A)
  | prioAll (name value : ℕ) (r : Rx A)
  | prioEnter (name value : ℕ) (r : Rx A)
  | prioFinish (name value : ℕ) (r : Rx A)
  deriving DecidableEq

variable {A B : Type*}

namespace Rx

/-- A character by itself. -/
def chr (c : Char) : Rx A :=
  .byte (.range c.toNat c.toNat)

/-- One of several expressions; none of them matches when the list is empty. -/
def oneOf : List (Rx A) → Rx A
  | [] => .byte (.range 1 0)
  | [r] => r
  | r :: rs => .alt r (oneOf rs)

/-- The expressions of a list one after the other. -/
def seq : List (Rx A) → Rx A
  | [] => .empty
  | [r] => r
  | r :: rs => .cat r (seq rs)

/-- A fixed text. -/
def text (cs : List Char) : Rx A :=
  seq (cs.map chr)

/-- `r?`. -/
def opt (r : Rx A) : Rx A :=
  .alt r .empty

/-- `r+`. -/
def plus (r : Rx A) : Rx A :=
  .cat r (.star r)

/-- `r{0,n}`. -/
def upTo (r : Rx A) : ℕ → Rx A
  | 0 => .empty
  | n + 1 => opt (.cat r (upTo r n))

/-- `n` copies of `r` in front of `s`. -/
def times (r : Rx A) : ℕ → Rx A → Rx A
  | 0, s => s
  | n + 1, s => .cat r (times r n s)

/-- `r :> s` with its unique priority name. -/
def entryGuarded (name : ℕ) (r s : Rx A) : Rx A :=
  .cat (.prioAll name 0 r) (.prioEnter name 1 s)

/-- `r :>> s` with its unique priority name. -/
def finishGuarded (name : ℕ) (r s : Rx A) : Rx A :=
  .cat (.prioAll name 0 r) (.prioFinish name 1 s)

/-- The actions performed when the expression is left at once, if it accepts the empty string. -/
def null : Rx A → Option (List A)
  | .empty => some []
  | .byte _ => none
  | .alt r s =>
    match r.null, s.null with
    | none, out => out
    | some out, none => some out
    | some out, some out' => some (out ++ out')
  | .cat r s =>
    match r.null, s.null with
    | some out, some out' => some (out ++ out')
    | _, _ => none
  | .star r => some (r.null.getD [])
  | .enter a r => r.null.map (a :: ·)
  | .leave a r => r.null.map (· ++ [a])
  | .finish _ r => r.null
  | .prioAll _ _ r => r.null
  | .prioEnter _ _ r => r.null
  | .prioFinish _ _ r => r.null

/-- Move the stamps of the entering actions that the first byte performs. -/
def shiftStart (k : ℕ) : Rx (ℕ × A) → Rx (ℕ × A)
  | .empty => .empty
  | .byte s => .byte s
  | .alt r s => .alt (r.shiftStart k) (s.shiftStart k)
  | .cat r s => .cat (r.shiftStart k) (if r.null.isSome then s.shiftStart k else s)
  | .star r => .star r
  | .enter a r => .enter (a.1 + k, a.2) (r.shiftStart k)
  | .leave a r => .leave a (r.shiftStart k)
  | .finish a r => .finish a (r.shiftStart k)
  | .prioAll name v r => .prioAll name v (r.shiftStart k)
  | .prioEnter name v r => .prioEnter name v (r.shiftStart k)
  | .prioFinish name v r => .prioFinish name v (r.shiftStart k)

/-- Stamp the embedded actions from `n` on: an entering action before its operand, every other one
after it. In a repetition the entering actions of the next round come after the leaving ones of the
last, so they are stamped once more. The next free stamp is returned with the stamped expression. -/
def stamp : Rx A → ℕ → Rx (ℕ × A) × ℕ
  | .empty, n => (.empty, n)
  | .byte s, n => (.byte s, n)
  | .alt r s, n =>
    let r' := r.stamp n
    let s' := s.stamp r'.2
    (.alt r'.1 s'.1, s'.2)
  | .cat r s, n =>
    let r' := r.stamp n
    let s' := s.stamp r'.2
    (.cat r'.1 s'.1, s'.2)
  | .star r, n =>
    let r' := r.stamp n
    (.star (r'.1.shiftStart (r'.2 - n)), r'.2 + (r'.2 - n))
  | .enter a r, n =>
    let r' := r.stamp (n + 1)
    (.enter (n, a) r'.1, r'.2)
  | .leave a r, n =>
    let r' := r.stamp n
    (.leave (r'.2, a) r'.1, r'.2 + 1)
  | .finish a r, n =>
    let r' := r.stamp n
    (.finish (r'.2, a) r'.1, r'.2 + 1)
  | .prioAll k v r, n =>
    let r' := r.stamp n
    (.prioAll k v r'.1, r'.2)
  | .prioEnter k v r, n =>
    let r' := r.stamp n
    (.prioEnter k v r'.1, r'.2)
  | .prioFinish k v r, n =>
    let r' := r.stamp n
    (.prioFinish k v r'.1, r'.2)

/-- Concatenation that forgets a finished left operand. -/
def followedBy : Rx A → Rx A → Rx A
  | .empty, s => s
  | r, s => .cat r s

end Rx

/-- A transition on one byte: what it performs, the priorities it carries, and what may follow. -/
structure Edge (A : Type*) where
  acts : List A
  prios : List (ℕ × ℕ)
  cont : Rx A

namespace Rx

/-- The transitions of an expression on a byte. -/
def der (c : UInt8) : Rx A → List (Edge A)
  | .empty => []
  | .byte s => if s.has c then [⟨[], [], .empty⟩] else []
  | .alt r s => r.der c ++ s.der c
  | .cat r s =>
    (r.der c).map (fun e => { e with cont := e.cont.followedBy s }) ++
      match r.null with
      | none => []
      | some out => (s.der c).map fun e => { e with acts := out ++ e.acts }
  | .star r => (r.der c).map fun e => { e with cont := e.cont.followedBy (.star r) }
  | .enter a r => (r.der c).map fun e => { e with acts := a :: e.acts }
  | .leave a r => (r.der c).map fun e => { e with cont := .leave a e.cont }
  | .finish a r => (r.der c).map fun e =>
    { e with acts := if e.cont.null.isSome then e.acts ++ [a] else e.acts, cont := .finish a e.cont }
  | .prioAll k v r => (r.der c).map fun e =>
    { e with prios := (k, v) :: e.prios, cont := .prioAll k v e.cont }
  | .prioEnter k v r => (r.der c).map fun e => { e with prios := (k, v) :: e.prios }
  | .prioFinish k v r => (r.der c).map fun e =>
    { e with
      prios := if e.cont.null.isSome then (k, v) :: e.prios else e.prios
      cont := .prioFinish k v e.cont }

end Rx

/-- Whether a transition has the greater priority of some name that both carry. -/
def Edge.beats (e f : Edge A) : Bool :=
  e.prios.any fun p => f.prios.any fun q => p.1 == q.1 && Nat.blt q.2 p.2

/-- The first occurrence of every value. -/
def keepFirst [DecidableEq B] : List B → List B
  | [] => []
  | b :: bs => b :: (keepFirst bs).filter (fun b' => !decide (b' = b))

/-- A stamped expression that may still follow. -/
abbrev Thread (A : Type*) := Rx (ℕ × A)

/-- The transitions of a list of threads that no other transition beats. -/
def liveEdges (ts : List (Thread A)) (c : UInt8) : List (Edge (ℕ × A)) :=
  let es := ts.flatMap (·.der c)
  es.filter fun e => !es.any (·.beats e)

/-- The actions of several transitions in the order of their stamps, each of them once. -/
def merged [DecidableEq A] (es : List (Edge (ℕ × A))) : List A :=
  keepFirst (((es.flatMap (·.acts)).insertionSort fun a b => a.1 ≤ b.1).map (·.2))

/-- The transition of the machine on a byte: the threads that follow and the actions to perform. -/
def step [DecidableEq A] (ts : List (Thread A)) (c : UInt8) : Option (List (Thread A) × List A) :=
  match liveEdges ts c with
  | [] => none
  | e :: es => some (keepFirst ((e :: es).map (·.cont)), merged (e :: es))

/-- Whether no byte may follow. -/
def Rx.spent : Rx A → Bool
  | .empty => true
  | .byte _ => false
  | .alt r s => r.spent && s.spent
  | .cat r s => r.spent && (r.null.isNone || s.spent)
  | .star r => r.spent
  | .enter _ r => r.spent
  | .leave _ r => r.spent
  | .finish _ r => r.spent
  | .prioAll _ _ r => r.spent
  | .prioEnter _ _ r => r.spent
  | .prioFinish _ _ r => r.spent

/-- Whether a list of threads is a final state of the machine. -/
def isFinal (ts : List (Thread A)) : Bool :=
  ts.any (·.null.isSome)

/-! ## What a transition consists of -/

/-- A set of one byte. -/
theorem ByteSet.has_one {n : ℕ} {c : UInt8} : (ByteSet.range n n).has c = true ↔ c.toNat = n := by
  rw [has, Bool.and_eq_true, Nat.ble_eq, Nat.ble_eq]
  exact ⟨fun h => Nat.le_antisymm h.2 h.1, fun h => by simp [h]⟩

namespace Rx

variable {r s : Rx A} {e : Edge A} {c : UInt8}

/-- The transitions of a byte set. -/
theorem mem_der_byte {s : ByteSet} : e ∈ (Rx.byte s).der c ↔ s.has c = true ∧ e = ⟨[], [], .empty⟩ := by
  simp only [der]
  split <;> simp_all

/-- The transitions of a character. -/
theorem mem_der_chr {ch : Char} :
    e ∈ (Rx.chr ch).der c ↔ c.toNat = ch.toNat ∧ e = ⟨[], [], .empty⟩ :=
  mem_der_byte.trans (and_congr_left' ByteSet.has_one)

/-- The transitions of an alternation. -/
theorem mem_der_alt : e ∈ (Rx.alt r s).der c ↔ e ∈ r.der c ∨ e ∈ s.der c :=
  List.mem_append

/-- The transitions of a concatenation: inside its first part, or past it. -/
theorem mem_der_cat : e ∈ (Rx.cat r s).der c ↔
    (∃ e' ∈ r.der c, { e' with cont := e'.cont.followedBy s } = e) ∨
      ∃ out, r.null = some out ∧ ∃ e' ∈ s.der c, { e' with acts := out ++ e'.acts } = e := by
  rw [der, List.mem_append, List.mem_map]
  cases r.null <;> simp

/-- A transition inside the first part of a concatenation. -/
theorem mem_der_cat_of_left (he : e ∈ r.der c) :
    { e with cont := e.cont.followedBy s } ∈ (Rx.cat r s).der c :=
  mem_der_cat.mpr (.inl ⟨e, he, rfl⟩)

/-- A transition past the first part of a concatenation. -/
theorem mem_der_cat_of_right {out : List A} (hout : r.null = some out) (he : e ∈ s.der c) :
    { e with acts := out ++ e.acts } ∈ (Rx.cat r s).der c :=
  mem_der_cat.mpr (.inr ⟨out, hout, e, he, rfl⟩)

/-- The transitions of a repetition. -/
theorem mem_der_star :
    e ∈ (Rx.star r).der c ↔ ∃ e' ∈ r.der c, { e' with cont := e'.cont.followedBy (.star r) } = e :=
  List.mem_map

end Rx

/-- Keeping first occurrences keeps the members. -/
@[simp] theorem mem_keepFirst [DecidableEq B] {b : B} {bs : List B} : b ∈ keepFirst bs ↔ b ∈ bs := by
  induction bs with
  | nil => rfl
  | cons b' bs ih =>
    by_cases hb : b = b' <;> simp [keepFirst, ih, hb]

/-- The live transitions are transitions of some thread. -/
theorem exists_thread_of_mem_liveEdges {ts : List (Thread A)} {c : UInt8} {e : Edge (ℕ × A)}
    (he : e ∈ liveEdges ts c) : ∃ t ∈ ts, e ∈ t.der c :=
  List.mem_flatMap.mp (List.mem_filter.mp he).1

/-- No transition of any thread beats a live one. -/
theorem not_beats_of_mem_liveEdges {ts : List (Thread A)} {c : UInt8} {e f : Edge (ℕ × A)} {t : Thread A}
    (he : e ∈ liveEdges ts c) (ht : t ∈ ts) (hf : f ∈ t.der c) : f.beats e = false := by
  have hlive := (List.mem_filter.mp he).2
  simp only [Bool.not_eq_true', List.any_eq_false] at hlive
  exact Bool.eq_false_iff.mpr (hlive f (List.mem_flatMap.mpr ⟨t, ht, hf⟩))

section Step

variable [DecidableEq A] {ts ts' : List (Thread A)} {c : UInt8} {acts : List A}

/-- Every action of a set of transitions is performed. -/
theorem mem_merged {es : List (Edge (ℕ × A))} {a : A} :
    a ∈ merged es ↔ ∃ e ∈ es, ∃ n, (n, a) ∈ e.acts := by
  simp only [merged, mem_keepFirst, List.mem_map, List.mem_insertionSort, List.mem_flatMap]
  constructor
  · rintro ⟨⟨n, b⟩, ⟨e, he, hmem⟩, rfl⟩
    exact ⟨e, he, n, hmem⟩
  · rintro ⟨e, he, n, hmem⟩
    exact ⟨(n, a), ⟨e, he, hmem⟩, rfl⟩

/-- The actions of a transition are the merged actions of the live transitions. -/
theorem step_acts (h : step ts c = some (ts', acts)) : acts = merged (liveEdges ts c) := by
  unfold step at h
  split at h
  · exact absurd h (by simp)
  · rename_i hlive
    rw [hlive]
    exact (Prod.mk.inj (Option.some.inj h)).2.symm

/-- A transition of the machine leads to the threads of the live transitions, and performs exactly
their actions. -/
theorem step_eq_some (h : step ts c = some (ts', acts)) :
    (∀ t, t ∈ ts' ↔ ∃ e ∈ liveEdges ts c, e.cont = t) ∧
      ∀ a, a ∈ acts ↔ ∃ e ∈ liveEdges ts c, ∃ n, (n, a) ∈ e.acts := by
  unfold step at h
  split at h
  · exact absurd h (by simp)
  · rename_i e es hlive
    obtain ⟨rfl, rfl⟩ := Prod.mk.inj (Option.some.inj h)
    rw [hlive]
    exact ⟨fun t => by simp only [mem_keepFirst, List.mem_map], fun a => mem_merged⟩

end Step

/-! ## Expressions restricted in their actions or bytes -/

namespace Rx

/-- Every embedded action is one of `p`. -/
def actsIn (p : A → Bool) : Rx A → Bool
  | .empty => true
  | .byte _ => true
  | .alt r s => r.actsIn p && s.actsIn p
  | .cat r s => r.actsIn p && s.actsIn p
  | .star r => r.actsIn p
  | .enter a r => p a && r.actsIn p
  | .leave a r => p a && r.actsIn p
  | .finish a r => p a && r.actsIn p
  | .prioAll _ _ r => r.actsIn p
  | .prioEnter _ _ r => r.actsIn p
  | .prioFinish _ _ r => r.actsIn p

/-- No byte set of the expression holds `b`. -/
def avoids (b : UInt8) : Rx A → Bool
  | .empty => true
  | .byte s => !s.has b
  | .alt r s => r.avoids b && s.avoids b
  | .cat r s => r.avoids b && s.avoids b
  | .star r => r.avoids b
  | .enter _ r => r.avoids b
  | .leave _ r => r.avoids b
  | .finish _ r => r.avoids b
  | .prioAll _ _ r => r.avoids b
  | .prioEnter _ _ r => r.avoids b
  | .prioFinish _ _ r => r.avoids b

/-- The expression ends at its first byte `b`, and only there. -/
def endsAt (b : UInt8) : Rx A → Bool
  | .byte s => decide (s = .range b.toNat b.toNat)
  | .alt r s => r.endsAt b && s.endsAt b
  | .cat r s => r.avoids b && s.endsAt b
  | _ => false

variable {r s : Rx A} {e : Edge A} {b c : UInt8} {p : A → Bool}

/-- Concatenation with a finished left operand dropped, or plain concatenation. -/
theorem followedBy_cases (r s : Rx A) : r = .empty ∧ r.followedBy s = s ∨ r.followedBy s = .cat r s := by
  cases r <;> simp [followedBy]

/-- The leaving actions are embedded actions. -/
theorem actsIn_null {out : List A} (hr : r.actsIn p) (hnull : r.null = some out) : ∀ a ∈ out, p a := by
  induction r generalizing out with
  | empty => simp_all [null]
  | byte s => simp [null] at hnull
  | alt r s ihr ihs =>
    simp only [actsIn, Bool.and_eq_true] at hr
    simp only [null] at hnull
    intro a ha
    split at hnull
    · exact ihs hr.2 hnull a ha
    · rename_i out' hout _
      exact ihr hr.1 (hout.trans hnull) a ha
    · rename_i outr outs houtr houts
      cases hnull
      rcases List.mem_append.mp ha with ha | ha
      · exact ihr hr.1 houtr a ha
      · exact ihs hr.2 houts a ha
  | cat r s ihr ihs =>
    simp only [actsIn, Bool.and_eq_true] at hr
    simp only [null] at hnull
    intro a ha
    split at hnull
    · rename_i outr outs houtr houts
      cases hnull
      rcases List.mem_append.mp ha with ha | ha
      · exact ihr hr.1 houtr a ha
      · exact ihs hr.2 houts a ha
    · simp at hnull
  | star r ih =>
    simp only [null, Option.some.injEq] at hnull
    subst hnull
    cases hout : r.null with
    | none => simp
    | some out => exact ih hr hout
  | enter a r ih =>
    simp only [actsIn, Bool.and_eq_true] at hr
    simp only [null, Option.map_eq_some_iff] at hnull
    obtain ⟨out', hout, rfl⟩ := hnull
    simpa [hr.1] using ih hr.2 hout
  | leave a r ih =>
    simp only [actsIn, Bool.and_eq_true] at hr
    simp only [null, Option.map_eq_some_iff] at hnull
    obtain ⟨out', hout, rfl⟩ := hnull
    simp only [List.mem_append, List.mem_singleton]
    rintro a' (ha | rfl)
    · exact ih hr.2 hout a' ha
    · exact hr.1
  | finish a r ih =>
    simp only [actsIn, Bool.and_eq_true] at hr
    exact ih hr.2 hnull
  | prioAll _ _ r ih => exact ih hr hnull
  | prioEnter _ _ r ih => exact ih hr hnull
  | prioFinish _ _ r ih => exact ih hr hnull

/-- Concatenating with a finished operand dropped embeds no further action. -/
theorem actsIn_followedBy (hr : r.actsIn p) (hs : s.actsIn p) : (r.followedBy s).actsIn p := by
  rcases followedBy_cases r s with ⟨_, h⟩ | h
  · rwa [h]
  · rw [h, actsIn, hr, hs]
    rfl

/-- A transition performs embedded actions only, and what follows it embeds no others. -/
theorem actsIn_der (hr : r.actsIn p) (he : e ∈ r.der c) : (∀ a ∈ e.acts, p a) ∧ e.cont.actsIn p := by
  induction r generalizing e with
  | empty => simp [der] at he
  | byte s =>
    obtain ⟨-, rfl⟩ := mem_der_byte.mp he
    simp [actsIn]
  | alt r s ihr ihs =>
    simp only [actsIn, Bool.and_eq_true] at hr
    rcases List.mem_append.mp he with he | he
    · exact ihr hr.1 he
    · exact ihs hr.2 he
  | cat r s ihr ihs =>
    simp only [actsIn, Bool.and_eq_true] at hr
    rcases mem_der_cat.mp he with ⟨e', he', rfl⟩ | ⟨out, hout, e', he', rfl⟩
    · obtain ⟨hacts, hcont⟩ := ihr hr.1 he'
      exact ⟨hacts, actsIn_followedBy hcont hr.2⟩
    · obtain ⟨hacts, hcont⟩ := ihs hr.2 he'
      refine ⟨fun a ha => ?_, hcont⟩
      rcases List.mem_append.mp ha with ha | ha
      · exact actsIn_null hr.1 hout a ha
      · exact hacts a ha
  | star r ih =>
    obtain ⟨e', he', rfl⟩ := List.mem_map.mp he
    obtain ⟨hacts, hcont⟩ := ih hr he'
    exact ⟨hacts, actsIn_followedBy hcont hr⟩
  | enter a r ih =>
    simp only [actsIn, Bool.and_eq_true] at hr
    obtain ⟨e', he', rfl⟩ := List.mem_map.mp he
    obtain ⟨hacts, hcont⟩ := ih hr.2 he'
    exact ⟨by simpa [hr.1] using hacts, hcont⟩
  | leave a r ih =>
    simp only [actsIn, Bool.and_eq_true] at hr
    obtain ⟨e', he', rfl⟩ := List.mem_map.mp he
    obtain ⟨hacts, hcont⟩ := ih hr.2 he'
    exact ⟨hacts, by simp [actsIn, hr.1, hcont]⟩
  | finish a r ih =>
    simp only [actsIn, Bool.and_eq_true] at hr
    obtain ⟨e', he', rfl⟩ := List.mem_map.mp he
    obtain ⟨hacts, hcont⟩ := ih hr.2 he'
    refine ⟨fun a' ha => ?_, by simp [actsIn, hr.1, hcont]⟩
    simp only at ha
    split at ha
    · rcases List.mem_append.mp ha with ha | ha
      · exact hacts a' ha
      · rw [List.mem_singleton.mp ha]
        exact hr.1
    · exact hacts a' ha
  | prioAll _ _ r ih =>
    obtain ⟨e', he', rfl⟩ := List.mem_map.mp he
    have hcont := ih hr he'
    exact hcont
  | prioEnter _ _ r ih =>
    obtain ⟨e', he', rfl⟩ := List.mem_map.mp he
    have hcont := ih hr he'
    exact hcont
  | prioFinish _ _ r ih =>
    obtain ⟨e', he', rfl⟩ := List.mem_map.mp he
    have hcont := ih hr he'
    exact hcont

/-- Concatenating with a finished operand dropped uses no further byte. -/
theorem avoids_followedBy (hr : r.avoids b) (hs : s.avoids b) : (r.followedBy s).avoids b := by
  rcases followedBy_cases r s with ⟨_, h⟩ | h
  · rwa [h]
  · rw [h, avoids, hr, hs]
    rfl

/-- An expression without a byte has no transition on it, and what follows is without it as well. -/
theorem avoids_der (hr : r.avoids b) (he : e ∈ r.der c) : c ≠ b ∧ e.cont.avoids b := by
  induction r generalizing e with
  | empty => simp [der] at he
  | byte s =>
    simp only [avoids, Bool.not_eq_true'] at hr
    obtain ⟨hc, rfl⟩ := mem_der_byte.mp he
    refine ⟨?_, rfl⟩
    rintro rfl
    rw [hr] at hc
    exact absurd hc (by decide)
  | alt r s ihr ihs =>
    simp only [avoids, Bool.and_eq_true] at hr
    rcases List.mem_append.mp he with he | he
    · exact ihr hr.1 he
    · exact ihs hr.2 he
  | cat r s ihr ihs =>
    simp only [avoids, Bool.and_eq_true] at hr
    rcases mem_der_cat.mp he with ⟨e', he', rfl⟩ | ⟨out, hout, e', he', rfl⟩
    · obtain ⟨hne, hcont⟩ := ihr hr.1 he'
      exact ⟨hne, avoids_followedBy hcont hr.2⟩
    · have hcont := ihs hr.2 he'
      exact hcont
  | star r ih =>
    obtain ⟨e', he', rfl⟩ := List.mem_map.mp he
    obtain ⟨hne, hcont⟩ := ih hr he'
    exact ⟨hne, avoids_followedBy hcont hr⟩
  | enter _ r ih =>
    obtain ⟨e', he', rfl⟩ := List.mem_map.mp he
    have hcont := ih hr he'
    exact hcont
  | leave _ r ih =>
    obtain ⟨e', he', rfl⟩ := List.mem_map.mp he
    have hcont := ih hr he'
    exact hcont
  | finish _ r ih =>
    obtain ⟨e', he', rfl⟩ := List.mem_map.mp he
    have hcont := ih hr he'
    exact hcont
  | prioAll _ _ r ih =>
    obtain ⟨e', he', rfl⟩ := List.mem_map.mp he
    have hcont := ih hr he'
    exact hcont
  | prioEnter _ _ r ih =>
    obtain ⟨e', he', rfl⟩ := List.mem_map.mp he
    have hcont := ih hr he'
    exact hcont
  | prioFinish _ _ r ih =>
    obtain ⟨e', he', rfl⟩ := List.mem_map.mp he
    have hcont := ih hr he'
    exact hcont

/-- An expression that ends at its first byte `b` does not accept the empty string. -/
theorem endsAt_null (hr : r.endsAt b) : r.null = none := by
  induction r with
  | byte s => rfl
  | alt r s ihr ihs =>
    simp only [endsAt, Bool.and_eq_true] at hr
    rw [null, ihr hr.1, ihs hr.2]
  | cat r s ihr ihs =>
    simp only [endsAt, Bool.and_eq_true] at hr
    rw [null, ihs hr.2]
    cases r.null <;> rfl
  | _ => simp [endsAt] at hr

/-- An expression that ends at its first byte `b` is finished by `b` and by no other byte. -/
theorem endsAt_der (hr : r.endsAt b) (he : e ∈ r.der c) :
    c = b ∧ e.cont = .empty ∨ c ≠ b ∧ e.cont.endsAt b := by
  induction r generalizing e with
  | byte s =>
    simp only [endsAt, decide_eq_true_eq] at hr
    subst hr
    obtain ⟨hc, rfl⟩ := mem_der_byte.mp he
    exact .inl ⟨UInt8.toNat_inj.mp (ByteSet.has_one.mp hc), rfl⟩
  | alt r s ihr ihs =>
    simp only [endsAt, Bool.and_eq_true] at hr
    rcases List.mem_append.mp he with he | he
    · exact ihr hr.1 he
    · exact ihs hr.2 he
  | cat r s ihr ihs =>
    simp only [endsAt, Bool.and_eq_true] at hr
    rcases mem_der_cat.mp he with ⟨e', he', rfl⟩ | ⟨out, hout, e', he', rfl⟩
    · obtain ⟨hne, hcont⟩ := avoids_der hr.1 he'
      refine .inr ⟨hne, ?_⟩
      rcases followedBy_cases e'.cont s with ⟨_, h⟩ | h
      · rw [h]
        exact hr.2
      · rw [h, endsAt, hcont, hr.2]
        rfl
    · have hcont := ihs hr.2 he'
      exact hcont
  | _ => simp [endsAt] at hr

end Rx

/-! ## Driving a machine over a buffer -/

/-- The state of the generated loop: the machine state (`none` is the error state), the position in the
buffer, the state the actions work on, and whether the loop has been left. -/
structure Exec (A σ : Type*) where
  cs : Option (List (Thread A))
  p : ℕ
  st : σ
  stopped : Bool

section Exec

variable {σ τ : Type*}

/-- Perform actions one after the other, up to one that breaks out of the loop. -/
def performAll (act : A → σ → σ) (breaks : A → Bool) : List A → σ → σ × Bool
  | [], s => (s, false)
  | a :: as, s => if breaks a then (act a s, true) else performAll act breaks as (act a s)

/-- Performing actions commutes with a map of the states that every action commutes with. -/
theorem performAll_map (act : A → σ → σ) (act' : A → τ → τ) (breaks : A → Bool) (f : σ → τ)
    (hact : ∀ a s, f (act a s) = act' a (f s)) (as : List A) (s : σ) :
    performAll act' breaks as (f s) =
      (f (performAll act breaks as s).1, (performAll act breaks as s).2) := by
  induction as generalizing s with
  | nil => rfl
  | cons a as ih =>
    simp only [performAll]
    split
    · rw [hact]
    · rw [← hact, ih]

/-- Recording actions appends those that are performed: all of them, unless one breaks. -/
theorem performAll_record (breaks : A → Bool) (p : ℕ) (as : List A) (l : List (ℕ × A)) :
    ∃ as', as' <+: as ∧
      (performAll (fun a l => l ++ [(p, a)]) breaks as l).1 = l ++ as'.map (fun a => (p, a)) ∧
        ((performAll (fun a l => l ++ [(p, a)]) breaks as l).2 = false →
          as' = as ∧ ∀ a ∈ as, breaks a = false) := by
  induction as generalizing l with
  | nil => exact ⟨[], List.nil_prefix, by simp [performAll]⟩
  | cons a as ih =>
    simp only [performAll]
    split
    · exact ⟨[a], by simp, by simp⟩
    · rename_i hbreaks
      obtain ⟨as', hpre, hperform, hall⟩ := ih (l ++ [(p, a)])
      refine ⟨a :: as', List.cons_prefix_cons.mpr ⟨rfl, hpre⟩, ?_, fun h => ⟨?_, ?_⟩⟩
      · rw [hperform]
        simp
      · rw [(hall h).1]
      · exact List.forall_mem_cons.mpr ⟨Bool.eq_false_iff.mpr hbreaks, (hall h).2⟩

/-- Actions of which one has broken out of the loop. -/
theorem exists_breaks_of_performAll {act : A → σ → σ} {breaks : A → Bool} {as : List A} {s : σ}
    (h : (performAll act breaks as s).2 = true) : ∃ a ∈ as, breaks a = true := by
  induction as generalizing s with
  | nil => cases h
  | cons a as ih =>
    rw [performAll] at h
    split at h
    · rename_i hbreaks
      exact ⟨a, List.mem_cons_self, hbreaks⟩
    · obtain ⟨b, hb, hbreaks⟩ := ih h
      exact ⟨b, List.mem_cons_of_mem a hb, hbreaks⟩

variable [DecidableEq A]

/-- One round of the generated loop. -/
def Exec.feed (act : ℕ → A → σ → σ) (breaks : A → Bool) (e : Exec A σ) (c : UInt8) : Exec A σ :=
  if e.stopped then e
  else
    match e.cs.bind (step · c) with
    | none => { e with cs := none, stopped := true }
    | some (ts, acts) =>
      let done := performAll (act e.p) breaks acts e.st
      { cs := some ts, p := e.p + 1, st := done.1, stopped := done.2 }

/-- The generated loop over a buffer. -/
def exec (act : ℕ → A → σ → σ) (breaks : A → Bool) (data : List UInt8) (e : Exec A σ) : Exec A σ :=
  data.foldl (Exec.feed act breaks) e

/-- The actions that the loop performs from a machine state on, each with its position. -/
def scan (breaks : A → Bool) (data : List UInt8) (cs : Option (List (Thread A))) :
    Exec A (List (ℕ × A)) :=
  exec (fun p a l => l ++ [(p, a)]) breaks data ⟨cs, 0, [], false⟩

variable {act : ℕ → A → σ → σ} {breaks : A → Bool} {e : Exec A σ}

/-- The loop over two parts of a buffer. -/
theorem exec_append (xs ys : List UInt8) :
    exec act breaks (xs ++ ys) e = exec act breaks ys (exec act breaks xs e) :=
  List.foldl_append

/-- A loop that has been left does nothing. -/
theorem exec_of_stopped (h : e.stopped = true) (data : List UInt8) : exec act breaks data e = e := by
  induction data with
  | nil => rfl
  | cons c data ih =>
    have hfeed : e.feed act breaks c = e := by simp [Exec.feed, h]
    rw [exec, List.foldl_cons, hfeed]
    exact ih

/-- A property of the loop state that every round keeps holds when the loop ends. -/
theorem exec_invariant (Inv : Exec A σ → Prop) (hfeed : ∀ e c, Inv e → Inv (e.feed act breaks c))
    (h : Inv e) (data : List UInt8) : Inv (exec act breaks data e) := by
  induction data generalizing e with
  | nil => exact h
  | cons c data ih => exact ih (hfeed e c h)

/-- One byte is consumed in every round of a loop that goes on. -/
theorem exec_p (data : List UInt8) (h : (exec act breaks data e).stopped = false) :
    (exec act breaks data e).p = e.p + data.length := by
  induction data generalizing e with
  | nil => rfl
  | cons c data ih =>
    have hp : (e.feed act breaks c).stopped = false → (e.feed act breaks c).p = e.p + 1 := by
      intro hgoes
      unfold Exec.feed at hgoes ⊢
      split at hgoes
      · rename_i hstopped
        rw [hstopped] at hgoes
        exact absurd hgoes (by decide)
      · split at hgoes
        · exact absurd hgoes (by simp)
        · rename_i hstopped _ _ _ hstep
          simp [hstopped]
    have hfeed : (e.feed act breaks c).stopped = false := by
      by_contra hstopped
      rw [Bool.not_eq_false] at hstopped
      have : exec act breaks (c :: data) e = e.feed act breaks c := exec_of_stopped hstopped data
      rw [this, hstopped] at h
      exact absurd h (by decide)
    rw [show exec act breaks (c :: data) e = exec act breaks data (e.feed act breaks c) from rfl, ih h,
      hp hfeed, List.length_cons]
    omega

/-- The loop commutes with a map of the states and a shift of the positions that every action commutes
with. -/
theorem exec_map (act : ℕ → A → σ → σ) (act' : ℕ → A → τ → τ) (breaks : A → Bool) (f : σ → τ) (k : ℕ)
    (hact : ∀ p a s, f (act p a s) = act' (p + k) a (f s)) (data : List UInt8) (e : Exec A σ) :
    exec act' breaks data ⟨e.cs, e.p + k, f e.st, e.stopped⟩ =
      ⟨(exec act breaks data e).cs, (exec act breaks data e).p + k, f (exec act breaks data e).st,
        (exec act breaks data e).stopped⟩ := by
  induction data generalizing e with
  | nil => rfl
  | cons c data ih =>
    have hfeed : Exec.feed act' breaks ⟨e.cs, e.p + k, f e.st, e.stopped⟩ c =
        ⟨(e.feed act breaks c).cs, (e.feed act breaks c).p + k, f (e.feed act breaks c).st,
          (e.feed act breaks c).stopped⟩ := by
      simp only [Exec.feed]
      split
      · rfl
      · split
        · rfl
        · simp only [performAll_map (act e.p) (act' (e.p + k)) breaks f (hact e.p), Nat.add_right_comm]
    change exec act' breaks data (Exec.feed act' breaks _ c) = _
    rw [hfeed, ih]
    rfl

/-- The loop performs the scanned actions one after the other, from any position on. -/
theorem exec_eq_scan (act : ℕ → A → σ → σ) (breaks : A → Bool) (data : List UInt8)
    (cs : Option (List (Thread A))) (k : ℕ) (s : σ) :
    exec act breaks data ⟨cs, k, s, false⟩ =
      ⟨(scan breaks data cs).cs, (scan breaks data cs).p + k,
        (scan breaks data cs).st.foldl (fun s x => act (x.1 + k) x.2 s) s, (scan breaks data cs).stopped⟩ := by
  have h := exec_map (fun p a (l : List (ℕ × A)) => l ++ [(p, a)]) act breaks
    (fun l => l.foldl (fun s x => act (x.1 + k) x.2 s) s) k
    (fun p a l => by rw [List.foldl_append]; rfl) data ⟨cs, 0, [], false⟩
  simpa [scan] using h

/-- A scan that goes on has consumed its buffer. -/
theorem scan_p {xs : List UInt8} {cs : Option (List (Thread A))} (h : (scan breaks xs cs).stopped = false) :
    (scan breaks xs cs).p = xs.length := by
  rw [scan, exec_p xs h, Nat.zero_add]

/-- The scan of two parts of a buffer. -/
theorem scan_append {xs : List UInt8} {cs : Option (List (Thread A))}
    (h : (scan breaks xs cs).stopped = false) (ys : List UInt8) :
    scan breaks (xs ++ ys) cs =
      ⟨(scan breaks ys (scan breaks xs cs).cs).cs, (scan breaks ys (scan breaks xs cs).cs).p + xs.length,
        (scan breaks xs cs).st ++
          (scan breaks ys (scan breaks xs cs).cs).st.map (fun x => (x.1 + xs.length, x.2)),
        (scan breaks ys (scan breaks xs cs).cs).stopped⟩ := by
  have hfold : ∀ (l acc : List (ℕ × A)), l.foldl (fun acc x => acc ++ [(x.1 + xs.length, x.2)]) acc =
      acc ++ l.map (fun x => (x.1 + xs.length, x.2)) := by
    intro l
    induction l with
    | nil => simp
    | cons x l ih => simp [ih]
  have hmiddle : scan breaks (xs ++ ys) cs =
      exec (fun p a l => l ++ [(p, a)]) breaks ys
        ⟨(scan breaks xs cs).cs, xs.length, (scan breaks xs cs).st, false⟩ := by
    have hend : (⟨(scan breaks xs cs).cs, xs.length, (scan breaks xs cs).st, false⟩ : Exec A _) =
        scan breaks xs cs := by
      rw [← scan_p h, ← h]
    rw [hend]
    exact exec_append xs ys
  rw [hmiddle, exec_eq_scan, hfold]

/-- A property of the machine states, of the actions scanned so far and of whether the loop has been
left holds of the whole scan when every transition keeps it. -/
theorem scan_invariant (Inv : Option (List (Thread A)) → ℕ → List (ℕ × A) → Bool → Prop)
    (hstep : ∀ ts p l c ts' acts, Inv (some ts) p l false → step ts c = some (ts', acts) →
      (∀ a ∈ acts, breaks a = false) → Inv (some ts') (p + 1) (l ++ acts.map fun a => (p, a)) false)
    (hbreak : ∀ ts p l c ts' acts as', Inv (some ts) p l false → step ts c = some (ts', acts) →
      as' <+: acts → Inv (some ts') (p + 1) (l ++ as'.map fun a => (p, a)) true)
    (herror : ∀ cs p l, Inv cs p l false → Inv none p l true) {cs : Option (List (Thread A))}
    (h : Inv cs 0 [] false) (data : List UInt8) :
    Inv (scan breaks data cs).cs (scan breaks data cs).p (scan breaks data cs).st
      (scan breaks data cs).stopped := by
  refine exec_invariant (fun e => Inv e.cs e.p e.st e.stopped) (fun e c he => ?_) h data
  unfold Exec.feed
  split
  · exact he
  · rename_i hgoes
    rw [Bool.not_eq_true] at hgoes
    rw [hgoes] at he
    split
    · exact herror _ _ _ he
    · rename_i ts' acts hbind
      obtain ⟨ts, hcs, hstep'⟩ := Option.bind_eq_some_iff.mp hbind
      rw [hcs] at he
      obtain ⟨as', hpre, has', hall⟩ := performAll_record breaks e.p acts e.st
      simp only [has']
      cases hbroke : (performAll (fun a l => l ++ [(e.p, a)]) breaks acts e.st).2 with
      | false =>
        rw [(hall hbroke).1]
        exact hstep ts e.p e.st c ts' acts he hstep' (hall hbroke).2
      | true => exact hbreak ts e.p e.st c ts' acts as' he hstep' hpre

/-- Nothing is performed in the error state. -/
theorem scan_none (breaks : A → Bool) (data : List UInt8) :
    (scan breaks data none).cs = none ∧ (scan breaks data none).st = [] :=
  scan_invariant (fun cs _ l _ => cs = none ∧ l = []) (fun _ _ _ _ _ _ h _ => absurd h.1 nofun)
    (fun _ _ _ _ _ _ _ h => absurd h.1 nofun) (fun _ _ _ h => ⟨rfl, h.2⟩) ⟨rfl, rfl⟩ data

/-- The positions of a scan do not decrease. -/
theorem scan_sorted (breaks : A → Bool) (data : List UInt8) (cs : Option (List (Thread A))) :
    (scan breaks data cs).st.Pairwise (fun x y => x.1 ≤ y.1) ∧
      ∀ x ∈ (scan breaks data cs).st, x.1 < (scan breaks data cs).p := by
  have happend : ∀ (p : ℕ) (l : List (ℕ × A)) (as : List A),
      l.Pairwise (fun x y => x.1 ≤ y.1) ∧ (∀ x ∈ l, x.1 < p) →
        (l ++ as.map fun a => (p, a)).Pairwise (fun x y => x.1 ≤ y.1) ∧
          ∀ x ∈ l ++ as.map fun a => (p, a), x.1 < p + 1 := by
    rintro p l as ⟨hsorted, hlt⟩
    refine ⟨List.pairwise_append.mpr ⟨hsorted, ?_, ?_⟩, ?_⟩
    · rw [List.pairwise_map]
      exact List.pairwise_of_forall fun _ _ => Nat.le_refl _
    · rintro x hx y hy
      obtain ⟨a, -, rfl⟩ := List.mem_map.mp hy
      exact Nat.le_of_lt (hlt x hx)
    · intro x hx
      rcases List.mem_append.mp hx with hx | hx
      · exact Nat.lt_succ_of_lt (hlt x hx)
      · obtain ⟨a, -, rfl⟩ := List.mem_map.mp hx
        exact Nat.lt_succ_self p
  exact scan_invariant (fun _ p l _ => l.Pairwise (fun x y => x.1 ≤ y.1) ∧ ∀ x ∈ l, x.1 < p)
    (fun _ p l _ _ acts h _ _ => happend p l acts h) (fun _ p l _ _ _ as' h _ _ => happend p l as' h)
    (fun _ _ _ h => h) ⟨List.Pairwise.nil, by simp⟩ data

/-- A scan ends inside its buffer. -/
theorem scan_p_le (breaks : A → Bool) (data : List UInt8) (cs : Option (List (Thread A))) :
    (scan breaks data cs).p ≤ data.length := by
  have hfeed : ∀ (e : Exec A (List (ℕ × A))) (c : UInt8),
      (e.feed (fun p a l => l ++ [(p, a)]) breaks c).p ≤ e.p + 1 := by
    intro e c
    unfold Exec.feed
    split
    · exact Nat.le_succ _
    · split
      · exact Nat.le_succ _
      · exact Nat.le_refl _
  have hexec : ∀ (data : List UInt8) (e : Exec A (List (ℕ × A))),
      (exec (fun p a l => l ++ [(p, a)]) breaks data e).p ≤ e.p + data.length := by
    intro data
    induction data with
    | nil => exact fun e => Nat.le_refl _
    | cons c data ih =>
      intro e
      have hrest := ih (e.feed (fun p a l => l ++ [(p, a)]) breaks c)
      have hfirst := hfeed e c
      rw [List.length_cons]
      exact hrest.trans (by omega)
  simpa [scan] using hexec data ⟨cs, 0, [], false⟩

/-- A scan that has been left does not look at what follows. -/
theorem scan_append_of_stopped {xs : List UInt8} {cs : Option (List (Thread A))}
    (h : (scan breaks xs cs).stopped = true) (ys : List UInt8) :
    scan breaks (xs ++ ys) cs = scan breaks xs cs :=
  (exec_append xs ys).trans (exec_of_stopped h ys)

/-- A scan that goes beyond the first part of its buffer has not been left there. -/
theorem goes_of_append {xs : List UInt8} (ys : List UInt8) {cs : Option (List (Thread A))}
    (h : xs.length < (scan breaks (xs ++ ys) cs).p) : (scan breaks xs cs).stopped = false := by
  by_contra hstopped
  rw [Bool.not_eq_false] at hstopped
  rw [scan_append_of_stopped hstopped] at h
  exact absurd (scan_p_le breaks xs cs) (Nat.not_le.mpr h)

/-- A scan that ends in the error state has been left. -/
theorem scan_stopped_of_none {data : List UInt8} {cs : Option (List (Thread A))} (hcs : cs ≠ none)
    (h : (scan breaks data cs).cs = none) : (scan breaks data cs).stopped = true := by
  refine scan_invariant (fun cs _ _ stopped => cs = none → stopped = true)
    (fun _ _ _ _ _ _ _ _ _ hnone => by cases hnone) (fun _ _ _ _ _ _ _ _ _ _ _ => rfl) (fun _ _ _ _ _ => rfl)
    (fun hnone => absurd hnone hcs) data h

/-- The byte at which the error state is entered is in the buffer. -/
theorem scan_p_lt_of_none {data : List UInt8} {cs : Option (List (Thread A))} (hcs : cs ≠ none)
    (h : (scan breaks data cs).cs = none) : (scan breaks data cs).p < data.length := by
  induction data using List.reverseRecOn with
  | nil => exact absurd h hcs
  | append_singleton xs c ih =>
    rw [List.length_append, List.length_singleton]
    cases hstopped : (scan breaks xs cs).stopped with
    | true =>
      rw [scan_append_of_stopped hstopped]
      exact Nat.lt_succ_of_le (scan_p_le breaks xs cs)
    | false =>
      rw [scan_append hstopped] at h ⊢
      generalize (scan breaks xs cs).cs = ts at h ⊢
      change (scan breaks [c] ts).cs = none at h
      have hfeed : (scan breaks [c] ts).p = 0 := by
        cases hnext : ts.bind (step · c) with
        | none => simp [scan, exec, Exec.feed, hnext]
        | some next => simp [scan, exec, Exec.feed, hnext] at h
      simp only [hfeed]
      omega

/-- A scan that has been left without an error has consumed some bytes. -/
theorem scan_p_pos {data : List UInt8} {cs : Option (List (Thread A))}
    (hstopped : (scan breaks data cs).stopped = true) (hcs : (scan breaks data cs).cs ≠ none) :
    0 < (scan breaks data cs).p := by
  refine scan_invariant (fun cs p _ stopped => stopped = true → cs ≠ none → 0 < p) ?_
    (fun _ p _ _ _ _ _ _ _ _ _ _ => Nat.succ_pos p) (fun _ _ _ _ _ hnone => absurd rfl hnone) ?_ data hstopped hcs
  · exact fun _ _ _ _ _ _ _ _ _ hfalse => by cases hfalse
  · exact fun hfalse => by cases hfalse

/-! ## Finishing -/

/-- A thread with the finishing action of the machine around it. -/
def Finishing (d : A) (t : Thread A) : Prop :=
  ∃ n r, t = .finish (n, d) r

/-- The finishing action stays around the threads, and is performed when the machine gets into a final
state. -/
theorem step_finishing {d : A} {ts ts' : List (Thread A)} {c : UInt8} {acts : List A}
    (hts : ∀ t ∈ ts, Finishing d t) (hstep : step ts c = some (ts', acts)) :
    (∀ t ∈ ts', Finishing d t) ∧ (isFinal ts' = true → d ∈ acts) := by
  obtain ⟨hts', hacts⟩ := step_eq_some hstep
  have hedges : ∀ e ∈ liveEdges ts c,
      Finishing d e.cont ∧ (e.cont.null.isSome → ∃ n, (n, d) ∈ e.acts) := by
    intro e he
    obtain ⟨t, ht, het⟩ := exists_thread_of_mem_liveEdges he
    obtain ⟨n, r, rfl⟩ := hts t ht
    obtain ⟨e', he', rfl⟩ := List.mem_map.mp het
    refine ⟨⟨n, e'.cont, rfl⟩, fun hnull => ⟨n, ?_⟩⟩
    simp only
    rw [if_pos (show e'.cont.null.isSome = true from hnull)]
    exact List.mem_append_right _ List.mem_cons_self
  refine ⟨fun t ht => ?_, fun hfinal => ?_⟩
  · obtain ⟨e, he, rfl⟩ := (hts' t).mp ht
    exact (hedges e he).1
  · obtain ⟨t, ht, hnull⟩ := List.any_eq_true.mp hfinal
    obtain ⟨e, he, rfl⟩ := (hts' t).mp ht
    obtain ⟨n, hn⟩ := (hedges e he).2 hnull
    exact (hacts d).mpr ⟨e, he, n, hn⟩

/-- The machine is an error or has not finished. -/
def Unfinished (d : A) (cs : Option (List (Thread A))) : Prop :=
  ∀ ts, cs = some ts → (∀ t ∈ ts, Finishing d t) ∧ isFinal ts = false

/-- A machine that has not performed its finishing action has not finished. -/
theorem unfinished_scan {d : A} {cs : Option (List (Thread A))} (hcs : Unfinished d cs)
    (hbreaks : breaks d = true) {data : List UInt8} (hgoes : (scan breaks data cs).stopped = false) :
    Unfinished d (scan breaks data cs).cs := by
  refine scan_invariant (fun cs _ _ stopped => stopped = false → Unfinished d cs) ?_
    (fun _ _ _ _ _ _ _ _ _ _ => nofun) (fun _ _ _ _ => nofun) (fun _ => hcs) data hgoes
  rintro ts _ _ c ts' acts hts hstep hacts - _ ⟨⟩
  obtain ⟨hfinishing, hdone⟩ := step_finishing (hts rfl ts rfl).1 hstep
  refine ⟨hfinishing, Bool.eq_false_iff.mpr fun hfinal => ?_⟩
  rw [hacts d (hdone hfinal)] at hbreaks
  exact absurd hbreaks (by decide)

/-- A thread with the finishing action of the machine around it and nowhere inside. -/
def FinishingOnly (d : A) (t : Thread A) : Prop :=
  ∃ n r, t = .finish (n, d) r ∧ r.actsIn (fun a => !decide (a.2 = d)) = true

/-- The finishing action stays outside, and where it is performed the machine gets into a final state. -/
theorem step_finishingOnly {d : A} {ts ts' : List (Thread A)} {c : UInt8} {acts : List A}
    (hts : ∀ t ∈ ts, FinishingOnly d t) (hstep : step ts c = some (ts', acts)) :
    (∀ t ∈ ts', FinishingOnly d t) ∧ (d ∈ acts → isFinal ts' = true) := by
  obtain ⟨hts', hacts⟩ := step_eq_some hstep
  have hedges : ∀ e ∈ liveEdges ts c,
      FinishingOnly d e.cont ∧ ((∃ n, (n, d) ∈ e.acts) → e.cont.null.isSome) := by
    intro e he
    obtain ⟨t, ht, het⟩ := exists_thread_of_mem_liveEdges he
    obtain ⟨n, r, rfl, hr⟩ := hts t ht
    obtain ⟨e', he', rfl⟩ := List.mem_map.mp het
    obtain ⟨hinside, hcont⟩ := Rx.actsIn_der hr he'
    refine ⟨⟨n, e'.cont, rfl, hcont⟩, ?_⟩
    rintro ⟨k, hk⟩
    by_contra hnull
    dsimp only at hk
    rw [if_neg (show ¬e'.cont.null.isSome = true from hnull)] at hk
    exact absurd (hinside _ hk) (by simp)
  refine ⟨fun t ht => ?_, fun hd => ?_⟩
  · obtain ⟨e, he, rfl⟩ := (hts' t).mp ht
    exact (hedges e he).1
  · obtain ⟨e, he, hn⟩ := (hacts d).mp hd
    exact List.any_eq_true.mpr ⟨e.cont, (hts' _).mpr ⟨e, he, rfl⟩, (hedges e he).2 hn⟩

/-- Where only the finishing action leaves the loop, a machine that has been left without an error has finished. -/
theorem scan_finishingOnly {d : A} {ts : List (Thread A)} (hts : ∀ t ∈ ts, FinishingOnly d t)
    (hbreaks : ∀ a, breaks a = true → a = d) {data : List UInt8} {ts' : List (Thread A)}
    (hcs : (scan breaks data (some ts)).cs = some ts') :
    (∀ t ∈ ts', FinishingOnly d t) ∧ ((scan breaks data (some ts)).stopped = true → isFinal ts' = true) := by
  suffices hscan : ∀ ts', (scan breaks data (some ts)).cs = some ts' → (∀ t ∈ ts', FinishingOnly d t) ∧
      ((scan breaks data (some ts)).stopped = true → isFinal ts' = true) from hscan ts' hcs
  refine exec_invariant (fun e => ∀ ts', e.cs = some ts' → (∀ t ∈ ts', FinishingOnly d t) ∧
    (e.stopped = true → isFinal ts' = true)) (fun e c he => ?_) ?_ data
  · unfold Exec.feed
    split
    · exact he
    · split
      · exact fun _ hnone => by cases hnone
      · rename_i ts₂ acts hbind
        obtain ⟨ts₁, hts₁, hstep⟩ := Option.bind_eq_some_iff.mp hbind
        obtain ⟨hfinishing, hfinal⟩ := step_finishingOnly (he ts₁ hts₁).1 hstep
        rintro ts₃ ⟨⟩
        refine ⟨hfinishing, fun hbroke => ?_⟩
        obtain ⟨a, ha, hbreak⟩ := exists_breaks_of_performAll hbroke
        exact hfinal (hbreaks a hbreak ▸ ha)
  · rintro _ ⟨⟩
    exact ⟨hts, fun h => by cases h⟩

end Exec

end Ragel
