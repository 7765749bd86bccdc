import Bobliew.Lib.Ragel

/-!
# Languages and runs of a machine

The language of an expression, with its actions and priorities left out, and runs that consume a text from
one state to another. Runs compose, and a run that returns to its state on every word of an expression
returns to it on every word of its repetition.

What a machine does on a byte is decided by the byte sets its threads begin with. A class of bytes is
therefore settled by a few representatives, if every byte of the class is in the same of these sets as one
of them.
-/

namespace Ragel

variable {A : Type*}

/-! ## Languages -/

namespace Rx

/-- The language of an expression. -/
def lang : Rx A → Language UInt8
  | .empty => 1
  | .byte s => {w | ∃ c, s.has c = true ∧ w = [c]}
  | .alt r s => r.lang + s.lang
  | .cat r s => r.lang * s.lang
  | .star r => KStar.kstar r.lang
  | .enter _ r => r.lang
  | .leave _ r => r.lang
  | .finish _ r => r.lang
  | .prioAll _ _ r => r.lang
  | .prioEnter _ _ r => r.lang
  | .prioFinish _ _ r => r.lang

variable {r s : Rx A} {w : List UInt8}

@[simp] theorem mem_lang_empty : w ∈ (Rx.empty : Rx A).lang ↔ w = [] :=
  Language.mem_one w

@[simp] theorem mem_lang_byte {s : ByteSet} : w ∈ (Rx.byte s : Rx A).lang ↔ ∃ c, s.has c = true ∧ w = [c] :=
  Iff.rfl

@[simp] theorem mem_lang_alt : w ∈ (Rx.alt r s).lang ↔ w ∈ r.lang ∨ w ∈ s.lang :=
  Language.mem_add _ _ _

@[simp] theorem mem_lang_cat : w ∈ (Rx.cat r s).lang ↔ ∃ a ∈ r.lang, ∃ b ∈ s.lang, a ++ b = w :=
  Language.mem_mul

@[simp] theorem mem_lang_star :
    w ∈ (Rx.star r).lang ↔ ∃ ws : List (List UInt8), w = ws.flatten ∧ ∀ x ∈ ws, x ∈ r.lang :=
  Language.mem_kstar

/-- The language of a character. -/
@[simp] theorem mem_lang_chr {ch : Char} (hch : ch.toNat < 256) :
    w ∈ (Rx.chr ch : Rx A).lang ↔ w = [UInt8.ofNat ch.toNat] := by
  rw [chr, mem_lang_byte]
  constructor
  · rintro ⟨c, hc, rfl⟩
    rw [ByteSet.has_one] at hc
    rw [← hc, UInt8.ofNat_toNat]
  · rintro rfl
    refine ⟨_, ByteSet.has_one.mpr ?_, rfl⟩
    rw [UInt8.toNat_ofNat']
    omega

/-- The language of a repeated byte set. -/
theorem mem_lang_plus_byte {set : ByteSet} (h : w ∈ (Rx.plus (.byte set) : Rx A).lang) :
    w ≠ [] ∧ ∀ c ∈ w, set.has c = true := by
  obtain ⟨a, ⟨c, hc, rfl⟩, b, hb, rfl⟩ := mem_lang_cat.mp h
  obtain ⟨ws, rfl, hws⟩ := mem_lang_star.mp hb
  refine ⟨List.cons_ne_nil _ _, List.forall_mem_cons.mpr ⟨hc, fun d hd => ?_⟩⟩
  obtain ⟨x, hx, hdx⟩ := List.mem_flatten.mp hd
  obtain ⟨e, he, rfl⟩ := hws x hx
  rwa [List.mem_singleton.mp hdx]

/-! ## Classes of bytes -/

/-- The byte sets an expression can begin with. -/
def firsts : Rx A → List ByteSet
  | .empty => []
  | .byte s => [s]
  | .alt r s => r.firsts ++ s.firsts
  | .cat r s => r.firsts ++ if r.null.isSome then s.firsts else []
  | .star r => r.firsts
  | .enter _ r => r.firsts
  | .leave _ r => r.firsts
  | .finish _ r => r.firsts
  | .prioAll _ _ r => r.firsts
  | .prioEnter _ _ r => r.firsts
  | .prioFinish _ _ r => r.firsts

/-- Two bytes that are in the same sets have the same transitions. -/
theorem der_congr {c d : UInt8} (h : ∀ s ∈ r.firsts, s.has c = s.has d) : r.der c = r.der d := by
  induction r with
  | empty => rfl
  | byte s => simp only [der, h s List.mem_cons_self]
  | alt r s ihr ihs =>
    rw [der, der, ihr fun x hx => h x (List.mem_append_left _ hx), ihs fun x hx => h x (List.mem_append_right _ hx)]
  | cat r s ihr ihs =>
    rw [der, der, ihr fun x hx => h x (List.mem_append_left _ hx)]
    cases hnull : r.null with
    | none => rfl
    | some out =>
      rw [ihs fun x hx => h x (List.mem_append_right _ (by rw [hnull]; exact hx))]
  | star r ih => rw [der, der, ih h]
  | enter a r ih => rw [der, der, ih h]
  | leave a r ih => rw [der, der, ih h]
  | finish a r ih => rw [der, der, ih h]
  | prioAll _ _ r ih => rw [der, der, ih h]
  | prioEnter _ _ r ih => rw [der, der, ih h]
  | prioFinish _ _ r ih => rw [der, der, ih h]

/-- A byte that no expression can begin with has no transitions. -/
theorem der_nil {c : UInt8} (h : ∀ s ∈ r.firsts, s.has c = false) : r.der c = [] := by
  induction r with
  | empty => rfl
  | byte s =>
    rw [der, h s List.mem_cons_self]
    rfl
  | alt r s ihr ihs =>
    rw [der, ihr fun x hx => h x (List.mem_append_left _ hx), ihs fun x hx => h x (List.mem_append_right _ hx)]
    rfl
  | cat r s ihr ihs =>
    rw [der, ihr fun x hx => h x (List.mem_append_left _ hx)]
    cases hnull : r.null with
    | none => rfl
    | some out =>
      rw [ihs fun x hx => h x (List.mem_append_right _ (by rw [hnull]; exact hx))]
      rfl
  | star r ih => rw [der, ih h, List.map_nil]
  | enter a r ih => rw [der, ih h, List.map_nil]
  | leave a r ih => rw [der, ih h, List.map_nil]
  | finish a r ih => rw [der, ih h, List.map_nil]
  | prioAll _ _ r ih => rw [der, ih h, List.map_nil]
  | prioEnter _ _ r ih => rw [der, ih h, List.map_nil]
  | prioFinish _ _ r ih => rw [der, ih h, List.map_nil]

end Rx

/-- Two bytes that are in the same of some sets. -/
def alike (sets : List ByteSet) (c d : UInt8) : Bool :=
  sets.all fun s => s.has c == s.has d

/-- The threads begin with no other than some sets. -/
def beginsIn (ts : List (Thread A)) (sets : List ByteSet) : Bool :=
  ts.all fun t => t.firsts.all fun s => decide (s ∈ sets)

/-- A property of all bytes, as a computation. -/
def allBytes (p : UInt8 → Bool) : Bool :=
  (List.range 256).all fun n => p (UInt8.ofNat n)

/-- A property that was computed for all bytes holds of every byte. -/
theorem of_allBytes {p : UInt8 → Bool} (h : allBytes p = true) (c : UInt8) : p c = true := by
  have hc := List.all_eq_true.mp h c.toNat (List.mem_range.mpr c.toNat_lt)
  rwa [UInt8.ofNat_toNat] at hc

section Machine

variable [DecidableEq A] {ts ts' ts'' : List (Thread A)} {c d : UInt8}

/-- The machine does the same on bytes that its threads cannot tell apart. -/
theorem step_congr {sets : List ByteSet} (hts : beginsIn ts sets = true) (h : alike sets c d = true) :
    step ts c = step ts d := by
  have hder : ts.flatMap (·.der c) = ts.flatMap (·.der d) := by
    refine List.flatMap_congr fun t ht => Rx.der_congr fun s hs => ?_
    have hmem := of_decide_eq_true (List.all_eq_true.mp (List.all_eq_true.mp hts t ht) s hs)
    exact beq_iff_eq.mp (List.all_eq_true.mp h s hmem)
  unfold step liveEdges
  rw [hder]

/-- The machine with one thread that has one transition. -/
theorem step_single {t : Thread A} {e : Edge (ℕ × A)} (h : t.der c = [e]) (hprios : e.prios = []) :
    step [t] c = some ([e.cont], merged [e]) := by
  have hbeats : e.beats e = false := by
    rw [Edge.beats, hprios]
    rfl
  have hlive : liveEdges [t] c = [e] := by
    simp [liveEdges, h, hbeats]
  unfold step
  rw [hlive]
  rfl

/-- Every byte of a set is like one of some representatives. -/
def represented (sets : List ByteSet) (set : ByteSet) (reps : List UInt8) : Bool :=
  allBytes fun c => !set.has c || reps.any (alike sets c)

/-- The machine does the same on all representatives, and cannot tell them from bytes that are like them. -/
def settled (sets : List ByteSet) (reps : List UInt8) (ts ts' : List (Thread A)) (acts : List A) : Bool :=
  beginsIn ts sets && reps.all fun d => decide (step ts d = some (ts', acts))

/-- The machine on a byte of a set, settled by representatives. -/
theorem step_of_settled {sets : List ByteSet} {set : ByteSet} {reps : List UInt8} {acts : List A}
    (hreps : represented sets set reps = true) (h : settled sets reps ts ts' acts = true) (hc : set.has c = true) :
    step ts c = some (ts', acts) := by
  obtain ⟨hts, hstep⟩ := Bool.and_eq_true_iff.mp h
  have hlike := of_allBytes hreps c
  rw [hc, Bool.not_true, Bool.false_or] at hlike
  obtain ⟨d, hd, hlike⟩ := List.any_eq_true.mp hlike
  rw [step_congr hts hlike]
  exact of_decide_eq_true (List.all_eq_true.mp hstep d hd)

/-! ## Runs -/

variable {breaks : A → Bool} {w w' : List UInt8} {evs evs' : List (ℕ × A)}

/-- The machine consumes a text and goes on in another state, and these are the actions performed. -/
def Consumes (breaks : A → Bool) (ts : List (Thread A)) (w : List UInt8) (ts' : List (Thread A))
    (evs : List (ℕ × A)) : Prop :=
  scan breaks w (some ts) = ⟨some ts', w.length, evs, false⟩

instance (ts : List (Thread A)) (w : List UInt8) : Decidable (Consumes breaks ts w ts' evs) :=
  decidable_of_iff ((scan breaks w (some ts)).cs = some ts' ∧ (scan breaks w (some ts)).p = w.length ∧
    (scan breaks w (some ts)).st = evs ∧ (scan breaks w (some ts)).stopped = false) (by
      unfold Consumes
      generalize scan breaks w (some ts) = e
      cases e
      simp)

/-- Nothing is consumed without a byte. -/
theorem Consumes.nil (ts : List (Thread A)) : Consumes breaks ts [] ts [] := rfl

/-- Moving the actions of a run to a later position. -/
def shifted (k : ℕ) (evs : List (ℕ × A)) : List (ℕ × A) := evs.map fun x => (x.1 + k, x.2)

/-- Two runs one after the other. -/
theorem Consumes.append (h : Consumes breaks ts w ts' evs) (h' : Consumes breaks ts' w' ts'' evs') :
    Consumes breaks ts (w ++ w') ts'' (evs ++ shifted w.length evs') := by
  unfold Consumes at h h' ⊢
  rw [scan_append (by rw [h]) w', h]
  simp only [h', List.length_append, Nat.add_comm w.length, shifted]

/-- A run from a state that a text leads to. -/
theorem Consumes.behind {cs : Option (List (Thread A))} (hgoes : (scan breaks w cs).stopped = false)
    (hts : (scan breaks w cs).cs = some ts) (hsome : (scan breaks w' (some ts)).cs.isSome)
    (hgoes' : (scan breaks w' (some ts)).stopped = false) :
    Consumes breaks ts w' ((scan breaks (w ++ w') cs).cs.getD []) (scan breaks w' (some ts)).st := by
  obtain ⟨ts', hts'⟩ := Option.isSome_iff_exists.mp hsome
  rw [scan_append hgoes, hts]
  unfold Consumes
  rw [← scan_p hgoes', hts', Option.getD_some, ← hgoes', ← hts']

/-- A run on one byte. -/
theorem Consumes.byte {acts : List A} (hstep : step ts c = some (ts', acts))
    (hacts : acts.all (fun a => !breaks a) = true) :
    Consumes breaks ts [c] ts' (acts.map fun a => (0, a)) := by
  have hperform : ∀ (as : List A) (l : List (ℕ × A)), as.all (fun a => !breaks a) = true →
      performAll (fun a l => l ++ [(0, a)]) breaks as l = (l ++ as.map fun a => (0, a), false) := by
    intro as
    induction as with
    | nil => simp [performAll]
    | cons a as ih =>
      intro l has
      rw [List.all_cons, Bool.and_eq_true, Bool.not_eq_true'] at has
      rw [performAll, has.1, if_neg Bool.false_ne_true, ih _ has.2]
      simp
  unfold Consumes scan exec
  rw [List.foldl_cons, List.foldl_nil, Exec.feed]
  simp only [Bool.false_eq_true, if_false, Option.bind_some, hstep, hperform acts [] hacts]
  rfl

/-- The machine gets from one state to another over every word of an expression, with the same actions. -/
def Moves {B : Type*} (breaks : A → Bool) (ts : List (Thread A)) (r : Rx B) (ts' : List (Thread A))
    (evs : List (ℕ × A)) : Prop :=
  ∀ w ∈ r.lang, Consumes breaks ts w ts' evs

section Moves

variable {B : Type*} {r s : Rx B}

/-- Over one byte of a set. -/
theorem Moves.byte {sets : List ByteSet} {set : ByteSet} {reps : List UInt8} {acts : List A}
    (hreps : represented sets set reps = true) (h : settled sets reps ts ts' acts = true)
    (hacts : acts.all (fun a => !breaks a) = true) :
    Moves breaks ts (.byte set : Rx B) ts' (acts.map fun a => (0, a)) := by
  rintro w ⟨c, hc, rfl⟩
  exact .byte (step_of_settled hreps h hc) hacts

/-- Over an alternation. -/
theorem Moves.alt (h : Moves breaks ts r ts' evs) (h' : Moves breaks ts s ts' evs) :
    Moves breaks ts (.alt r s) ts' evs :=
  fun w hw => (Rx.mem_lang_alt.mp hw).elim (h w) (h' w)

/-- Over a concatenation whose second part performs nothing. -/
theorem Moves.cat (h : Moves breaks ts r ts' evs) (h' : Moves breaks ts' s ts'' []) :
    Moves breaks ts (.cat r s) ts'' evs := by
  intro w hw
  obtain ⟨x, hx, y, hy, rfl⟩ := Rx.mem_lang_cat.mp hw
  have hboth := (h x hx).append (h' y hy)
  rwa [shifted, List.map_nil, List.append_nil] at hboth

/-- Over a repetition, if nothing is performed and every round comes back. -/
theorem Moves.star (h : Moves breaks ts r ts []) : Moves breaks ts (.star r) ts [] := by
  intro w hw
  obtain ⟨ws, rfl, hws⟩ := Rx.mem_lang_star.mp hw
  clear hw
  induction ws with
  | nil => exact .nil ts
  | cons x ws ih =>
    have hrest : ∀ y ∈ ws, y ∈ r.lang := fun y hy => hws y (List.mem_cons_of_mem x hy)
    exact (h x (hws x List.mem_cons_self)).append (ih hrest)

end Moves

end Machine

end Ragel
