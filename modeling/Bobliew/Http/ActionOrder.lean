import Bobliew.Http.RequestGrammar
import Bobliew.Lib.RagelOrder

/-!
# The order of the request actions

Which header actions the request machine can perform next is decided by where it stands in the
grammar: in the request line, at the start of a header, in a field name, in a field value, or behind
the carriage return that ends a value. The machine is a list of threads, and each stage says what the
threads may be; threads without header actions of their own, such as those of the socket formats, may
be present in any stage.

The stages separate because a line feed ends every alternative of the request line at once, a field
name ends at its colon, and the guarded end of a header overrules the value before it. It follows that
a value is written only after a name has been written for the field it belongs to. A query string, by
contrast, follows the start of the query in every alternative of the grammar.
-/

namespace Bobliew.Http

open Ragel RequestGrammar

namespace RequestMachine

/-- An action that is none of `start_field`, `write_field` and `write_value`. -/
def quietAction : ℕ × RequestAction → Bool
  | (_, .startField) => false
  | (_, .writeField) => false
  | (_, .writeValue) => false
  | _ => true

/-- A thread without header actions. -/
def Quiet (t : Thread RequestAction) : Prop := t.actsIn quietAction = true

/-- The stamps of the header actions and of `done`. -/
structure Stamps where
  startField : ℕ
  writeField : ℕ
  startValue : ℕ
  writeValue : ℕ
  done : ℕ

namespace Stamps

variable (n : Stamps)

/-- A stamped `message_header`. -/
def header : Thread RequestAction :=
  messageHeader (n.startField, .startField) (n.writeField, .writeField) (n.startValue, .startValue)
    (n.writeValue, .writeValue)

/-- A thread of the whole machine, with the finishing action around it. -/
def within (r : Thread RequestAction) : Thread RequestAction :=
  .finish (n.done, .done) r

/-- The thread at the start of a header or of the empty line. -/
def atHeaders : Thread RequestAction :=
  n.within (.cat (.star n.header) crlf)

/-- The thread inside a header, with `r` left in front of its line end. -/
def inHeader (r : Thread RequestAction) : Thread RequestAction :=
  n.within (.cat (.cat (.cat (.prioAll 0 0 r) (.prioEnter 0 1 crlf)) (.star n.header)) crlf)

/-- The thread behind the carriage return of a header. -/
def afterReturn : Thread RequestAction :=
  n.within (.cat (.cat (.chr '\n') (.star n.header)) crlf)

/-- A stamped `field_value`. -/
def value : Thread RequestAction :=
  fieldValue (n.startValue, .startValue) (n.writeValue, .writeValue)

/-- What is left of a header inside its name. -/
def nameRest : Thread RequestAction :=
  .cat (.leave (n.writeField, .writeField) (.star (.byte token)))
    (.cat (.chr ':') (.cat (.star lws) n.value))

/-- What may be left of a header behind its colon. -/
inductive ValueRest : Thread RequestAction → Prop
  | blanks : ValueRest (.cat (.star lws) n.value)
  | inBlanks : ValueRest (.cat (.cat (.star (.byte blank)) (.star lws)) n.value)
  | content : ValueRest (.leave (n.writeValue, .writeValue) (.star content))
  | inContentBlanks :
      ValueRest (.leave (n.writeValue, .writeValue) (.cat (.star (.byte blank)) (.star content)))

end Stamps

/-! ## The transitions of the threads -/

section Transitions

variable {n : Stamps} {r : Thread RequestAction} {e : Edge (ℕ × RequestAction)} {c : UInt8}

/-- The two ways to take a line end. -/
theorem mem_der_crlf {A : Type} {e : Edge A} (he : e ∈ (crlf : Rx A).der c) :
    c = 13 ∧ e = ⟨[], [], .chr '\n'⟩ ∨ c = 10 ∧ e = ⟨[], [], .empty⟩ := by
  rcases Rx.mem_der_alt.mp he with he | he
  · rcases Rx.mem_der_cat.mp he with ⟨e', he', rfl⟩ | ⟨out, hout, _⟩
    · obtain ⟨hc, rfl⟩ := Rx.mem_der_chr.mp he'
      exact .inl ⟨UInt8.toNat_inj.mp hc, rfl⟩
    · exact absurd hout (by simp [Rx.chr, Rx.null])
  · obtain ⟨hc, rfl⟩ := Rx.mem_der_chr.mp he
    exact .inr ⟨UInt8.toNat_inj.mp hc, rfl⟩

/-- A line end can be taken on a carriage return and on a line feed. -/
theorem exists_mem_der_crlf {A : Type} (hc : c = 10 ∨ c = 13) : ∃ e, e ∈ (crlf : Rx A).der c := by
  rcases hc with rfl | rfl
  · exact ⟨_, List.mem_singleton.mpr rfl⟩
  · exact ⟨_, List.mem_singleton.mpr rfl⟩

/-- A header starts with a byte of its name. -/
theorem mem_der_header (he : e ∈ n.header.der c) :
    e.acts = [(n.startField, .startField)] ∧
      e.cont = .cat (.prioAll 0 0 n.nameRest) (.prioEnter 0 1 crlf) := by
  rcases Rx.mem_der_cat.mp he with ⟨e₁, he₁, rfl⟩ | ⟨out, hout, _⟩
  · obtain ⟨e₂, he₂, rfl⟩ := List.mem_map.mp he₁
    rcases Rx.mem_der_cat.mp he₂ with ⟨e₃, he₃, rfl⟩ | ⟨out, hout, _⟩
    · obtain ⟨e₄, he₄, rfl⟩ := List.mem_map.mp he₃
      obtain ⟨e₅, he₅, rfl⟩ := List.mem_map.mp he₄
      rcases Rx.mem_der_cat.mp he₅ with ⟨e₆, he₆, rfl⟩ | ⟨out, hout, _⟩
      · obtain ⟨_, rfl⟩ := Rx.mem_der_byte.mp he₆
        exact ⟨rfl, rfl⟩
      · exact absurd hout (by simp [Rx.null])
    · exact absurd hout (by simp [fieldName, Rx.plus, Rx.null])
  · exact absurd hout (by simp [fieldName, Rx.plus, Rx.seq, Rx.null])

/-- A thread of the whole machine performs what its expression performs, and `done` where it ends. -/
theorem mem_der_within (he : e ∈ (n.within r).der c) :
    ∃ e' ∈ r.der c, e.prios = e'.prios ∧ e.cont = n.within e'.cont ∧ e'.acts ⊆ e.acts ∧
      ∀ a ∈ e.acts, a ∈ e'.acts ∨ a = (n.done, .done) := by
  obtain ⟨e', he', rfl⟩ := List.mem_map.mp he
  refine ⟨e', he', rfl, rfl, ?_⟩
  simp only
  split
  · exact ⟨List.subset_append_left _ _, fun a ha => by simpa using ha⟩
  · exact ⟨List.Subset.refl _, fun a ha => .inl ha⟩

/-- The start of a header performs `start_field`, the start of the empty line no header action. -/
theorem mem_der_atHeaders (he : e ∈ n.atHeaders.der c) :
    (∀ a ∈ e.acts, a.2 = .startField ∨ quietAction a) ∧ (Quiet e.cont ∨ e.cont = n.inHeader n.nameRest) := by
  obtain ⟨e', he', -, hcont, -, hacts⟩ := mem_der_within he
  rw [hcont]
  rcases Rx.mem_der_cat.mp he' with ⟨e₁, he₁, rfl⟩ | ⟨out, hout, e₁, he₁, rfl⟩
  · obtain ⟨e₂, he₂, rfl⟩ := Rx.mem_der_star.mp he₁
    obtain ⟨hacts₂, hcont₂⟩ := mem_der_header he₂
    refine ⟨fun a ha => ?_, .inr ?_⟩
    · rcases hacts a ha with ha | rfl
      · rw [hacts₂, List.mem_singleton] at ha
        exact .inl (by rw [ha])
      · exact .inr rfl
    · rw [hcont₂]
      rfl
  · obtain rfl : out = [] := by simpa [Stamps.header, messageHeader, Rx.entryGuarded, fieldName, Rx.seq,
      Rx.plus, Rx.null] using hout.symm
    refine ⟨fun a ha => ?_, .inl ?_⟩
    · rcases hacts a ha with ha | rfl
      · rcases mem_der_crlf he₁ with ⟨-, rfl⟩ | ⟨-, rfl⟩ <;> exact absurd ha (by simp)
      · exact .inr rfl
    · rcases mem_der_crlf he₁ with ⟨-, rfl⟩ | ⟨-, rfl⟩ <;> rfl

/-- Inside a header a byte goes on with it at low priority, or ends it. -/
theorem mem_der_inHeader (he : e ∈ (n.inHeader r).der c) :
    (∃ e' ∈ r.der c, (0, 0) ∈ e.prios ∧ e.cont = n.inHeader e'.cont ∧ e'.acts ⊆ e.acts ∧
        ∀ a ∈ e.acts, a ∈ e'.acts ∨ a = (n.done, .done)) ∨
      ∃ out, r.null = some out ∧ (c = 13 ∧ e.cont = n.afterReturn ∨ c = 10 ∧ e.cont = n.atHeaders) ∧
        ∀ a ∈ e.acts, a ∈ out ∨ a = (n.done, .done) := by
  obtain ⟨e', he', hprios, hcont, hsub, hacts⟩ := mem_der_within he
  rw [hprios, hcont]
  rcases Rx.mem_der_cat.mp he' with ⟨e₁, he₁, rfl⟩ | ⟨out, hout, -⟩
  · rcases Rx.mem_der_cat.mp he₁ with ⟨e₂, he₂, rfl⟩ | ⟨out, hout, -⟩
    · rcases Rx.mem_der_cat.mp he₂ with ⟨e₃, he₃, rfl⟩ | ⟨out, hout, e₃, he₃, rfl⟩
      · obtain ⟨e₄, he₄, rfl⟩ := List.mem_map.mp he₃
        exact .inl ⟨e₄, he₄, List.mem_cons_self, rfl, hsub, hacts⟩
      · obtain ⟨e₄, he₄, rfl⟩ := List.mem_map.mp he₃
        refine .inr ⟨out, hout, ?_, fun a ha => ?_⟩
        · rcases mem_der_crlf he₄ with ⟨hc, rfl⟩ | ⟨hc, rfl⟩
          · exact .inl ⟨hc, rfl⟩
          · exact .inr ⟨hc, rfl⟩
        · rcases mem_der_crlf he₄ with ⟨-, rfl⟩ | ⟨-, rfl⟩ <;> simpa using hacts a ha
    · exact absurd hout (by cases hr : r.null <;> simp [Rx.null, crlf, Rx.chr, hr])
  · exact absurd hout (by cases hr : r.null <;> simp [Rx.null, crlf, Rx.chr, hr])

/-- Where a header may end, its end has the greater priority. -/
theorem exists_mem_der_inHeader {out : List (ℕ × RequestAction)} (hnull : r.null = some out)
    (hc : c = 10 ∨ c = 13) : ∃ f ∈ (n.inHeader r).der c, (0, 1) ∈ f.prios := by
  obtain ⟨e₀, he₀⟩ := exists_mem_der_crlf (A := ℕ × RequestAction) hc
  have hpast := Rx.mem_der_cat_of_right (r := .prioAll 0 0 r) (s := .prioEnter 0 1 crlf) hnull
    (List.mem_map.mpr ⟨e₀, he₀, rfl⟩)
  exact ⟨_, List.mem_map.mpr ⟨_, Rx.mem_der_cat_of_left (Rx.mem_der_cat_of_left hpast), rfl⟩,
    List.mem_cons_self⟩

/-- Behind the carriage return of a header only the line feed follows. -/
theorem mem_der_afterReturn (he : e ∈ n.afterReturn.der c) :
    (∀ a ∈ e.acts, quietAction a) ∧ e.cont = n.atHeaders := by
  obtain ⟨e', he', -, hcont, -, hacts⟩ := mem_der_within he
  rw [hcont]
  rcases Rx.mem_der_cat.mp he' with ⟨e₁, he₁, rfl⟩ | ⟨out, hout, -⟩
  · rcases Rx.mem_der_cat.mp he₁ with ⟨e₂, he₂, rfl⟩ | ⟨out, hout, -⟩
    · obtain ⟨-, rfl⟩ := Rx.mem_der_chr.mp he₂
      refine ⟨fun a ha => ?_, rfl⟩
      rcases hacts a ha with ha | rfl
      · exact absurd ha (by simp)
      · rfl
    · exact absurd hout (by simp [Rx.null, Rx.chr])
  · exact absurd hout (by simp [Rx.null, Rx.chr])

/-- A name goes on with its bytes and ends at its colon, where it is written. -/
theorem mem_der_nameRest (he : e ∈ n.nameRest.der c) :
    c.toNat ≠ 58 ∧ e.acts = [] ∧ e.cont = n.nameRest ∨
      c.toNat = 58 ∧ e.acts = [(n.writeField, .writeField)] ∧ e.cont = .cat (.star lws) n.value := by
  rcases Rx.mem_der_cat.mp he with ⟨e₁, he₁, rfl⟩ | ⟨out, hout, e₁, he₁, rfl⟩
  · obtain ⟨e₂, he₂, rfl⟩ := List.mem_map.mp he₁
    obtain ⟨e₃, he₃, rfl⟩ := Rx.mem_der_star.mp he₂
    obtain ⟨hc, rfl⟩ := Rx.mem_der_byte.mp he₃
    refine .inl ⟨fun h58 => ?_, rfl, rfl⟩
    rw [show c = 58 from UInt8.toNat_inj.mp h58] at hc
    exact absurd hc (by decide)
  · obtain rfl : out = [(n.writeField, .writeField)] := by simpa [Rx.null] using hout.symm
    rcases Rx.mem_der_cat.mp he₁ with ⟨e₂, he₂, rfl⟩ | ⟨out, hout, -⟩
    · obtain ⟨hc, rfl⟩ := Rx.mem_der_chr.mp he₂
      exact .inr ⟨hc, rfl, rfl⟩
    · exact absurd hout (by simp [Rx.null, Rx.chr])

/-- A name cannot end a header. -/
theorem null_nameRest : n.nameRest.null = none := by
  simp [Stamps.nameRest, Rx.null, Rx.chr]

/-- An action of a field value. -/
def valueAction : ℕ × RequestAction → Bool
  | (_, .startValue) => true
  | (_, .writeValue) => true
  | _ => false

/-- What is left behind the colon has the actions of a field value only. -/
theorem actsIn_valueRest (hr : n.ValueRest r) : r.actsIn valueAction := by
  cases hr <;> rfl

/-- What is left behind the colon can be nothing. -/
theorem exists_null_valueRest (hr : n.ValueRest r) : ∃ out, r.null = some out := by
  cases hr <;> exact ⟨_, rfl⟩

/-- Blanks go on with blanks. -/
theorem mem_der_blanks {A : Type} {e : Edge A} (he : e ∈ (Rx.star (.byte blank) : Rx A).der c) :
    e.cont = .star (.byte blank) := by
  obtain ⟨e', he', rfl⟩ := Rx.mem_der_star.mp he
  obtain ⟨-, rfl⟩ := Rx.mem_der_byte.mp he'
  rfl

/-- White space that is not a line end goes on with blanks. -/
theorem mem_der_lws {A : Type} {e : Edge A} (hc : ¬(c = 10 ∨ c = 13)) (he : e ∈ (lws : Rx A).der c) :
    e.cont = .star (.byte blank) := by
  rcases Rx.mem_der_cat.mp he with ⟨e₁, he₁, rfl⟩ | ⟨out, -, e₁, he₁, rfl⟩
  · rcases Rx.mem_der_alt.mp he₁ with he₁ | he₁
    · rcases mem_der_crlf he₁ with ⟨h13, -⟩ | ⟨h10, -⟩
      · exact absurd (.inr h13) hc
      · exact absurd (.inl h10) hc
    · simp [Rx.der] at he₁
  · rcases Rx.mem_der_cat.mp he₁ with ⟨e₂, he₂, rfl⟩ | ⟨out, hout, -⟩
    · obtain ⟨-, rfl⟩ := Rx.mem_der_byte.mp he₂
      rfl
    · exact absurd hout (by simp [Rx.null])

/-- Repeated content that is not a line end goes on with content, perhaps after more blanks. -/
theorem mem_der_contents {A : Type} {e : Edge A} (hc : ¬(c = 10 ∨ c = 13))
    (he : e ∈ (Rx.star content : Rx A).der c) :
    e.cont = .star content ∨ e.cont = .cat (.star (.byte blank)) (.star content) := by
  obtain ⟨e', he', rfl⟩ := Rx.mem_der_star.mp he
  rcases Rx.mem_der_alt.mp he' with he' | he'
  · obtain ⟨-, rfl⟩ := Rx.mem_der_byte.mp he'
    exact .inl rfl
  · refine .inr ?_
    rw [mem_der_lws hc he']
    rfl

/-- A value that is not ended by the byte stays a value. -/
theorem valueRest_der (hr : n.ValueRest r) (hc : ¬(c = 10 ∨ c = 13)) (he : e ∈ r.der c) :
    n.ValueRest e.cont := by
  have hvalue : ∀ e ∈ n.value.der c, n.ValueRest e.cont := by
    intro e he
    obtain ⟨e₁, he₁, rfl⟩ := List.mem_map.mp he
    obtain ⟨e₂, he₂, rfl⟩ := List.mem_map.mp he₁
    rcases mem_der_contents hc he₂ with hcont | hcont <;> simp only [hcont]
    · exact .content
    · exact .inContentBlanks
  have hlws : ∀ e ∈ (Rx.star lws : Thread RequestAction).der c,
      e.cont = .cat (.star (.byte blank)) (.star lws) := by
    intro e he
    obtain ⟨e₁, he₁, rfl⟩ := Rx.mem_der_star.mp he
    rw [mem_der_lws hc he₁]
    rfl
  cases hr with
  | blanks =>
    rcases Rx.mem_der_cat.mp he with ⟨e₁, he₁, rfl⟩ | ⟨out, -, e₁, he₁, rfl⟩
    · rw [hlws e₁ he₁]
      exact .inBlanks
    · exact hvalue e₁ he₁
  | inBlanks =>
    rcases Rx.mem_der_cat.mp he with ⟨e₁, he₁, rfl⟩ | ⟨out, -, e₁, he₁, rfl⟩
    · rcases Rx.mem_der_cat.mp he₁ with ⟨e₂, he₂, rfl⟩ | ⟨out, -, e₂, he₂, rfl⟩
      · rw [mem_der_blanks he₂]
        exact .inBlanks
      · rw [hlws e₂ he₂]
        exact .inBlanks
    · exact hvalue e₁ he₁
  | content =>
    obtain ⟨e₁, he₁, rfl⟩ := List.mem_map.mp he
    rcases mem_der_contents hc he₁ with hcont | hcont <;> simp only [hcont]
    · exact .content
    · exact .inContentBlanks
  | inContentBlanks =>
    obtain ⟨e₁, he₁, rfl⟩ := List.mem_map.mp he
    rcases Rx.mem_der_cat.mp he₁ with ⟨e₂, he₂, rfl⟩ | ⟨out, -, e₂, he₂, rfl⟩
    · simp only [mem_der_blanks he₂]
      exact .inContentBlanks
    · rcases mem_der_contents hc he₂ with hcont | hcont <;> simp only [hcont]
      · exact .content
      · exact .inContentBlanks

/-- A request line performs no header action, and is finished by a line feed only. -/
theorem mem_der_line {rl : Thread RequestAction} (hends : rl.endsAt 10) (hquiet : rl.actsIn quietAction)
    (he : e ∈ (Rx.cat rl (.cat (.star n.header) crlf)).der c) :
    (∀ a ∈ e.acts, quietAction a) ∧
      (c = 10 ∧ e.cont = .cat (.star n.header) crlf ∨
        c ≠ 10 ∧ ∃ rl' : Thread RequestAction, rl'.endsAt 10 ∧ rl'.actsIn quietAction ∧
          e.cont = .cat rl' (.cat (.star n.header) crlf)) := by
  rcases Rx.mem_der_cat.mp he with ⟨e', he', rfl⟩ | ⟨out, hout, -⟩
  · obtain ⟨hacts, hcont⟩ := Rx.actsIn_der hquiet he'
    refine ⟨hacts, ?_⟩
    rcases Rx.endsAt_der hends he' with ⟨hc, hempty⟩ | ⟨hc, hends'⟩
    · refine .inl ⟨hc, ?_⟩
      rw [hempty]
      rfl
    · refine .inr ⟨hc, e'.cont, hends', hcont, ?_⟩
      rcases Rx.followedBy_cases e'.cont (.cat (.star n.header) crlf) with ⟨hempty, -⟩ | h
      · exact absurd hends' (by simp [hempty, Rx.endsAt])
      · exact h
  · exact absurd hout (by simp [Rx.endsAt_null hends])

end Transitions

/-! ## The stages of a head -/

/-- Where the request machine stands in a head. -/
inductive Stage where
  | line
  | headers
  | name
  | value
  | afterReturn

/-- What a thread with header actions may be in a stage. -/
inductive Stage.Allows (n : Stamps) : Stage → Thread RequestAction → Prop
  | start (rl sock : Thread RequestAction) (hends : rl.endsAt 10) (hquiet : rl.actsIn quietAction)
      (hsock : sock.actsIn quietAction) :
      Allows n .line (n.within (.alt (.cat rl (.cat (.star n.header) crlf)) sock))
  | line {rl : Thread RequestAction} (hends : rl.endsAt 10) (hquiet : rl.actsIn quietAction) :
      Allows n .line (n.within (.cat rl (.cat (.star n.header) crlf)))
  | headers : Allows n .headers n.atHeaders
  | name : Allows n .name (n.inHeader n.nameRest)
  | value {r : Thread RequestAction} (hr : n.ValueRest r) : Allows n .value (n.inHeader r)
  | afterReturn : Allows n .afterReturn n.afterReturn

/-- The threads are in a stage. -/
def Stage.Holds (n : Stamps) (st : Stage) (ts : List (Thread RequestAction)) : Prop :=
  ∀ t ∈ ts, Quiet t ∨ st.Allows n t

/-- The stage after a byte. -/
def Stage.next (c : UInt8) : Stage → Stage
  | .line => if c = 10 then .headers else .line
  | .headers => .name
  | .name => if c.toNat = 58 then .value else .name
  | .value => if c = 10 then .headers else if c = 13 then .afterReturn else .value
  | .afterReturn => .headers

/-- The header action that may be performed in a stage. -/
def Stage.action : Stage → Option RequestAction
  | .headers => some .startField
  | .name => some .writeField
  | .value => some .writeValue
  | _ => none

section Stages

variable {n : Stamps} {st : Stage} {t : Thread RequestAction} {e : Edge (ℕ × RequestAction)} {c : UInt8}
  {ts ts' : List (Thread RequestAction)} {acts : List RequestAction}

/-- What one transition of one thread does in a stage: it performs at most the header action of the
stage, leads on to the next stage, and writes the name when it leaves it. -/
structure Stage.Moves (n : Stamps) (st : Stage) (c : UInt8) (e : Edge (ℕ × RequestAction)) : Prop where
  acts : ∀ a ∈ e.acts, st.action = some a.2 ∨ quietAction a
  cont : Quiet e.cont ∨ (st.next c).Allows n e.cont
  written : st = .name → st.next c = .value → Quiet e.cont ∨ (n.writeField, .writeField) ∈ e.acts

/-- `done` is not a header action. -/
theorem quietAction_of_mem {as : List (ℕ × RequestAction)} (has : ∀ a ∈ as, quietAction a) {k : ℕ}
    {a : ℕ × RequestAction} (ha : a ∈ as ∨ a = (k, .done)) : quietAction a := by
  rcases ha with ha | rfl
  · exact has a ha
  · rfl

/-- A thread without header actions moves on without them. -/
theorem Stage.moves_of_quiet (ht : Quiet t) (he : e ∈ t.der c) : st.Moves n c e := by
  obtain ⟨hacts, hcont⟩ := Rx.actsIn_der ht he
  exact ⟨fun a ha => .inr (hacts a ha), .inl hcont, fun _ _ => .inl hcont⟩

/-- A request line moves on. -/
theorem Stage.moves_line {rl : Thread RequestAction} (hends : rl.endsAt 10) (hquiet : rl.actsIn quietAction)
    {e' : Edge (ℕ × RequestAction)} (he' : e' ∈ (Rx.cat rl (.cat (.star n.header) crlf)).der c)
    (hcont : e.cont = n.within e'.cont) (hacts : ∀ a ∈ e.acts, a ∈ e'.acts ∨ a = (n.done, .done)) :
    Stage.line.Moves n c e := by
  obtain ⟨hacts', hcont'⟩ := mem_der_line hends hquiet he'
  refine ⟨fun a ha => .inr (quietAction_of_mem hacts' (hacts a ha)), .inr ?_, nofun⟩
  rw [hcont]
  rcases hcont' with ⟨hc, h⟩ | ⟨hc, rl', hends', hquiet', h⟩
  · rw [h, Stage.next, if_pos hc]
    exact .headers
  · rw [h, Stage.next, if_neg hc]
    exact .line hends' hquiet'

/-- A value moves on: the line end overrules the bytes that it could also be. -/
theorem Stage.moves_value {r : Thread RequestAction} (hr : n.ValueRest r)
    (he : e ∈ (n.inHeader r).der c) (hlive : ∀ f ∈ (n.inHeader r).der c, f.beats e = false) :
    Stage.value.Moves n c e := by
  have hquiet : ∀ a : ℕ × RequestAction, valueAction a → Stage.value.action = some a.2 ∨ quietAction a := by
    rintro ⟨k, a⟩ ha
    cases a <;> first | exact .inl rfl | exact .inr rfl | exact absurd ha Bool.false_ne_true
  rcases mem_der_inHeader he with ⟨e', he', hprio, hcont, -, hacts⟩ | ⟨out, hout, hcont, hacts⟩
  · have hc : ¬(c = 10 ∨ c = 13) := by
      intro hc
      obtain ⟨out, hout⟩ := exists_null_valueRest hr
      obtain ⟨f, hf, hprio'⟩ := exists_mem_der_inHeader hout hc
      refine Bool.eq_false_iff.mp (hlive f hf) ?_
      exact List.any_eq_true.mpr ⟨_, hprio', List.any_eq_true.mpr ⟨_, hprio, rfl⟩⟩
    refine ⟨fun a ha => ?_, .inr ?_, nofun⟩
    · rcases hacts a ha with ha | rfl
      · exact hquiet a ((Rx.actsIn_der (actsIn_valueRest hr) he').1 a ha)
      · exact .inr rfl
    · rw [hcont, Stage.next, if_neg (fun h => hc (.inl h)), if_neg (fun h => hc (.inr h))]
      exact .value (valueRest_der hr hc he')
  · refine ⟨fun a ha => ?_, .inr ?_, nofun⟩
    · rcases hacts a ha with ha | rfl
      · exact hquiet a (Rx.actsIn_null (actsIn_valueRest hr) hout a ha)
      · exact .inr rfl
    · rcases hcont with ⟨rfl, hcont⟩ | ⟨rfl, hcont⟩ <;> rw [hcont]
      · exact .afterReturn
      · exact .headers

/-- Every live transition of a thread of a stage moves on from it. -/
theorem Stage.moves (hst : st.Allows n t) (he : e ∈ t.der c) (hlive : ∀ f ∈ t.der c, f.beats e = false) :
    st.Moves n c e := by
  cases hst with
  | start rl sock hends hquiet hsock =>
    obtain ⟨e', he', -, hcont, -, hacts⟩ := mem_der_within he
    rcases Rx.mem_der_alt.mp he' with he' | he'
    · exact moves_line hends hquiet he' hcont hacts
    · obtain ⟨hacts', hcont'⟩ := Rx.actsIn_der hsock he'
      refine ⟨fun a ha => .inr (quietAction_of_mem hacts' (hacts a ha)), .inl ?_, nofun⟩
      rw [hcont]
      exact hcont'
  | line hends hquiet =>
    obtain ⟨e', he', -, hcont, -, hacts⟩ := mem_der_within he
    exact moves_line hends hquiet he' hcont hacts
  | headers =>
    obtain ⟨hacts, hcont⟩ := mem_der_atHeaders he
    refine ⟨fun a ha => ?_, ?_, nofun⟩
    · rcases hacts a ha with h | h
      · exact .inl (by rw [h]; rfl)
      · exact .inr h
    · rcases hcont with hcont | hcont
      · exact .inl hcont
      · rw [hcont]
        exact .inr .name
  | name =>
    rcases mem_der_inHeader he with ⟨e', he', -, hcont, hsub, hacts⟩ | ⟨out, hout, -⟩
    · rcases mem_der_nameRest he' with ⟨hc, hacts', hcont'⟩ | ⟨hc, hacts', hcont'⟩
      · refine ⟨fun a ha => ?_, .inr ?_, fun _ hnext => ?_⟩
        · exact .inr (quietAction_of_mem (by simp [hacts']) (hacts a ha))
        · rw [hcont, hcont', Stage.next, if_neg hc]
          exact .name
        · rw [Stage.next, if_neg hc] at hnext
          exact absurd hnext nofun
      · rw [hacts'] at hsub
        refine ⟨fun a ha => ?_, .inr ?_, fun _ _ => .inr (hsub List.mem_cons_self)⟩
        · rcases hacts a ha with ha | rfl
          · rw [hacts', List.mem_singleton] at ha
            exact .inl (by rw [ha]; rfl)
          · exact .inr rfl
        · rw [hcont, hcont', Stage.next, if_pos hc]
          exact .value .blanks
    · exact absurd hout (by simp [null_nameRest])
  | value hr => exact moves_value hr he hlive
  | afterReturn =>
    obtain ⟨hacts, hcont⟩ := mem_der_afterReturn he
    refine ⟨fun a ha => .inr (hacts a ha), .inr ?_, nofun⟩
    rw [hcont]
    exact .headers

/-- The header actions of a step are those of the stage; the threads behind it are in some stage, and
if that is inside a value then the machine was there before or has just written the name. -/
theorem Stage.Holds.step (hst : st.Holds n ts) (hstep : step ts c = some (ts', acts)) :
    (∀ a ∈ acts, st.action = some a ∨ a ≠ .startField ∧ a ≠ .writeField ∧ a ≠ .writeValue) ∧
      ∃ st' : Stage, st'.Holds n ts' ∧ (st' = .value → st = .value ∨ .writeField ∈ acts) := by
  obtain ⟨hts, hacts⟩ := step_eq_some hstep
  have hmoves : ∀ e ∈ liveEdges ts c, st.Moves n c e := by
    intro e he
    obtain ⟨t, ht, het⟩ := exists_thread_of_mem_liveEdges he
    rcases hst t ht with hquiet | hallows
    · exact moves_of_quiet hquiet het
    · exact moves hallows het fun f hf => not_beats_of_mem_liveEdges he ht hf
  refine ⟨fun a ha => ?_, ?_⟩
  · obtain ⟨e, he, k, hmem⟩ := (hacts a).mp ha
    rcases (hmoves e he).acts _ hmem with h | h
    · exact .inl h
    · refine .inr ⟨?_, ?_, ?_⟩ <;> rintro rfl <;> exact absurd h Bool.false_ne_true
  · have hnext : (st.next c).Holds n ts' := by
      intro t ht
      obtain ⟨e, he, rfl⟩ := (hts t).mp ht
      exact (hmoves e he).cont
    by_cases hentered : st = .name ∧ st.next c = .value ∧ RequestAction.writeField ∉ acts
    · obtain ⟨hname, hvalue, hnot⟩ := hentered
      refine ⟨.name, fun t ht => ?_, nofun⟩
      obtain ⟨e, he, rfl⟩ := (hts t).mp ht
      rcases (hmoves e he).written hname hvalue with hquiet | hwritten
      · exact .inl hquiet
      · exact absurd ((hacts _).mpr ⟨e, he, _, hwritten⟩) hnot
    · refine ⟨st.next c, hnext, fun hvalue => ?_⟩
      by_cases hmem : RequestAction.writeField ∈ acts
      · exact .inr hmem
      · refine .inl ?_
        cases st with
        | value => rfl
        | name => exact absurd ⟨rfl, hvalue, hmem⟩ hentered
        | line =>
          rw [Stage.next] at hvalue
          split at hvalue <;> exact absurd hvalue nofun
        | headers => exact absurd hvalue nofun
        | afterReturn => exact absurd hvalue nofun

end Stages


/-- The stamps of the headers of a request. -/
theorem stamp_headers (k done : ℕ) :
    (headers RequestAction.startField .writeField .startValue .writeValue).stamp k =
      (.cat (.star (Stamps.mk (k + 4) (k + 1) (k + 2) (k + 3) done).header) crlf, k + 8) := by
  have hshift : k + 1 + 1 + 1 + 1 - k = 4 := by omega
  simp [headers, messageHeader, fieldName, fieldValue, content, lws, crlf, Stamps.header, Rx.entryGuarded,
    Rx.seq, Rx.plus, Rx.opt, Rx.chr, Rx.stamp, Rx.shiftStart, Rx.null, hshift]

/-- The start state is in the request line. -/
theorem holds_httpParserStart (uriRelaxed : Bool) :
    ∃ n : Stamps, Stage.line.Holds n (httpParserStart uriRelaxed) := by
  let line := (requestLine uriRelaxed).stamp 0
  let sock := (socketRequest uriRelaxed).stamp (line.2 + 8)
  refine ⟨⟨line.2 + 4, line.2 + 1, line.2 + 2, line.2 + 3, sock.2⟩, fun t ht => .inr ?_⟩
  have hmain := List.mem_singleton.mp ht
  rw [main, request, Rx.stamp, Rx.stamp, Rx.stamp, stamp_headers _ sock.2] at hmain
  rw [hmain]
  refine Stage.Allows.start line.1 sock.1 ?_ ?_ ?_
  · cases uriRelaxed <;> decide +kernel
  · cases uriRelaxed <;> decide +kernel
  · cases uriRelaxed <;> decide +kernel

/-! ## The header actions of a whole buffer -/

/-- Follow the header actions: whether the name of the current field has been written; `none` when a
value is written without. -/
def followFields : Bool → RequestAction → Option Bool
  | _, .startField => some false
  | _, .writeField => some true
  | true, .writeValue => some true
  | false, .writeValue => none
  | named, _ => some named

/-- Actions that are header actions of one stage only can be followed, and a name that is or gets
written stays so, unless a new field is started. -/
theorem followFields_acts {st : Stage} {named : Bool} (hnamed : st = .value → named = true)
    {as : List RequestAction}
    (has : ∀ a ∈ as, st.action = some a ∨ a ≠ .startField ∧ a ≠ .writeField ∧ a ≠ .writeValue) :
    ∃ named', as.foldlM followFields named = some named' ∧
      (st ≠ .headers → (named = true ∨ .writeField ∈ as) → named' = true) := by
  induction as generalizing named with
  | nil => exact ⟨named, rfl, by simp⟩
  | cons a as ih =>
    have has' : ∀ b ∈ as, st.action = some b ∨ b ≠ .startField ∧ b ≠ .writeField ∧ b ≠ .writeValue :=
      fun b hb => has b (List.mem_cons_of_mem a hb)
    have hfirst : ∃ next, followFields named a = some next ∧ (st = .value → next = true) ∧
        (st ≠ .headers → (named = true ∨ a = .writeField) → next = true) := by
      rcases has a List.mem_cons_self with hact | ⟨h₁, h₂, h₃⟩
      · cases st with
        | line => exact absurd hact nofun
        | afterReturn => exact absurd hact nofun
        | headers =>
          obtain rfl := Option.some.inj hact
          exact ⟨false, rfl, nofun, fun h => absurd rfl h⟩
        | name =>
          obtain rfl := Option.some.inj hact
          exact ⟨true, rfl, nofun, fun _ _ => rfl⟩
        | value =>
          obtain rfl := Option.some.inj hact
          obtain rfl := hnamed rfl
          exact ⟨true, rfl, fun _ => rfl, fun _ _ => rfl⟩
      · refine ⟨named, ?_, hnamed, fun _ h => h.resolve_right h₂⟩
        cases a <;> first | rfl | exact absurd rfl h₁ | exact absurd rfl h₂ | exact absurd rfl h₃
    obtain ⟨next, hnext, hvalue, hwritten⟩ := hfirst
    obtain ⟨named', hfold, hlast⟩ := ih hvalue has'
    refine ⟨named', ?_, fun hst h => hlast hst ?_⟩
    · rw [List.foldlM_cons, hnext]
      exact hfold
    · rcases h with h | h
      · exact .inl (hwritten hst (.inl h))
      · rcases List.mem_cons.mp h with h | h
        · exact .inl (hwritten hst (.inr h.symm))
        · exact .inr h

/-- The header actions of a buffer can be followed from any stage, and so can those of what comes
after it. -/
theorem followFields_scan {n : Stamps} {st : Stage} {ts : List (Thread RequestAction)} (hst : st.Holds n ts)
    {named : Bool} (hnamed : st = .value → named = true) (breaks : RequestAction → Bool)
    (data : List UInt8) :
    ∃ named', ((scan breaks data (some ts)).st.map (·.2)).foldlM followFields named = some named' ∧
      ((scan breaks data (some ts)).stopped = false →
        ∃ ts' st', (scan breaks data (some ts)).cs = some ts' ∧ Stage.Holds n st' ts' ∧
          (st' = .value → named' = true)) := by
  have hacts : ∀ (l : List (ℕ × RequestAction)) (p : ℕ) (as : List RequestAction),
      ((l ++ as.map fun a => (p, a)).map (·.2)).foldlM followFields named =
        ((l.map (·.2)).foldlM followFields named).bind fun named' => as.foldlM followFields named' := by
    intro l p as
    rw [List.map_append, List.map_map, List.foldlM_append]
    simp [Function.comp_def]
  refine scan_invariant (fun cs _ l stopped =>
    ∃ named', (l.map (·.2)).foldlM followFields named = some named' ∧
      (stopped = false → ∃ ts' st', cs = some ts' ∧ Stage.Holds n st' ts' ∧
        (st' = .value → named' = true))) ?_ ?_ ?_ ⟨named, rfl, fun _ => ⟨ts, st, rfl, hst, hnamed⟩⟩ data
  · rintro ts₁ p l c ts₂ acts ⟨named₁, hfold, hgoes⟩ hstep -
    obtain ⟨_, st₁, ⟨⟩, hst₁, hnamed₁⟩ := hgoes rfl
    obtain ⟨hallowed, st₂, hst₂, hvalue⟩ := hst₁.step hstep
    obtain ⟨named₂, hfold₂, hwritten⟩ := followFields_acts hnamed₁ hallowed
    refine ⟨named₂, ?_, fun _ => ⟨ts₂, st₂, rfl, hst₂, fun h => ?_⟩⟩
    · rw [hacts, hfold]
      exact hfold₂
    · rcases hvalue h with rfl | hmem
      · exact hwritten nofun (.inl (hnamed₁ rfl))
      · refine hwritten ?_ (.inr hmem)
        rintro rfl
        rcases hallowed _ hmem with h' | h'
        · exact absurd h' nofun
        · exact absurd rfl h'.2.1
  · rintro ts₁ p l c ts₂ acts as' ⟨named₁, hfold, hgoes⟩ hstep hpre
    obtain ⟨_, st₁, ⟨⟩, hst₁, hnamed₁⟩ := hgoes rfl
    obtain ⟨hallowed, -⟩ := hst₁.step hstep
    obtain ⟨named₂, hfold₂, -⟩ := followFields_acts hnamed₁ fun a ha => hallowed a (hpre.subset ha)
    refine ⟨named₂, ?_, nofun⟩
    rw [hacts, hfold]
    exact hfold₂
  · rintro cs p l ⟨named₁, hfold, -⟩
    exact ⟨named₁, hfold, nofun⟩

/-- The start state has not finished. -/
theorem unfinished_httpParserStart (uriRelaxed : Bool) :
    Unfinished RequestAction.done (some (httpParserStart uriRelaxed)) := by
  rintro _ ⟨⟩
  refine ⟨fun t ht => ?_, ?_⟩
  · rw [List.mem_singleton.mp ht]
    exact ⟨_, _, rfl⟩
  · cases uriRelaxed <;> decide +kernel

/-- A query string is embedded behind the start of the query. -/
theorem guarded_httpParserStart (uriRelaxed : Bool) :
    ∀ t ∈ httpParserStart uriRelaxed, t.guarded .startQuery .queryString = true := by
  intro t ht
  rw [List.mem_singleton.mp ht]
  cases uriRelaxed <;> decide +kernel

end RequestMachine

end Bobliew.Http
