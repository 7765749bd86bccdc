import Bobliew.ByteArray.Refinement
import Bobliew.Lib.Effects

/-!
# Writing at the end and reading on

The program appends to an array from its creation on, moves the position back, and reads on from
there. Writing at the end appends to the visible bytes, and keeps the chain as short as the bytes
allow; reading takes the unread bytes away from the front. Reading no bytes is not harmless: it looks
into the node of the position, and there is none when the position is at the end of the chain.
-/

namespace Bobliew

namespace ByteArray

/-- An operation on the array. -/
abbrev Action (A : Type) : Type := Effect ByteArray ByteArrayFault A

/-- `write`, with the content of the memory handed out for new nodes. -/
def put (fresh : ByteArray → ℕ → ℕ → UInt8) (buf : List UInt8) : Action Unit :=
  .of fun a => a.write buf (fresh a)

/-- `read`. -/
def get (size : ℕ) : Action (List UInt8) := .of fun a => a.read size

/-- `setPosition`. -/
def seek (v : ℕ) : Action Unit := .of fun a => a.setPosition v

variable {b n : ℕ} {a a' : ByteArray} {all bytes rest : List UInt8} {full : Prop}

/-- The position is at the end of the visible bytes, in a chain that is not longer than needed. -/
structure AtEnd (b : ℕ) (a : ByteArray) (all : List UInt8) : Prop where
  inv : Inv b a
  contents : a.contents = all
  position : a.position = a.size
  capacity_le : a.capacity ≤ max b (a.size + b - 1)

/-- The bytes from the position on, and whether the visible bytes fill the chain. -/
structure Unread (b : ℕ) (full : Prop) (a : ByteArray) (rest : List UInt8) : Prop where
  inv : Inv b a
  unread : a.contents.drop a.position = rest
  full : a.size = a.capacity ↔ full

/-- A new array. -/
theorem AtEnd.new (hb : 1 ≤ b) (content : ℕ → UInt8) : AtEnd b (ByteArray.new b content) [] where
  inv := Inv.new hb content
  contents := rfl
  position := rfl
  capacity_le := Nat.le_max_left _ _

/-- Rounding up to whole nodes adds less than a node. -/
theorem ceil_mul_le (b n : ℕ) : (n + b - 1) / b * b ≤ n + b - 1 := Nat.div_mul_le_self _ _

/-- The capacity after `write` is the one made before copying. -/
theorem capacity_write (a : ByteArray) {buf : List UInt8} (hbuf : buf.length ≠ 0) (fresh : ℕ → ℕ → UInt8) :
    (a.write buf fresh).1.capacity = (a.addCapacity buf.length fresh).capacity := by
  unfold write
  rw [if_neg hbuf]
  dsimp only
  split <;> rfl

/-- The capacity that `addCapacity` makes. -/
theorem addCapacity_capacity_le (h : AtEnd b a all) (n : ℕ) (fresh : ℕ → ℕ → UInt8) :
    (a.addCapacity n fresh).capacity ≤ max b (a.size + n + b - 1) := by
  have hcap := h.capacity_le
  have hpos := h.position
  unfold addCapacity getCapacity
  split
  · omega
  · dsimp only
    split
    · omega
    · have hceil := ceil_mul_le b (n - (a.capacity - a.position))
      rw [h.inv.baseSize]
      dsimp only
      have hle := h.inv.size_le
      omega

/-- Writing at the end appends. -/
theorem AtEnd.put (h : AtEnd b a all) (hb : 1 ≤ b) (fresh : ByteArray → ℕ → ℕ → UInt8)
    (buf : List UInt8) : ∃ a', (put fresh buf).Returns a () a' ∧ AtEnd b a' (all ++ buf) := by
  obtain ⟨a', heq, hinv, hrep, hsize⟩ := h.inv.write hb buf (fresh a)
  have hlength : a.contents.length = a.size := h.inv.length_contents
  have hpos : a'.position = a.position + buf.length := hrep.2.symm
  rw [h.position] at hsize hpos
  refine ⟨a', ?_, hinv, ?_, by omega, ?_⟩
  · exact Effect.returns_of.mpr heq
  · rw [← hrep.1]
    change a.contents.overwrite a.position buf = _
    rw [List.overwrite, h.position, List.take_of_length_le (by omega), List.drop_of_length_le (by omega),
      List.append_nil, h.contents]
  · by_cases hbuf : buf.length = 0
    · have hsame : a' = a := by
        unfold write at heq
        rw [if_pos hbuf] at heq
        exact (congrArg Prod.fst heq).symm
      rw [hsame]
      exact h.capacity_le
    · have hcap := capacity_write a hbuf (fresh a)
      rw [heq] at hcap
      have hle := addCapacity_capacity_le h buf.length (fresh a)
      rw [hsize, Nat.max_eq_right (Nat.le_add_right _ _), hcap]
      exact hle

/-- The chain is full exactly when its bytes fill whole nodes. -/
theorem AtEnd.size_eq_capacity_iff (h : AtEnd b a all) (hb : 1 ≤ b) (hall : all ≠ []) :
    a.size = a.capacity ↔ b ∣ all.length := by
  have hlength : all.length = a.size := by
    rw [← h.contents]
    exact h.inv.length_contents
  have hpositive : 0 < all.length := List.length_pos_iff.mpr hall
  have hle := h.inv.size_le
  have hcap := h.capacity_le
  constructor
  · intro heq
    rw [hlength, heq, h.inv.capacity]
    exact Nat.dvd_mul_left _ _
  · rintro ⟨k, hk⟩
    have hk' : a.size = k * b := by
      rw [← hlength, hk, Nat.mul_comm]
    have hlt : a.nodes.length * b < (k + 1) * b := by
      rw [← h.inv.capacity, Nat.add_mul, ← hk']
      omega
    have hnodes : a.nodes.length < k + 1 := Nat.lt_of_mul_lt_mul_right hlt
    have hmul : a.nodes.length * b ≤ k * b := Nat.mul_le_mul_right b (by omega)
    rw [h.inv.capacity] at hle ⊢
    omega

/-- Moving back to the start makes all bytes unread. -/
theorem AtEnd.seek (h : AtEnd b a all) (hb : 1 ≤ b) :
    ∃ a', (seek 0).Returns a () a' ∧ Unread b (a.size = a.capacity) a' all := by
  rcases h.inv.setPosition hb 0 with ⟨hlt, _⟩ | ⟨_, a', heq, hinv, hpos, hsize, hsame⟩
  · omega
  · have hsize' : a'.size = a.size := by omega
    have hcap : a'.capacity = a.capacity := by
      unfold setPosition at heq
      rw [if_neg (by omega)] at heq
      dsimp only at heq
      split at heq
      · simp at heq
      · exact congrArg (fun r => r.1.capacity) heq.symm
    refine ⟨a', ?_, hinv, ?_, by rw [hsize', hcap]⟩
    · exact Effect.returns_of.mpr heq
    · rw [hpos, List.drop_zero, ← h.contents, ← hsame, ← hsize',
        List.take_of_length_le (by rw [hinv.length_contents])]

/-- The number of unread bytes. -/
theorem Unread.getReadSize (h : Unread b full a rest) : a.getReadSize = rest.length := by
  rw [← h.unread, List.length_drop, h.inv.length_contents]
  rfl

/-- `read` does not change the size, the capacity or the visible bytes. -/
theorem read_frame (a : ByteArray) (n : ℕ) :
    (a.read n).1.size = a.size ∧ (a.read n).1.capacity = a.capacity ∧
      (a.read n).1.contents = a.contents := by
  unfold read
  split
  · exact ⟨rfl, rfl, rfl⟩
  · split <;> exact ⟨rfl, rfl, rfl⟩

/-- Reading at least one byte takes the bytes away from the front, or throws when there are too few. -/
theorem Unread.get (h : Unread b full a all) (hb : 1 ≤ b) (hn : 1 ≤ n) :
    (all.length < n ∧ (get n).Throws a (.outOfRange "not enough len") a) ∨
    (n ≤ all.length ∧ ∃ a', (get n).Returns a (all.take n) a' ∧ Unread b full a' (all.drop n)) := by
  have hrest : a.size - a.position = all.length := h.getReadSize
  rcases h.inv.read hb hn with ⟨hfew, _, heq⟩ | ⟨hle, a', bytes, flat', hflat, heq, hinv, hrep⟩
  · refine Or.inl ⟨by omega, ?_⟩
    exact Effect.throws_of.mpr heq
  · obtain ⟨hsize, hcap, hcontents⟩ := read_frame a n
    rw [heq] at hsize hcap hcontents
    unfold FlatArray.read at hflat
    split at hflat
    · obtain ⟨hbytes, hpos⟩ := Prod.mk.inj (Option.some.inj hflat)
      have hmoved : a'.position = a.position + n := by
        rw [← hrep.2, ← hpos]
        rfl
      refine Or.inr ⟨by omega, a', ?_, hinv, ?_, by rw [hsize, hcap]; exact h.full⟩
      · apply Effect.returns_of.mpr
        rw [heq, ← hbytes]
        change (a', Except.ok ((a.contents.drop a.position).take n)) = _
        rw [h.unread]
      · rw [hcontents, hmoved, ← List.drop_drop, h.unread]
    · cases hflat

/-- Reading no bytes does nothing inside the chain and follows a null pointer at its end. -/
theorem Unread.get_zero (h : Unread b full a all) :
    (all = [] ∧ full ∧ (ByteArray.get 0).Throws a .nullNode a) ∨
      (¬ (all = [] ∧ full) ∧ (ByteArray.get 0).Returns a [] a) := by
  have hrest : a.size - a.position = all.length := h.getReadSize
  have hpos := h.inv.position_le
  have hle := h.inv.size_le
  have hnil : all = [] ↔ a.position = a.size := by
    rw [← List.length_eq_zero_iff]
    omega
  unfold ByteArray.get
  rw [Effect.throws_of, Effect.returns_of, ← h.full, hnil]
  unfold read
  rw [if_neg (by omega)]
  by_cases hend : a.position = a.capacity
  · have hcurr := h.inv.curr
    rw [if_pos hend] at hcurr
    refine Or.inl ⟨by omega, by omega, ?_⟩
    simp [fromCurr, hcurr, readLoop]
  · obtain ⟨hfrom, hindex⟩ := h.inv.curr_eq (by omega)
    refine Or.inr ⟨by omega, ?_⟩
    have hlt : a.position / b < a.nodes.length := by
      rcases Nat.eq_zero_or_pos b with rfl | hb
      · rw [Nat.div_zero]
        exact h.inv.nodes
      · rw [Nat.div_lt_iff_lt_mul hb, ← h.inv.capacity]
        omega
    have hloop : readLoop a.fromCurr (a.position % a.baseSize) 0 = .ok ([], 0) := by
      rw [hfrom, List.drop_eq_getElem_cons hlt]
      rfl
    rw [hloop, hindex]
    have hsame : pointer a.nodes (a.position / b) = a.curr := by
      rw [h.inv.curr, if_neg hend]
      exact if_pos hlt
    simp only [Nat.add_zero, hsame]

/-- From the end of the visible bytes on, the operation appends the given bytes and returns `x`. -/
def Writes {A : Type} (b : ℕ) (m : Action A) (x : A) (bytes : List UInt8) : Prop :=
  ∀ a all, AtEnd b a all → ∃ a', m.Returns a x a' ∧ AtEnd b a' (all ++ bytes)

/-- When the unread bytes start with the given ones, the operation takes these and returns `x`. -/
def Reads {A : Type} (b : ℕ) (m : Action A) (x : A) (bytes : List UInt8) : Prop :=
  ∀ full a rest, Unread b full a (bytes ++ rest) → ∃ a', m.Returns a x a' ∧ Unread b full a' rest

section Rules

variable {A B : Type} {m : Action A} {f : A → Action B} {x : A} {y : B} {bytes' : List UInt8}

/-- `write` appends. -/
theorem Writes.put (hb : 1 ≤ b) (fresh : ByteArray → ℕ → ℕ → UInt8) (buf : List UInt8) :
    Writes b (put fresh buf) () buf := fun _ _ h => h.put hb fresh buf

/-- Appending in turn. -/
theorem Writes.bind (hm : Writes b m x bytes) (hf : Writes b (f x) y bytes') :
    Writes b (m >>= f) y (bytes ++ bytes') := by
  intro a all h
  obtain ⟨a₁, hret₁, h₁⟩ := hm a all h
  obtain ⟨a₂, hret₂, h₂⟩ := hf a₁ _ h₁
  rw [List.append_assoc] at h₂
  exact ⟨a₂, Effect.returns_bind.mpr ⟨x, a₁, hret₁, hret₂⟩, h₂⟩

/-- Appending nothing. -/
theorem Writes.pure (x : A) : Writes b (Pure.pure x) x [] := by
  intro a all h
  rw [List.append_nil]
  exact ⟨a, Effect.returns_pure.mpr ⟨rfl, rfl⟩, h⟩

/-- Appending and then returning. -/
theorem Writes.returning (hm : Writes b m x bytes) (g : A → B) :
    Writes b (m >>= fun x => Pure.pure (g x)) (g x) bytes := by
  have h := hm.bind (f := fun x => Pure.pure (g x)) (Writes.pure (g x))
  rwa [List.append_nil] at h

/-- `read` takes bytes that are there. -/
theorem Reads.get (hb : 1 ≤ b) (hbytes : bytes ≠ []) : Reads b (get bytes.length) bytes bytes := by
  intro full a rest h
  have hn : 1 ≤ bytes.length := List.length_pos_iff.mpr hbytes
  rcases h.get hb hn with ⟨hfew, _⟩ | ⟨_, a', hret, h'⟩
  · rw [List.length_append] at hfew
    omega
  · rw [List.take_left] at hret
    rw [List.drop_left] at h'
    exact ⟨a', hret, h'⟩

/-- Taking in turn. -/
theorem Reads.bind (hm : Reads b m x bytes) (hf : Reads b (f x) y bytes') :
    Reads b (m >>= f) y (bytes ++ bytes') := by
  intro full a rest h
  rw [List.append_assoc] at h
  obtain ⟨a₁, hret₁, h₁⟩ := hm full a _ h
  obtain ⟨a₂, hret₂, h₂⟩ := hf full a₁ rest h₁
  exact ⟨a₂, Effect.returns_bind.mpr ⟨x, a₁, hret₁, hret₂⟩, h₂⟩

/-- Taking nothing. -/
theorem Reads.pure (x : A) : Reads b (Pure.pure x) x [] :=
  fun _ a _ h => ⟨a, Effect.returns_pure.mpr ⟨rfl, rfl⟩, h⟩

/-- Changing the result. -/
theorem Reads.map (hm : Reads b m x bytes) {g : A → B} (hg : g x = y) : Reads b (g <$> m) y bytes := by
  intro full a rest h
  obtain ⟨a', hret, h'⟩ := hm full a rest h
  exact ⟨a', Effect.returns_map.mpr ⟨x, hret, hg⟩, h'⟩

end Rules

end ByteArray

end Bobliew
