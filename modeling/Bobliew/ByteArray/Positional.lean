import Bobliew.ByteArray.Cursor

/-!
# Reading at a position

The functions of `ByteArray` that take a position instead of using the cursor, and leave the cursor
alone. `read` starts at the node of the cursor, at the offset that the position has in its own node, and
subtracts the position from the size without regard to their order. `getReadBuffers` finds the node of
the position, but bounds the length by the number of bytes behind the cursor.

Both are right for the position of the cursor. Elsewhere they are right exactly when the bytes that are
looked at happen to be the ones asked for, and when the bound happens to make no difference.
-/

namespace Bobliew

namespace ByteArray

/-- Subtraction of two values of `size_t`. -/
def subSize (m n : ℕ) : ℕ := if n ≤ m then m - n else 2 ^ 64 - (n - m)

/-- `read(buf, size, position)`. -/
def readAt (a : ByteArray) (size position : ℕ) : Except ByteArrayFault (List UInt8) :=
  if size > subSize a.size position then .error (.outOfRange "not enough len")
  else (readLoop a.fromCurr (position % a.baseSize) size).map Prod.fst

/-- The walk of `getReadBuffers` from `m_root` over a number of nodes. -/
def skipNodes : List Node → ℕ → Except ByteArrayFault (List Node)
  | chain, 0 => .ok chain
  | [], _ + 1 => .error .nullNode
  | _ :: rest, count + 1 => skipNodes rest count

/-- `getReadBuffers(buffers, len, position)`: the buffers added and the returned length. -/
def getReadBuffersAt (a : ByteArray) (len position : ℕ) : Except ByteArrayFault (List IoVec × ℕ) :=
  let len := if len > a.getReadSize then a.getReadSize else len
  if len = 0 then .ok ([], 0) else do
  let chain ← skipNodes a.nodes (position / a.baseSize)
  let buffers ← buffersLoop chain (position / a.baseSize) (position % a.baseSize) len
  .ok (buffers, len)

/-- `read` at a position returns the visible bytes there, or throws when there are too few. -/
def ReadsAt (a : ByteArray) (size position : ℕ) : Prop :=
  (position + size ≤ a.size → a.readAt size position = .ok ((a.contents.drop position).take size)) ∧
    (a.size < position + size → a.readAt size position = .error (.outOfRange "not enough len"))

/-- `getReadBuffers` at a position returns the number of visible bytes there up to the length asked for,
and describes these bytes. -/
def BuffersAt (a : ByteArray) (len position : ℕ) : Prop :=
  ∃ buffers, a.getReadBuffersAt len position = .ok (buffers, min len (a.size - position)) ∧
    buffers.flatMap (bytesOf a.nodes) = (a.contents.drop position).take (min len (a.size - position))

/-- The bytes at the offset of a position, counted from the node of the cursor on, are the ones at the
position. -/
def SameBytes (a : ByteArray) (size position : ℕ) : Prop :=
  ((memory a.nodes).drop (a.position / a.baseSize * a.baseSize + position % a.baseSize)).take size =
    ((memory a.nodes).drop position).take size

variable {b npos size position len : ℕ} {nodes : List Node} {a a' : ByteArray}

/-- Walking over nodes. -/
theorem skipNodes_eq {count : ℕ} (h : count ≤ nodes.length) : skipNodes nodes count = .ok (nodes.drop count) := by
  induction nodes generalizing count with
  | nil =>
    obtain rfl : count = 0 := Nat.le_zero.mp h
    rfl
  | cons node rest ih =>
    cases count with
    | zero => rfl
    | succ count => exact ih (Nat.le_of_succ_le_succ h)

/-- The loop of `read` follows a null pointer when it needs more than the chain has. -/
theorem readLoop_overrun (h : Uniform b nodes) (hnpos : npos ≤ b) (hsize : 0 < size)
    (hover : nodes.length * b < npos + size) : readLoop nodes npos size = .error .nullNode := by
  induction nodes generalizing npos size with
  | nil => rfl
  | cons node rest ih =>
    have hnode : node.size = b := h node List.mem_cons_self
    rw [List.length_cons, Nat.succ_mul] at hover
    unfold readLoop
    rw [if_neg (by omega), hnode, if_neg (by omega),
      ih (fun x hx => h x (List.mem_cons_of_mem _ hx)) (Nat.zero_le b) (by omega) (by omega)]
    rfl

/-- The array with its cursor at another position inside the visible bytes. -/
theorem Inv.moveTo (h : Inv b a) (hp : position ≤ a.size) : Inv b { a with
    position := position
    curr := if position = a.capacity then none else some (position / b) } :=
  { h with position_le := hp, curr := rfl }

/-- Reading no byte at a position. -/
theorem readLoop_zero (h : nodes ≠ []) : readLoop nodes npos 0 = .ok ([], 0) := by
  cases nodes with
  | nil => exact absurd rfl h
  | cons node rest => rfl

/-- The loop of `read` from the node of the cursor on, at the offset of another position. -/
theorem Inv.readLoop_iff (h : Inv b a) (hb : 0 < b) (hin : position + size ≤ a.size)
    (hcurr : a.position ≠ a.capacity) :
    (readLoop a.fromCurr (position % a.baseSize) size).map Prod.fst =
      .ok ((a.contents.drop position).take size) ↔ SameBytes a size position := by
  have hpos := h.position_le
  have hle := h.size_le
  have hlt : a.position < a.capacity := by omega
  have hmod := Nat.mod_lt position hb
  obtain ⟨hfrom, _⟩ := h.curr_eq hlt
  obtain ⟨hindex, hbefore, hmemory⟩ := h.split_memory hb hlt
  have hlength : (memory a.nodes).length = a.capacity := by rw [h.uniform.length_memory, h.capacity]
  have hvisible : (a.contents.drop position).take size = ((memory a.nodes).drop position).take size := by
    rw [contents, List.drop_take, List.take_take, Nat.min_eq_left (by omega)]
  have hshift : (memory a.nodes).drop (a.position / b * b + position % b) =
      (memory (a.nodes.drop (a.position / b))).drop (position % b) := by
    rw [hmemory, ← hbefore, List.drop_length_add_append]
  unfold SameBytes
  rw [hfrom, h.baseSize, hvisible, hshift]
  rcases Nat.eq_zero_or_pos size with rfl | hsize
  · rw [readLoop_zero (by simpa using hindex)]
    exact iff_of_true (by rw [List.take_zero]; rfl) (by rw [List.take_zero, List.take_zero])
  · by_cases hfit : position % b + size ≤ (a.nodes.drop (a.position / b)).length * b
    · rw [readLoop_spec hb (h.uniform_drop _) hmod hsize hfit]
      change Except.ok _ = Except.ok _ ↔ _
      rw [Except.ok.injEq]
    · rw [readLoop_overrun (h.uniform_drop _) hmod.le hsize (by omega)]
      refine iff_of_false (fun heq => ?_) fun heq => ?_
      · cases heq
      · have hcount := congrArg List.length heq
        rw [List.length_take, List.length_take, List.length_drop, List.length_drop, hlength,
          (h.uniform_drop _).length_memory] at hcount
        omega

/-- When `read` at a position is right. -/
theorem Inv.readsAt_iff (h : Inv b a) (hb : 0 < b) (size position : ℕ) (hposition : position < 2 ^ 64) :
    ReadsAt a size position ↔
      if position + size ≤ a.size then a.position ≠ a.capacity ∧ SameBytes a size position
      else position ≤ a.size ∨ 2 ^ 64 + a.size < position + size := by
  unfold ReadsAt readAt
  by_cases hin : position + size ≤ a.size
  · have henough : ¬ size > subSize a.size position := by
      rw [subSize, if_pos (by omega)]
      omega
    rw [if_pos hin, if_neg henough]
    have hnot : ¬ a.size < position + size := by omega
    rw [forall_prop_of_true hin, and_iff_left fun hlt => absurd hlt hnot]
    by_cases hend : a.position = a.capacity
    · have hcurr := h.curr
      rw [if_pos hend] at hcurr
      refine iff_of_false (fun heq => ?_) fun hne => hne.1 hend
      rw [fromCurr, hcurr] at heq
      cases heq
    · rw [h.readLoop_iff hb hin hend]
      exact (and_iff_right hend).symm
  · have hout : a.size < position + size := by omega
    rw [if_neg hin, forall_prop_of_true hout, and_iff_right fun hle => absurd hle hin]
    by_cases hthrows : size > subSize a.size position
    · rw [if_pos hthrows]
      refine iff_of_true rfl ?_
      unfold subSize at hthrows
      split at hthrows
      · exact Or.inl ‹_›
      · exact Or.inr (by omega)
    · rw [if_neg hthrows]
      refine iff_of_false (fun heq => ?_) fun hcases => hthrows ?_
      · have hfirst : ∀ (nodes : List Node) npos size (what : String),
            (readLoop nodes npos size).map Prod.fst ≠ .error (.outOfRange what) := by
          intro nodes npos size what
          induction nodes generalizing npos size with
          | nil => simp [readLoop, Except.map]
          | cons node rest ih =>
            unfold readLoop
            dsimp only
            split
            · simp [Except.map]
            · split
              · simp [Except.map]
              · have hrest := ih 0 (size - (node.size - npos))
                cases hloop : readLoop rest 0 (size - (node.size - npos)) with
                | error fault =>
                  rw [hloop] at hrest
                  exact hrest
                | ok result => simp [Except.map, bind, Except.bind]
        exact hfirst _ _ _ _ heq
      · unfold subSize
        rcases hcases with hle | hwrap
        · rw [if_pos hle]
          omega
        · split <;> omega

/-- When `getReadBuffers` at a position is right. -/
theorem Inv.buffersAt_iff (h : Inv b a) (hb : 0 < b) (len : ℕ) (hposition : position ≤ a.size) :
    BuffersAt a len position ↔ min len (a.size - a.position) = min len (a.size - position) := by
  have hmin : (if len > a.getReadSize then a.getReadSize else len) = min len (a.size - a.position) := by
    unfold getReadSize
    split <;> omega
  have hle := h.size_le
  have hcount : position / a.baseSize ≤ a.nodes.length := by
    rw [h.baseSize]
    refine Nat.div_le_of_le_mul ?_
    rw [Nat.mul_comm, ← h.capacity]
    omega
  unfold BuffersAt getReadBuffersAt
  rw [hmin, skipNodes_eq hcount]
  constructor
  · rintro ⟨buffers, heq, _⟩
    dsimp only at heq
    split at heq
    · rename_i hzero
      have hpair := Prod.mk.inj (Except.ok.inj heq)
      rw [hzero]
      exact hpair.2
    · change (buffersLoop _ _ _ _ >>= _) = _ at heq
      obtain ⟨found, _, hfound⟩ := Except.exists_of_bind_eq_ok heq
      exact (Prod.mk.inj (Except.ok.inj hfound)).2
  · intro heq
    obtain ⟨buffers, hread, hbytes, _⟩ := (h.moveTo hposition).getReadBuffers hb len
    refine ⟨buffers, ?_, hbytes⟩
    have hmin' : (if len > a.size - position then a.size - position else len) =
        min len (a.size - position) := by
      split <;> omega
    unfold ByteArray.getReadBuffers ByteArray.getReadSize at hread
    dsimp only at hread ⊢
    rw [hmin'] at hread
    rw [heq]
    split
    · rename_i hzero
      rw [if_pos hzero] at hread
      exact hread.trans (by rw [hzero])
    · rename_i hpos
      have hlt : position < a.capacity := by omega
      rw [if_neg hpos] at hread
      obtain ⟨hfrom, hindex⟩ := (h.moveTo hposition).curr_eq hlt
      rw [hfrom, hindex] at hread
      rw [h.baseSize] at hread ⊢
      obtain ⟨found, hloop, hfound⟩ := Except.exists_of_bind_eq_ok hread
      change (buffersLoop _ _ _ _ >>= _) = _
      rw [hloop]
      exact hfound

/-- Whatever operation is performed, the invariant holds afterwards unless a null pointer was followed. -/
theorem Inv.of_step (h : Inv b a) (hb : 0 < b) {op : Op} (hok : a.step op = .ok a') : Inv b a' := by
  have hkeep : Permitted a op → Inv b a' := by
    intro hop
    obtain ⟨a'', heq, hinv⟩ := h.step hb hop
    rw [heq] at hok
    exact Except.ok.inj hok ▸ hinv
  cases op with
  | read size =>
    rcases Nat.eq_zero_or_pos size with rfl | hsize
    · rcases (⟨h, rfl, Iff.rfl⟩ : Unread b (a.size = a.capacity) a _).get_zero with
        ⟨_, _, hthrow⟩ | ⟨_, hret⟩
      · rw [ByteArray.step, Effect.throws_of.mp hthrow] at hok
        cases hok
      · rw [ByteArray.step, Effect.returns_of.mp hret] at hok
        exact Except.ok.inj hok ▸ h
    · exact hkeep hsize
  | write buf fresh => exact hkeep trivial
  | setPosition v => exact hkeep trivial
  | clear => exact hkeep trivial
  | getReadBuffers len => exact hkeep trivial
  | getWriteBuffers len fresh => exact hkeep trivial

/-- The invariant holds in every state reached by operations of any kind. -/
theorem inv_of_reaches (hb : 1 ≤ b) (content : ℕ → UInt8)
    (h : Runs.Reaches step (fun _ _ => True) (new b content) a) : Inv b a :=
  h.invariant (Inv b) (Inv.new hb content) fun _ _ _ hs _ hok => hs.of_step hb hok

/-- In every reached state `read` at a position inside the visible bytes is right exactly when the cursor is
not at the end of the chain and the bytes at the offset of the position, counted from the node of the cursor
on, are the ones at the position; beyond them it is right exactly when the position is inside or the
difference does not wrap around. `getReadBuffers` at a position is right exactly when the bytes behind the
cursor bound the length as the bytes behind the position do. -/
theorem positional_iff (hb : 1 ≤ b) (content : ℕ → UInt8)
    (h : Runs.Reaches step (fun _ _ => True) (new b content) a) :
    (∀ size position : UInt64, ReadsAt a size.toNat position.toNat ↔
      if position.toNat + size.toNat ≤ a.size then
        a.position ≠ a.capacity ∧ SameBytes a size.toNat position.toNat
      else position.toNat ≤ a.size ∨ 2 ^ 64 + a.size < position.toNat + size.toNat) ∧
    ∀ len position : UInt64, position.toNat ≤ a.size → (BuffersAt a len.toNat position.toNat ↔
      min len.toNat (a.size - a.position) = min len.toNat (a.size - position.toNat)) := by
  have hinv := inv_of_reaches hb content h
  exact ⟨fun size position => hinv.readsAt_iff hb size.toNat position.toNat position.toNat_lt,
    fun len position hposition => hinv.buffersAt_iff hb len.toNat hposition⟩

/-- Eight bytes in nodes of four, with the cursor back at the start. -/
theorem reaches_eightBytes : ∃ a, Runs.Reaches step (fun _ _ => True) (new 4 fun _ => 0) a ∧
    a.size = 8 ∧ a.position = 0 ∧ a.readAt 2 4 = .ok [1, 2] ∧ a.contents = [1, 2, 3, 4, 5, 6, 7, 8] ∧
    a.getReadBuffersAt 4 6 = .error .nullNode := by
  have hwrite : Runs.Reaches step (fun _ _ => True) (new 4 fun _ => 0) _ :=
    .next .start (.write [1, 2, 3, 4, 5, 6, 7, 8] fun _ _ => 0) trivial rfl
  have hseek := hwrite.next (.setPosition 0) trivial rfl
  exact ⟨_, hseek, rfl, rfl, rfl, rfl, rfl⟩

/-- Reading at the position of the cursor is right. -/
theorem positional_iff_eightBytes : ∃ a, a.size = 8 ∧ ReadsAt a 2 0 ∧ BuffersAt a 4 0 := by
  obtain ⟨a, hreach, hsize, hposition, _, hcontents, _⟩ := reaches_eightBytes
  have h := positional_iff (by decide) _ hreach
  have hinv := inv_of_reaches (by decide) _ hreach
  have hle := hinv.size_le
  refine ⟨a, hsize, (h.1 2 0).mpr ?_, (h.2 4 0 (Nat.zero_le _)).mpr ?_⟩
  · rw [if_pos (by rw [hsize]; decide)]
    refine ⟨by omega, ?_⟩
    rw [SameBytes, hposition]
    simp
  · rw [hposition]
    rfl

/-- With the cursor at the start, the bytes at position 4 are not the ones read there, and two buffers
asked for at position 6 run off the chain. -/
theorem not_readsAt_behind_cursor : ∃ a, Runs.Reaches step (fun _ _ => True) (new 4 fun _ => 0) a ∧
    ¬ ReadsAt a 2 4 ∧ ¬ BuffersAt a 4 6 := by
  obtain ⟨a, hreach, hsize, _, hread, hcontents, hbuffers⟩ := reaches_eightBytes
  refine ⟨a, hreach, fun h => ?_, ?_⟩
  · have hright := h.1 (by omega)
    rw [hread, hcontents] at hright
    exact absurd hright (by decide)
  · rintro ⟨buffers, heq, _⟩
    rw [hbuffers] at heq
    cases heq

end ByteArray

end Bobliew
