import Bobliew.ByteArray.Positional
import Bobliew.Http.RequestSession

/-!
# Copying to a file and back

`writeToFile` writes a part of each node from the cursor on. The length of a part is computed from the bytes
that are left as if they started at the beginning of the node, less the offset of the cursor, and the next
part is always taken from the next node. This is right when the cursor is at the beginning of a node, or when
the bytes left fill a node. Otherwise offset and remaining length change places in every round, the loop does
not get to the end of the bytes, and it runs off the chain.

`readFromFile` writes the file in blocks of the base size, whatever the cursor is.
-/

namespace Bobliew

namespace ByteArray

open Http (toInt32)

/-- Why `writeToFile` does not return. -/
inductive FileFault where
  | nullNode
  | outsideNode
  deriving DecidableEq

/-- `std::ofstream`: the bytes stored, and whether the stream is good. -/
structure OutFile where
  stored : List UInt8
  good : Bool

/-- `ofs.write(node->ptr + offset, len)`. A negative length breaks the stream, and a broken stream stores
nothing. -/
def OutFile.write (ofs : OutFile) (node : Node) (offset len : ℤ) : Except FileFault OutFile :=
  if offset < 0 ∨ offset > node.size then .error .outsideNode
  else if ¬ ofs.good then .ok ofs
  else if len < 0 then .ok { ofs with good := false }
  else if offset + len > node.size then .error .outsideNode
  else .ok { ofs with stored := ofs.stored ++ node.load offset.toNat len.toNat }

/-- The loop of `writeToFile`, from the node of the cursor on. -/
def writeFileLoop (baseSize : ℕ) : List Node → ℤ → ℤ → OutFile → Except FileFault OutFile
  | [], _, readSize, ofs => if readSize > 0 then .error .nullNode else .ok ofs
  | node :: rest, pos, readSize, ofs =>
    if readSize > 0 then do
      let diff := toInt32 (pos % baseSize).toNat
      let len := (if readSize > baseSize then (baseSize : ℤ) else readSize) - diff
      let ofs ← ofs.write node diff len
      writeFileLoop baseSize rest (pos + len) (readSize - len) ofs
    else .ok ofs

/-- `writeToFile`: the content of the file, or nothing when it cannot be opened. -/
def writeToFile (a : ByteArray) (opened : Bool) : Except FileFault (Option (List UInt8)) :=
  if ¬ opened then .ok none else
  (writeFileLoop a.baseSize a.fromCurr a.position a.getReadSize ⟨[], true⟩).map fun ofs => some ofs.stored

/-- The loop of `readFromFile` on the rest of the file, for a number of rounds: whether it has ended. Reading
past the end of the file is what sets `eof`. -/
def readFileLoop (fresh : ByteArray → ℕ → ℕ → UInt8) (baseSize : ℕ) : ℕ → List UInt8 → Action Bool
  | 0, _ => return false
  | rounds + 1, file => do
    put fresh (file.take baseSize)
    if file.length < baseSize then return true else readFileLoop fresh baseSize rounds (file.drop baseSize)

/-- `readFromFile`, for a number of rounds: the returned value, if the loop has ended. There is no file to
read when it cannot be opened. -/
def readFromFile (fresh : ByteArray → ℕ → ℕ → UInt8) (rounds : ℕ) (file : Option (List UInt8)) :
    Action (Option Bool) := fun a =>
  match file with
  | none => (.ok (some false), a)
  | some bytes =>
    ((fun ended => if ended then some true else none) <$> readFileLoop fresh a.baseSize rounds bytes) a

/-- `writeToFile` returns and stores the unread bytes, and `readFromFile` of this file writes them at the
cursor of any other array. -/
def CopiedByFile (a : ByteArray) : Prop :=
  let bytes := a.contents.drop a.position
  a.writeToFile true = .ok (some bytes) ∧
    ∀ b, 1 ≤ b → ∀ content other, Runs.Reaches step (fun _ _ => True) (new b content) other →
      ∀ fresh rounds, bytes.length < rounds → ∃ other',
        (readFromFile fresh rounds (some bytes)).Returns other (some true) other' ∧
        other'.contents = other.contents.overwrite other.position bytes ∧
        other'.position = other.position + bytes.length ∧
        other'.size = max other.size (other.position + bytes.length)

/-- There is nothing unread, the cursor is at the beginning of a node, or the unread bytes fill a node and the
offset of the cursor fits an `int`. -/
def LinesUp (a : ByteArray) : Prop :=
  a.getReadSize = 0 ∨ a.position % a.baseSize = 0 ∨
    (a.baseSize ≤ a.getReadSize ∧ a.position % a.baseSize < 2 ^ 31)

variable {b : ℕ} {nodes rest : List Node} {node : Node} {a : ByteArray} {stored : List UInt8}

/-- A number that fits 31 bits is kept. -/
theorem toInt32_of_lt {n : ℕ} (h : n < 2 ^ 31) : toInt32 n = n := by
  unfold toInt32
  rw [Nat.mod_eq_of_lt (by omega), if_pos h]

/-- A number of 32 bits that does not fit 31 bits becomes negative. -/
theorem toInt32_neg {n : ℕ} (h : 2 ^ 31 ≤ n) (hlt : n < 2 ^ 32) : toInt32 n < 0 := by
  unfold toInt32
  rw [Nat.mod_eq_of_lt hlt, if_neg (by omega)]
  omega

/-- Writing a part of a node to a good file. -/
theorem OutFile.write_part {offset len : ℕ} (hfit : offset + len ≤ node.size) :
    OutFile.write ⟨stored, true⟩ node offset len = .ok ⟨stored ++ node.load offset len, true⟩ := by
  unfold OutFile.write
  rw [if_neg (by omega), if_neg (by simp), if_neg (by omega), if_neg (by omega)]
  simp

/-- The length of a part as the code computes it. -/
theorem min_readSize (readSize : ℤ) (b : ℕ) :
    (if readSize > b then (b : ℤ) else readSize) = min readSize b := by
  split <;> omega

/-- A round of the loop that writes a part of its node. -/
theorem writeFileLoop_part (hnode : node.size = b) {pos readSize : ℤ} {offset : ℕ} (len : ℕ)
    (hpos : pos % b = offset) (hoffset : offset < 2 ^ 31) (hleft : 0 < readSize)
    (hlen : (len : ℤ) = min readSize b - offset) :
    writeFileLoop b (node :: rest) pos readSize ⟨stored, true⟩ =
      writeFileLoop b rest (pos + len) (readSize - len) ⟨stored ++ node.load offset len, true⟩ := by
  rw [writeFileLoop, if_pos hleft]
  dsimp only
  rw [hpos, Int.toNat_natCast, toInt32_of_lt hoffset, min_readSize, ← hlen, OutFile.write_part (by omega)]
  rfl

/-- Without bytes left the loop does nothing. -/
theorem writeFileLoop_done (nodes : List Node) (pos : ℤ) (ofs : OutFile) :
    writeFileLoop b nodes pos 0 ofs = .ok ofs := by
  cases nodes <;> rfl

/-- From the beginning of a node on, the loop writes all the bytes left. -/
theorem writeFileLoop_aligned (h : Uniform b nodes) {pos : ℤ} (hpos : (b : ℤ) ∣ pos) {readSize : ℕ}
    (hfit : readSize ≤ nodes.length * b) :
    writeFileLoop b nodes pos readSize ⟨stored, true⟩ =
      .ok ⟨stored ++ (memory nodes).take readSize, true⟩ := by
  induction nodes generalizing pos readSize stored with
  | nil =>
    obtain rfl : readSize = 0 := by simpa using hfit
    rw [List.take_zero, List.append_nil]
    exact writeFileLoop_done _ _ _
  | cons node rest ih =>
    have hnode : node.size = b := h node List.mem_cons_self
    have hrest : Uniform b rest := fun x hx => h x (List.mem_cons_of_mem _ hx)
    have hptr : node.ptr.length = b := node.length_ptr.trans hnode
    rw [List.length_cons, Nat.succ_mul] at hfit
    rcases Nat.eq_zero_or_pos readSize with rfl | hleft
    · rw [List.take_zero, List.append_nil]
      exact writeFileLoop_done _ _ _
    · have hmod : pos % b = (0 : ℕ) := Int.emod_eq_zero_of_dvd hpos
      have hload : node.load 0 (min readSize b) = node.ptr.take readSize := by
        rw [Node.load, List.drop_zero, ← hptr]
        exact List.take_eq_take_min.symm
      rw [writeFileLoop_part hnode (min readSize b) hmod (by decide) (by omega) (by omega), hload, memory_cons,
        List.take_append, hptr, ← List.append_assoc]
      rcases Nat.le_total readSize b with hlast | hmore
      · rw [Nat.min_eq_left hlast, Int.sub_self, Nat.sub_eq_zero_of_le hlast, List.take_zero, List.append_nil]
        exact writeFileLoop_done _ _ _
      · rw [Nat.min_eq_right hmore, ← Int.ofNat_sub hmore]
        exact ih hrest (Int.dvd_add hpos (Int.dvd_refl _)) (by omega)

/-- When the bytes left fill a node, the loop writes them all. -/
theorem writeFileLoop_full (h : Uniform b nodes) {pos readSize : ℕ} (hoffset : pos % b < 2 ^ 31)
    (hb : 0 < b) (hfull : b ≤ readSize) (hfit : pos % b + readSize ≤ nodes.length * b) :
    writeFileLoop b nodes pos readSize ⟨stored, true⟩ =
      .ok ⟨stored ++ ((memory nodes).drop (pos % b)).take readSize, true⟩ := by
  have hmod := Nat.mod_lt pos hb
  cases nodes with
  | nil =>
    rw [List.length_nil, Nat.zero_mul] at hfit
    omega
  | cons node rest =>
    have hnode : node.size = b := h node List.mem_cons_self
    have hrest : Uniform b rest := fun x hx => h x (List.mem_cons_of_mem _ hx)
    have hptr : node.ptr.length = b := node.length_ptr.trans hnode
    rw [List.length_cons, Nat.succ_mul] at hfit
    have hnext : (b : ℤ) ∣ (pos : ℤ) + (b - pos % b : ℕ) := by
      refine Int.ofNat_dvd.mpr ⟨pos / b + 1, ?_⟩
      have hdiv := Nat.div_add_mod pos b
      rw [Nat.mul_add, Nat.mul_one]
      omega
    have hload : node.load (pos % b) (b - pos % b) = node.ptr.drop (pos % b) := by
      rw [Node.load, ← hptr, ← List.length_drop, List.take_length]
    have hall : (node.ptr.drop (pos % b)).take readSize = node.ptr.drop (pos % b) := by
      refine List.take_of_length_le ?_
      rw [List.length_drop]
      omega
    rw [writeFileLoop_part hnode (b - pos % b) (by rfl) hoffset (by omega) (by omega), hload,
      ← Int.ofNat_sub (by omega), writeFileLoop_aligned hrest hnext (by omega), memory_cons,
      List.drop_append_of_le_length (by omega), List.take_append, List.length_drop, hptr, hall,
      List.append_assoc]

/-- An offset of 32 bits that does not fit 31 bits points in front of the node. -/
theorem writeFileLoop_negative {pos readSize : ℤ} {offset : ℕ} (hpos : pos % b = offset)
    (hoffset : 2 ^ 31 ≤ offset) (hsmall : offset < 2 ^ 32) (hleft : 0 < readSize) (ofs : OutFile) :
    ∃ fault, writeFileLoop b nodes pos readSize ofs = .error fault := by
  cases nodes with
  | nil =>
    rw [writeFileLoop, if_pos hleft]
    exact ⟨_, rfl⟩
  | cons node rest =>
    rw [writeFileLoop, if_pos hleft]
    dsimp only
    rw [hpos, Int.toNat_natCast, OutFile.write, if_pos (Or.inl (toInt32_neg hoffset hsmall))]
    exact ⟨_, rfl⟩

/-- Elsewhere offset and remaining length change places in every round, and the loop runs off the chain. -/
theorem writeFileLoop_swaps (h : Uniform b nodes) {pos readSize : ℤ} {offset : ℕ} (hpos : pos % b = offset)
    (hoffset : 0 < offset) (hsmall : offset < 2 ^ 32) (hleft : 0 < readSize) (hless : readSize < b)
    (hshort : readSize < 2 ^ 32) (ofs : OutFile) :
    ∃ fault, writeFileLoop b nodes pos readSize ofs = .error fault := by
  induction nodes generalizing pos readSize offset ofs with
  | nil =>
    rw [writeFileLoop, if_pos hleft]
    exact ⟨_, rfl⟩
  | cons node rest ih =>
    have hrest : Uniform b rest := fun x hx => h x (List.mem_cons_of_mem _ hx)
    rcases Nat.lt_or_ge offset (2 ^ 31) with hfits | hnegative
    · rw [writeFileLoop, if_pos hleft]
      dsimp only
      rw [hpos, Int.toNat_natCast, min_readSize, min_eq_left hless.le, toInt32_of_lt hfits]
      cases hwrite : ofs.write node offset (readSize - offset) with
      | error fault => exact ⟨fault, rfl⟩
      | ok ofs' =>
        have hnext : (pos + (readSize - offset)) % b = readSize.toNat := by
          have hdiv := Int.mul_ediv_add_emod pos b
          rw [hpos] at hdiv
          have hsum : pos + (readSize - offset) = readSize + b * (pos / b) := by omega
          rw [hsum, Int.add_mul_emod_self_left, Int.emod_eq_of_lt hleft.le hless]
          omega
        have hoffset' : (offset : ℤ) < b := by
          rw [← hpos]
          exact Int.emod_lt_of_pos _ (by omega)
        have hswapped : readSize - (readSize - offset) = offset := by omega
        obtain ⟨fault, hfault⟩ := ih hrest hnext (by omega) (by omega) (by omega) hoffset' (by omega) ofs'
        refine ⟨fault, ?_⟩
        rw [hswapped]
        exact hfault
    · exact writeFileLoop_negative hpos hnegative hsmall hleft ofs

/-- `readFromFile` writes the whole file in blocks, when there are enough rounds. -/
theorem readFileLoop_returns (hb : 1 ≤ b) (fresh : ByteArray → ℕ → ℕ → UInt8) {rounds : ℕ} {file : List UInt8}
    (hrounds : file.length < rounds) (h : Inv b a) :
    ∃ a', (readFileLoop fresh b rounds file).Returns a true a' ∧ Inv b a' ∧
      a'.contents = a.contents.overwrite a.position file ∧ a'.position = a.position + file.length ∧
      a'.size = max a.size (a.position + file.length) := by
  induction rounds generalizing file a with
  | zero => exact absurd hrounds (Nat.not_lt_zero _)
  | succ rounds ih =>
    obtain ⟨a₁, hput, hinv₁, hrep, hsize⟩ := h.write hb (file.take b) (fresh a)
    have hpos : a₁.position = a.position + (file.take b).length := hrep.2.symm
    have hcontents : a₁.contents = a.contents.overwrite a.position (file.take b) := hrep.1.symm
    have hreturns : (put fresh (file.take b)).Returns a () a₁ := Effect.returns_of.mpr hput
    unfold readFileLoop
    by_cases hlast : file.length < b
    · rw [List.take_of_length_le hlast.le] at hpos hcontents hsize
      refine ⟨a₁, Effect.returns_bind.mpr ⟨(), a₁, hreturns, ?_⟩, hinv₁, hcontents, hpos, hsize⟩
      rw [if_pos hlast]
      exact Effect.returns_pure.mpr ⟨rfl, rfl⟩
    · have hrest : (file.drop b).length < rounds := by
        rw [List.length_drop]
        omega
      obtain ⟨a₂, hloop, hinv₂, hcontents₂, hpos₂, hsize₂⟩ := ih hrest hinv₁
      have hend : a.position ≤ a.contents.length := by
        rw [h.length_contents]
        exact h.position_le
      have htake : (file.take b).length = b := by
        rw [List.length_take]
        omega
      rw [htake] at hpos hsize
      rw [hpos, List.length_drop] at hpos₂ hsize₂
      refine ⟨a₂, Effect.returns_bind.mpr ⟨(), a₁, hreturns, ?_⟩, hinv₂, ?_, by omega, by omega⟩
      · rw [if_neg hlast]
        exact hloop
      · have happend : (a.contents.overwrite a.position (file.take b)).overwrite
            (a.position + (file.take b).length) (file.drop b) = _ := List.overwrite_overwrite hend
        rw [htake, List.take_append_drop] at happend
        rw [hcontents₂, hcontents, hpos, happend]

/-- `writeToFile` stores the unread bytes when the cursor and the bytes line up with the nodes. -/
theorem Inv.writeToFile (h : Inv b a) (hb : 1 ≤ b) (hlines : LinesUp a) :
    a.writeToFile true = .ok (some (a.contents.drop a.position)) := by
  have hpos := h.position_le
  have hle := h.size_le
  have hunread : a.getReadSize = a.size - a.position := rfl
  have hall : a.contents.drop a.position = (a.contents.drop a.position).take a.getReadSize := by
    refine (List.take_of_length_le ?_).symm
    rw [List.length_drop, h.length_contents, hunread]
  unfold LinesUp at hlines
  rw [h.baseSize] at hlines
  unfold ByteArray.writeToFile
  rw [if_neg (by simp), h.baseSize]
  rcases Nat.eq_zero_or_pos a.getReadSize with hzero | hleft
  · rw [hall, hzero, List.take_zero]
    exact congrArg (Except.map _) (writeFileLoop_done a.fromCurr a.position ⟨[], true⟩)
  · obtain ⟨hfrom, _⟩ := h.curr_eq (by omega)
    have hroom : a.position % b + a.getReadSize ≤ (a.nodes.drop (a.position / b)).length * b :=
      h.room (by omega)
    rw [hall, ← h.take_drop_contents hb (by omega) hunread.le, hfrom]
    rcases hlines with hzero | haligned | ⟨hfull, hoffset⟩
    · omega
    · have hdvd : (b : ℤ) ∣ (a.position : ℤ) := Int.ofNat_dvd.mpr (Nat.dvd_of_mod_eq_zero haligned)
      rw [writeFileLoop_aligned (h.uniform_drop _) hdvd (by omega), haligned]
      rfl
    · rw [writeFileLoop_full (h.uniform_drop _) hoffset hb hfull hroom]
      rfl

/-- `writeToFile` does not return when the cursor and the bytes do not line up with the nodes. -/
theorem Inv.writeToFile_fault (h : Inv b a) (hlines : ¬ LinesUp a) (hoffset : a.position % b < 2 ^ 32)
    (hunread : a.getReadSize < 2 ^ 32) : ∃ fault, a.writeToFile true = .error fault := by
  have hpos := h.position_le
  have hle := h.size_le
  have hsize : a.getReadSize = a.size - a.position := rfl
  unfold LinesUp at hlines
  rw [h.baseSize] at hlines
  push Not at hlines
  obtain ⟨hleft, hinside, hshort⟩ := hlines
  obtain ⟨hfrom, _⟩ := h.curr_eq (by omega)
  have hloop : ∃ fault, writeFileLoop b a.fromCurr a.position a.getReadSize ⟨[], true⟩ = .error fault := by
    rcases Nat.lt_or_ge a.getReadSize b with hless | hfull
    · exact writeFileLoop_swaps (hfrom ▸ h.uniform_drop _) (Int.natCast_mod _ _).symm (Nat.pos_of_ne_zero hinside)
        hoffset (by omega) (by omega) (by omega) _
    · exact writeFileLoop_negative (Int.natCast_mod _ _).symm (hshort hfull) hoffset (by omega) _
  obtain ⟨fault, hfault⟩ := hloop
  unfold ByteArray.writeToFile
  rw [if_neg (by simp), h.baseSize, hfault]
  exact ⟨fault, rfl⟩

/-- `readFromFile` writes the content of the file. -/
theorem Inv.readFromFile (h : Inv b a) (hb : 1 ≤ b) (fresh : ByteArray → ℕ → ℕ → UInt8) {rounds : ℕ}
    {bytes : List UInt8} (hrounds : bytes.length < rounds) :
    ∃ a', (readFromFile fresh rounds (some bytes)).Returns a (some true) a' ∧
      a'.contents = a.contents.overwrite a.position bytes ∧ a'.position = a.position + bytes.length ∧
      a'.size = max a.size (a.position + bytes.length) := by
  obtain ⟨a', hloop, _, hresult⟩ := readFileLoop_returns hb fresh hrounds h
  refine ⟨a', ?_, hresult⟩
  rw [← h.baseSize] at hloop
  exact Effect.returns_map.mpr ⟨true, hloop, rfl⟩

/-- In every reached state the unread bytes are copied to a file and from there into any other array, provided
that cursor and bytes line up with the nodes. Where they do not, they are not copied, as far as the offset of
the cursor in its node and the number of unread bytes fit 32 bits. -/
theorem copiedByFile_iff (hb : 1 ≤ b) (content : ℕ → UInt8)
    (h : Runs.Reaches step (fun _ _ => True) (new b content) a) :
    (LinesUp a → CopiedByFile a) ∧
      (a.position % b < 2 ^ 32 → a.getReadSize < 2 ^ 32 → (CopiedByFile a ↔ LinesUp a)) := by
  have hinv := inv_of_reaches hb content h
  have hcopied : LinesUp a → CopiedByFile a := by
    intro hlines
    refine ⟨hinv.writeToFile hb hlines, fun b' hb' content' other hother fresh rounds hrounds => ?_⟩
    exact (inv_of_reaches hb' content' hother).readFromFile hb' fresh hrounds
  refine ⟨hcopied, fun hoffset hunread => ⟨fun hcopy => ?_, hcopied⟩⟩
  by_contra hlines
  obtain ⟨fault, hfault⟩ := hinv.writeToFile_fault hlines hoffset hunread
  have hboth := hcopy.1.symm.trans hfault
  cases hboth

/-- With the cursor at the start of the node the bytes are copied. -/
theorem copiedByFile_fourBytes : ∃ a, Runs.Reaches step (fun _ _ => True) (new 4 fun _ => 0) a ∧
    a.contents = [1, 2, 3, 4] ∧ CopiedByFile a := by
  have hwrite : Runs.Reaches step (fun _ _ => True) (new 4 fun _ => 0) _ :=
    .next .start (.write [1, 2, 3, 4] fun _ _ => 0) trivial rfl
  have hseek := hwrite.next (.setPosition 0) trivial rfl
  exact ⟨_, hseek, rfl, (copiedByFile_iff (by decide) _ hseek).1 (Or.inr (Or.inl rfl))⟩

/-- With the cursor behind the first of four bytes, the loop runs off the chain. -/
theorem not_copiedByFile_threeBytes : ∃ a, Runs.Reaches step (fun _ _ => True) (new 4 fun _ => 0) a ∧
    a.contents.drop a.position = [2, 3, 4] ∧ ¬ CopiedByFile a := by
  have hwrite : Runs.Reaches step (fun _ _ => True) (new 4 fun _ => 0) _ :=
    .next .start (.write [1, 2, 3, 4] fun _ _ => 0) trivial rfl
  have hseek := hwrite.next (.setPosition 1) trivial rfl
  refine ⟨_, hseek, rfl, fun hcopy => ?_⟩
  have hfault : Except.error FileFault.nullNode = Except.ok _ := hcopy.1
  cases hfault

end ByteArray

end Bobliew
