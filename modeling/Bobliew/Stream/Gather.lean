import Bobliew.ByteArray.Positional
import Bobliew.Stream.SocketStream

/-!
# Buffers instead of copies

A socket does not copy through `write` and `read`: it is given the buffers of a byte array and the position is
moved afterwards by the number of bytes transferred. The buffers are ranges of the nodes from the position on,
one for each node, so storing into them overwrites the memory of the chain from the position on. A short
transfer uses the first buffers only.
-/

namespace Bobliew

namespace ByteArray

/-- The buffers are ranges of single nodes, none of them empty and no two of them overlapping. -/
structure Covers (nodes : List Node) (total : ℕ) (iovs : List IoVec) : Prop where
  inside : ∀ iov ∈ iovs, ∃ node, nodes[iov.node]? = some node ∧ iov.offset + iov.len ≤ node.size
  nonempty : ∀ iov ∈ iovs, 0 < iov.len
  disjoint : iovs.Pairwise fun iov other =>
    iov.node ≠ other.node ∨ iov.offset + iov.len ≤ other.offset ∨ other.offset + other.len ≤ iov.offset
  total : (iovs.map IoVec.len).sum = total

/-- Store bytes into the buffers that `getWriteBuffers` returns. -/
def fill (a : ByteArray) (len : ℕ) (memory : ℕ → ℕ → UInt8) (got : List UInt8) :
    Except ByteArrayFault ByteArray :=
  match a.getWriteBuffers len memory with
  | (_, .error fault) => .error fault
  | (a, .ok (iovs, _)) => .ok { a with nodes := Stream.scatter a.nodes iovs got }

/-- An operation on the array, or a transfer into its buffers. -/
inductive Transfer where
  | op (op : Op)
  | fill (len : ℕ) (memory : ℕ → ℕ → UInt8) (got : List UInt8)

/-- A transfer stores at most as many bytes as the buffers take. -/
def Transfer.Fits (_ : ByteArray) : Transfer → Prop
  | .op _ => True
  | .fill len _ got => got.length ≤ len

/-- Perform one operation or transfer. -/
def transfer (a : ByteArray) : Transfer → Except ByteArrayFault ByteArray
  | .op op => a.step op
  | .fill len memory got => a.fill len memory got

variable {b npos len index : ℕ} {nodes before : List Node} {iovs : List IoVec} {got : List UInt8}
  {a a' : ByteArray}

/-- The buffers lie in nodes from the given index on, in increasing order, and have the total length asked
for. -/
theorem buffersLoop_shape (hb : 0 < b) (h : Uniform b nodes) (hnpos : npos < b) (hlen : 0 < len)
    (hok : buffersLoop nodes index npos len = .ok iovs) :
    (∀ iov ∈ iovs, index ≤ iov.node ∧ 0 < iov.len) ∧ iovs.Pairwise (fun iov other => iov.node < other.node) ∧
      (iovs.map IoVec.len).sum = len := by
  induction nodes generalizing index npos len iovs with
  | nil => cases hok
  | cons node rest ih =>
    have hnode : node.size = b := h node List.mem_cons_self
    have hrest : Uniform b rest := fun x hx => h x (List.mem_cons_of_mem _ hx)
    unfold buffersLoop at hok
    rw [if_neg (by omega), hnode] at hok
    by_cases hlast : len ≤ b - npos
    · rw [if_pos hlast] at hok
      cases hok
      refine ⟨fun iov hiov => ?_, List.pairwise_singleton _ _, by simp⟩
      rw [List.mem_singleton.mp hiov]
      exact ⟨Nat.le_refl index, hlen⟩
    · rw [if_neg hlast] at hok
      obtain ⟨more, hmore, hcons⟩ := Except.exists_of_map_eq_ok hok
      cases hcons
      obtain ⟨hall, hincreasing, htotal⟩ := ih hrest hb (by omega) hmore
      refine ⟨fun iov hiov => ?_, List.pairwise_cons.mpr ⟨fun iov hiov => ?_, hincreasing⟩, ?_⟩
      · rcases List.mem_cons.mp hiov with rfl | hiov
        · exact ⟨Nat.le_refl index, by change 0 < b - npos; omega⟩
        · exact ⟨by have := (hall iov hiov).1; omega, (hall iov hiov).2⟩
      · exact (hall iov hiov).1
      · rw [List.map_cons, List.sum_cons, htotal]
        change b - npos + (len - (b - npos)) = len
        omega

/-- Storing into the first buffer changes the node it lies in. -/
theorem scatter_cons (before : List Node) (node : Node) (rest : List Node) (offset n : ℕ) (iovs : List IoVec)
    (got : List UInt8) :
    Stream.scatter (before ++ node :: rest) (⟨before.length, offset, n⟩ :: iovs) got =
      Stream.scatter (before ++ node.store offset (got.take n) :: rest) iovs (got.drop n) := by
  rw [Stream.scatter]
  congr 1
  induction before with
  | nil => rfl
  | cons first before ih => exact congrArg (first :: ·) ih

/-- Storing into the buffers overwrites the memory from the offset on. -/
theorem scatter_buffersLoop (hb : 0 < b) (h : Uniform b nodes) (hnpos : npos < b) (hgot : got.length ≤ len)
    (hlen : 0 < len) (hok : buffersLoop nodes before.length npos len = .ok iovs) :
    ∃ nodes', Stream.scatter (before ++ nodes) iovs got = before ++ nodes' ∧ nodes'.length = nodes.length ∧
      Uniform b nodes' ∧ memory nodes' = (memory nodes).overwrite npos got := by
  induction nodes generalizing before npos len iovs got with
  | nil => cases hok
  | cons node rest ih =>
    have hnode : node.size = b := h node List.mem_cons_self
    have hrest : Uniform b rest := fun x hx => h x (List.mem_cons_of_mem _ hx)
    have hptr : node.ptr.length = b := node.length_ptr.trans hnode
    have hcons : ∀ {rest' : List Node}, Uniform b rest' → ∀ data : List UInt8,
        Uniform b (node.store npos data :: rest') := by
      intro rest' hrest' data x hx
      rcases List.mem_cons.mp hx with rfl | hx
      · exact hnode
      · exact hrest' x hx
    unfold buffersLoop at hok
    rw [if_neg (by omega), hnode] at hok
    by_cases hlast : len ≤ b - npos
    · rw [if_pos hlast] at hok
      cases hok
      refine ⟨node.store npos got :: rest, ?_, rfl, hcons hrest got, ?_⟩
      · rw [scatter_cons, List.take_of_length_le hgot]
        rfl
      · rw [memory_cons, memory_cons, Node.ptr_store (by omega), List.overwrite_append_left (by omega)]
    · rw [if_neg hlast] at hok
      obtain ⟨more, hmore, hfirst⟩ := Except.exists_of_map_eq_ok hok
      cases hfirst
      have hindex : (before ++ [node.store npos (got.take (b - npos))]).length = before.length + 1 := by simp
      rw [← hindex] at hmore
      have hleft : (got.drop (b - npos)).length ≤ len - (b - npos) := by
        rw [List.length_drop]
        omega
      obtain ⟨rest', hscatter, hlength, huniform, hmemory⟩ := ih hrest hb hleft (by omega) hmore
      refine ⟨node.store npos (got.take (b - npos)) :: rest', ?_, by simp [hlength], hcons huniform _, ?_⟩
      · rw [scatter_cons]
        simpa using hscatter
      · rw [memory_cons, memory_cons, hmemory, Node.ptr_store (by rw [List.length_take]; omega)]
        rcases Nat.lt_or_ge got.length (b - npos) with hshort | hlong
        · rw [List.take_of_length_le hshort.le, List.drop_of_length_le hshort.le,
            List.overwrite_nil (Nat.zero_le _), List.overwrite_append_left (by omega)]
        · rw [List.overwrite_append_split (by omega) (by omega), hptr]

/-- The buffers of `getReadBuffers` and `getWriteBuffers` cover their length. -/
theorem Inv.covers (h : Inv b a) (hb : 0 < b) (hlen : 0 < len) (hroom : a.position + len ≤ a.capacity)
    (hok : buffersLoop a.fromCurr a.currIndex (a.position % a.baseSize) len = .ok iovs) :
    Covers a.nodes len iovs := by
  obtain ⟨iovs', hok', _, hranges⟩ := h.buffers hb hlen hroom
  obtain rfl : iovs = iovs' := Except.ok.inj (hok.symm.trans hok')
  obtain ⟨hfrom, hindex⟩ := h.curr_eq (by omega)
  rw [hfrom, hindex, h.baseSize] at hok
  obtain ⟨hall, hincreasing, htotal⟩ :=
    buffersLoop_shape hb (h.uniform_drop _) (Nat.mod_lt a.position hb) hlen hok
  refine ⟨fun iov hiov => ?_, fun iov hiov => (hall iov hiov).2, ?_, htotal⟩
  · obtain ⟨hnode, hrange⟩ := hranges iov hiov
    have hmem : a.nodes[iov.node] ∈ a.nodes := List.getElem_mem hnode
    refine ⟨a.nodes[iov.node], List.getElem?_eq_getElem hnode, ?_⟩
    rwa [h.uniform _ hmem]
  · exact hincreasing.imp fun hlt => Or.inl (Nat.ne_of_lt hlt)

/-- Buffers of no bytes. -/
theorem Covers.nil (nodes : List Node) : Covers nodes 0 [] where
  inside := fun _ hiov => (List.not_mem_nil hiov).elim
  nonempty := fun _ hiov => (List.not_mem_nil hiov).elim
  disjoint := List.Pairwise.nil
  total := rfl

/-- Storing into the buffers keeps the invariant and overwrites the memory from the position on. -/
theorem Inv.scatter (h : Inv b a) (hb : 0 < b) (hlen : 0 < len) (hroom : a.position + len ≤ a.capacity)
    (hgot : got.length ≤ len)
    (hok : buffersLoop a.fromCurr a.currIndex (a.position % a.baseSize) len = .ok iovs) :
    Inv b { a with nodes := Stream.scatter a.nodes iovs got } ∧
      memory (Stream.scatter a.nodes iovs got) = (memory a.nodes).overwrite a.position got := by
  have hlt : a.position < a.capacity := by omega
  obtain ⟨hfrom, hindex⟩ := h.curr_eq hlt
  obtain ⟨hnode, hbefore, hmemory⟩ := h.split_memory hb hlt
  have hcount : (a.nodes.take (a.position / b)).length = a.position / b := by
    rw [List.length_take]
    omega
  rw [hfrom, hindex, h.baseSize] at hok
  nth_rewrite 2 [← hcount] at hok
  obtain ⟨nodes', hscatter, hlength, huniform, hwritten⟩ :=
    scatter_buffersLoop hb (h.uniform_drop _) (Nat.mod_lt a.position hb) hgot hlen hok
  rw [List.take_append_drop] at hscatter
  have htotal : (Stream.scatter a.nodes iovs got).length = a.nodes.length := by
    rw [hscatter, List.length_append, hlength, ← List.length_append, List.take_append_drop]
  refine ⟨{ h with nodes := ?_, uniform := ?_, capacity := ?_ }, ?_⟩
  · change 1 ≤ (Stream.scatter a.nodes iovs got).length
    rw [htotal]
    exact h.nodes
  · intro node hmem
    change node ∈ Stream.scatter a.nodes iovs got at hmem
    rw [hscatter] at hmem
    rcases List.mem_append.mp hmem with hleft | hright
    · exact h.uniform node (List.mem_of_mem_take hleft)
    · exact huniform node hright
  · change a.capacity = (Stream.scatter a.nodes iovs got).length * b
    rw [htotal]
    exact h.capacity
  · rw [hscatter, memory_append, hwritten, ← List.overwrite_append_right, hbefore, position_split, ← hmemory]

/-- The buffers of `getWriteBuffers`, and the array after storing into them. -/
theorem Inv.fill (h : Inv b a) (hb : 0 < b) (len : ℕ) (fresh : ℕ → ℕ → UInt8) :
    ∃ a' iovs, a.getWriteBuffers len fresh = (a', .ok (iovs, len)) ∧ Covers a'.nodes len iovs ∧
      a'.position = a.position ∧ a'.size = a.size ∧ a'.contents = a.contents ∧ ∀ got : List UInt8,
        got.length ≤ len → Inv b { a' with nodes := Stream.scatter a'.nodes iovs got } ∧
          a'.position + got.length ≤ a'.capacity ∧
          memory (Stream.scatter a'.nodes iovs got) = (memory a'.nodes).overwrite a'.position got := by
  unfold ByteArray.getWriteBuffers
  have hpos := h.position_le
  have hsize := h.size_le
  by_cases hzero : len = 0
  · refine ⟨a, [], by rw [if_pos hzero, hzero], hzero ▸ Covers.nil a.nodes, rfl, rfl, rfl, fun got hgot => ?_⟩
    obtain rfl : got = [] := List.length_eq_zero_iff.mp (by omega)
    have hend : a.position ≤ (memory a.nodes).length := by
      rw [h.uniform.length_memory, ← h.capacity]
      omega
    exact ⟨h, by simp only [List.length_nil]; omega, (List.overwrite_nil hend).symm⟩
  · obtain ⟨hg, hroom, hgpos, hgsize, hgcontents⟩ := h.addCapacity hb (Nat.pos_of_ne_zero hzero) fresh
    rw [if_neg hzero]
    rw [← hgpos] at hroom
    obtain ⟨iovs, hok, _⟩ := hg.buffers hb (Nat.pos_of_ne_zero hzero) hroom
    refine ⟨_, iovs, by dsimp only; rw [hok]; rfl, hg.covers hb (Nat.pos_of_ne_zero hzero) hroom hok, hgpos,
      hgsize, hgcontents, fun got hgot => ?_⟩
    obtain ⟨hinv, hmemory⟩ := hg.scatter hb (Nat.pos_of_ne_zero hzero) hroom hgot hok
    exact ⟨hinv, by omega, hmemory⟩

/-- `setPosition` leaves the nodes alone. -/
theorem setPosition_nodes (a : ByteArray) (v : ℕ) : (a.setPosition v).1.nodes = a.nodes := by
  unfold ByteArray.setPosition
  split
  · rfl
  · dsimp only
    split <;> rfl

/-- `read` leaves the nodes alone. -/
theorem read_nodes (a : ByteArray) (size : ℕ) : (a.read size).1.nodes = a.nodes := by
  unfold ByteArray.read
  split
  · rfl
  · split <;> rfl

/-- Under the invariant an array is given by its nodes, its position and its size. -/
theorem Inv.ext (h : Inv b a) (h' : Inv b a') (hnodes : a.nodes = a'.nodes)
    (hposition : a.position = a'.position) (hsize : a.size = a'.size) : a = a' := by
  have hbase : a.baseSize = a'.baseSize := h.baseSize.trans h'.baseSize.symm
  have hcapacity : a.capacity = a'.capacity := by rw [h.capacity, h'.capacity, hnodes]
  have hcurr : a.curr = a'.curr := by rw [h.curr, h'.curr, hposition, hcapacity]
  cases a
  cases a'
  simp only at hbase hcapacity hcurr hnodes hposition hsize
  simp only [ByteArray.mk.injEq]
  exact ⟨hposition, hbase, hsize, hcapacity, hnodes, hcurr⟩

/-- Moving the position of a filled array shows what `write` would have written. -/
theorem Inv.setPosition_fill (h : Inv b a) (hb : 0 < b) {stored : List Node}
    (hroom : a.position + got.length ≤ a.capacity) (hstored : Inv b { a with nodes := stored })
    (hmemory : memory stored = (memory a.nodes).overwrite a.position got) :
    ∃ moved, { a with nodes := stored }.setPosition (a.position + got.length) = (moved, .ok ()) ∧
      moved.contents = a.contents.overwrite a.position got ∧ moved.size = max a.size (a.position + got.length) ∧
      moved.position = a.position + got.length := by
  rcases hstored.setPosition hb (a.position + got.length) with ⟨hlt, _⟩ | ⟨_, moved, heq, hinv, hpos, hsize, _⟩
  · change a.capacity < a.position + got.length at hlt
    omega
  · have hnodes := setPosition_nodes { a with nodes := stored } (a.position + got.length)
    rw [heq] at hnodes
    refine ⟨moved, heq, ?_, hsize, hpos⟩
    have hend : a.size ≤ (memory a.nodes).length := by
      rw [h.uniform.length_memory, ← h.capacity]
      exact h.size_le
    unfold contents
    rw [hnodes, hsize]
    change (memory stored).take (max a.size (a.position + got.length)) = _
    rw [hmemory, List.take_overwrite h.position_le hend]

/-- Storing into the buffers and moving the position on is writing. -/
theorem Inv.fill_eq_write (h : Inv b a) (hb : 0 < b) (len : ℕ) (fresh : ℕ → ℕ → UInt8) :
    ∃ a' iovs, a.getWriteBuffers len fresh = (a', .ok (iovs, len)) ∧ Covers a'.nodes len iovs ∧
      ∀ d : List UInt8, d.length ≤ len → ∀ fresh', ∃ moved written,
        { a' with nodes := Stream.scatter a'.nodes iovs d }.setPosition (a'.position + d.length) =
          (moved, .ok ()) ∧
        a.write d fresh' = (written, .ok ()) ∧ moved.contents = written.contents ∧
        moved.size = written.size ∧ moved.position = written.position := by
  obtain ⟨a', iovs, heq, hcovers, hpos, hsize, hcontents, hfill⟩ := h.fill hb len fresh
  have hinv' : Inv b a' := by
    obtain ⟨a'', _, heq', hinv, _⟩ := h.getWriteBuffers hb len fresh
    obtain rfl : a' = a'' := congrArg Prod.fst (heq.symm.trans heq')
    exact hinv
  refine ⟨a', iovs, heq, hcovers, fun d hd fresh' => ?_⟩
  obtain ⟨hstored, hroom, hmemory⟩ := hfill d hd
  obtain ⟨moved, hmoved, hmcontents, hmsize, hmpos⟩ := hinv'.setPosition_fill hb hroom hstored hmemory
  obtain ⟨written, hwritten, _, hrep, hwsize⟩ := h.write hb d fresh'
  refine ⟨moved, written, hmoved, hwritten, ?_, ?_, ?_⟩
  · rw [hmcontents, hcontents, hpos]
    exact hrep.1
  · rw [hmsize, hwsize, hsize, hpos]
  · rw [hmpos, hpos]
    exact hrep.2

/-- Taking bytes out of the buffers and moving the position on is reading. -/
theorem Inv.gather_eq_read (h : Inv b a) (hb : 0 < b) (len : ℕ) :
    ∃ iovs, a.getReadBuffers len = .ok (iovs, min len a.getReadSize) ∧
      Covers a.nodes (min len a.getReadSize) iovs ∧
      ∀ k, 1 ≤ k → k ≤ min len a.getReadSize → ∃ moved, a.setPosition (a.position + k) = (moved, .ok ()) ∧
        a.read k = (moved, .ok ((iovs.flatMap (bytesOf a.nodes)).take k)) := by
  obtain ⟨iovs, heq, hbytes, _⟩ := h.getReadBuffers hb len
  have hpos := h.position_le
  have hle := h.size_le
  have hunread : a.getReadSize = a.size - a.position := rfl
  rw [← hunread] at heq hbytes
  refine ⟨iovs, heq, ?_, fun k hk hfew => ?_⟩
  · have hmin : (if len > a.getReadSize then a.getReadSize else len) = min len a.getReadSize := by
      split <;> omega
    unfold ByteArray.getReadBuffers at heq
    rw [hmin] at heq
    dsimp only at heq
    by_cases hzero : min len a.getReadSize = 0
    · rw [if_pos hzero, hzero] at heq
      cases heq
      rw [hzero]
      exact Covers.nil a.nodes
    · rw [if_neg hzero] at heq
      obtain ⟨found, hok, hpair⟩ := Except.exists_of_map_eq_ok heq
      cases hpair
      exact h.covers hb (Nat.pos_of_ne_zero hzero) (by omega) hok
  · rcases h.setPosition hb (a.position + k) with ⟨hlt, _⟩ | ⟨_, moved, hmoved, hminv, hmpos, hmsize, _⟩
    · omega
    rcases h.read hb hk with ⟨hlt, _⟩ | ⟨_, a', bytes, flat', hflat, hread, hinv, hrep⟩
    · omega
    have hsize : a'.size = a.size := by
      have hframe := (read_frame a k).1
      rwa [hread] at hframe
    have hnodes : a'.nodes = moved.nodes := by
      have hread' := read_nodes a k
      have hmoved' := setPosition_nodes a (a.position + k)
      rw [hread] at hread'
      rw [hmoved] at hmoved'
      exact hread'.trans hmoved'.symm
    unfold FlatArray.read at hflat
    split at hflat
    · obtain ⟨rfl, rfl⟩ := Prod.mk.inj (Option.some.inj hflat)
      have hposition : a'.position = moved.position := by
        rw [hmpos]
        exact hrep.2.symm
      obtain rfl : a' = moved := hinv.ext hminv hnodes hposition (by omega)
      refine ⟨a', hmoved, ?_⟩
      rw [hread, hbytes, List.take_take, Nat.min_eq_left hfew]
      rfl
    · cases hflat

/-- `SocketStream::read` into an array writes what has been received. -/
theorem Inv.readArray_eq_write (h : Inv b a) (hb : 0 < b) (fresh : ByteArray → ℕ → ℕ → UInt8)
    {pieces rest : List (List UInt8)} (hgot : Http.readSome len pieces = some (got, rest)) :
    ∃ moved written, Stream.readArray fresh a len pieces = .ok ((got.length : ℤ), moved, rest) ∧
      a.write got (fresh a) = (written, .ok ()) ∧ moved.contents = written.contents ∧
      moved.size = written.size ∧ moved.position = written.position := by
  obtain ⟨a', iovs, heq, _, hfill⟩ := h.fill_eq_write hb len (fresh a)
  obtain ⟨moved, written, hmoved, hwritten, hsame⟩ := hfill got (Http.readSome_eq_some hgot).2 (fresh a)
  refine ⟨moved, written, ?_, hwritten, hsame⟩
  unfold Stream.readArray
  rw [heq]
  dsimp only
  rw [hgot]
  dsimp only
  rw [hmoved]
  rfl

/-- `SocketStream::write` from an array reads what has been taken by the socket. -/
theorem Inv.writeArray_eq_read (h : Inv b a) (hb : 0 < b) (socket : Stream.Socket) (len : ℕ)
    (sent : List (List UInt8)) :
    ∃ iovs, a.getReadBuffers len = .ok (iovs, min len a.getReadSize) ∧
      ∀ k : ℕ, 1 ≤ k → socket.answer sent (min len a.getReadSize) = k → ∃ moved bytes,
        Stream.writeArray socket a len sent = .ok ((k : ℤ), moved, sent ++ [bytes]) ∧
        a.read k = (moved, .ok bytes) := by
  obtain ⟨iovs, heq, _, hgather⟩ := h.gather_eq_read hb len
  refine ⟨iovs, heq, fun k hk hanswer => ?_⟩
  have hlength : (iovs.flatMap (bytesOf a.nodes)).length = min len a.getReadSize := by
    obtain ⟨_, heq', hbytes, _⟩ := h.getReadBuffers hb len
    obtain ⟨rfl, _⟩ := Prod.mk.inj (Except.ok.inj (heq.symm.trans heq'))
    have hcount := h.length_contents
    rw [hbytes, List.length_take, List.length_drop, hcount]
    unfold getReadSize
    omega
  have htaken : k ≤ min len a.getReadSize := by
    have hle := socket.answer_le sent (min len a.getReadSize)
    omega
  obtain ⟨moved, hmoved, hread⟩ := hgather k hk htaken
  refine ⟨moved, _, ?_, hread⟩
  unfold Stream.writeArray Stream.write
  rw [heq]
  dsimp only
  rw [hlength, hanswer, if_pos (by omega)]
  simp only [Int.toNat_natCast]
  rw [hmoved]
  rfl

/-- The invariant holds in every state reached by operations and transfers. -/
theorem inv_of_transfers (hb : 1 ≤ b) (content : ℕ → UInt8)
    (h : Runs.Reaches transfer Transfer.Fits (new b content) a) : Inv b a := by
  refine h.invariant (Inv b) (Inv.new hb content) fun s i s' hs hfits hok => ?_
  cases i with
  | op op => exact hs.of_step hb hok
  | fill len fresh got =>
    obtain ⟨a', iovs, heq, _, _, _, _, hfill⟩ := hs.fill hb len fresh
    unfold transfer ByteArray.fill at hok
    dsimp only at hok
    rw [heq] at hok
    cases hok
    exact (hfill got hfits).1

/-- In every state reached by operations and by transfers into the buffers: storing bytes into the buffers of
`getWriteBuffers` and moving the position on by their number gives the contents, the size and the position
that `write` gives, and taking bytes out of the buffers of `getReadBuffers` and moving the position on gives
the bytes and the array that `read` gives. None of the buffers is empty, no two overlap, and they have the
length asked for, when reading as far as there are unread bytes. -/
theorem buffers_agree_with_copying (hb : 1 ≤ b) (content : ℕ → UInt8)
    (h : Runs.Reaches transfer Transfer.Fits (new b content) a) (len : ℕ) (fresh : ℕ → ℕ → UInt8) :
    (∃ a' iovs, a.getWriteBuffers len fresh = (a', .ok (iovs, len)) ∧ Covers a'.nodes len iovs ∧
      ∀ d : List UInt8, d.length ≤ len → ∀ fresh', ∃ moved written,
        { a' with nodes := Stream.scatter a'.nodes iovs d }.setPosition (a'.position + d.length) =
          (moved, .ok ()) ∧
        a.write d fresh' = (written, .ok ()) ∧ moved.contents = written.contents ∧
        moved.size = written.size ∧ moved.position = written.position) ∧
    ∃ iovs, a.getReadBuffers len = .ok (iovs, min len a.getReadSize) ∧
      Covers a.nodes (min len a.getReadSize) iovs ∧
      ∀ k, 1 ≤ k → k ≤ min len a.getReadSize → ∃ moved, a.setPosition (a.position + k) = (moved, .ok ()) ∧
        a.read k = (moved, .ok ((iovs.flatMap (bytesOf a.nodes)).take k)) := by
  have hinv := inv_of_transfers hb content h
  exact ⟨hinv.fill_eq_write hb len fresh, hinv.gather_eq_read hb len⟩

/-- Three bytes stored into the buffers of an array with nodes of two bytes, one of them shown and read back.
-/
theorem buffers_agree_with_copying_threeBytes :
    ∃ a iovs, Runs.Reaches transfer Transfer.Fits (new 2 fun _ => 0) a ∧ a.getReadSize = 1 ∧
      a.getReadBuffers 3 = .ok (iovs, 1) ∧ iovs = [⟨0, 0, 1⟩] ∧
      ∃ moved, a.setPosition 1 = (moved, .ok ()) ∧ a.read 1 = (moved, .ok [7]) := by
  have hfill : Runs.Reaches transfer Transfer.Fits (new 2 fun _ => 0) _ :=
    .next .start (.fill 3 (fun _ _ => 0) [7, 8, 9]) (Nat.le_refl 3) rfl
  have hshown := hfill.next (.op (.setPosition 1)) trivial rfl
  have hback := hshown.next (.op (.setPosition 0)) trivial rfl
  obtain ⟨_, iovs, heq, _, hread⟩ := buffers_agree_with_copying (by decide) _ hback 3 fun _ _ => 0
  obtain ⟨rfl, _⟩ := Prod.mk.inj (Except.ok.inj heq)
  obtain ⟨moved, hmoved, hbytes⟩ := hread 1 (Nat.le_refl 1) (by decide)
  exact ⟨_, _, hback, rfl, heq, rfl, moved, hmoved, hbytes⟩

end ByteArray

end Bobliew
