import Bobliew.ByteArray.Chain

/-!
# The chain of nodes refines a flat array

The chain has at least one node, all nodes have the base size, and `m_curr` is the node of the
position. Under this invariant the memory of the chain is one list cut into blocks of the base size,
and each copy loop acts on it from the offset of the position inside the first block it is given.

Every operation keeps the invariant. On the visible part of the memory `write` and `read` are the
operations of a flat array with a cursor, and a failing `read` or `setPosition` changes nothing.
-/

namespace Bobliew

namespace ByteArray

variable {b npos : ℕ} {nodes : List Node} {a : ByteArray}

/-- The memory of a chain of nodes. -/
def memory (nodes : List Node) : List UInt8 := nodes.flatMap Node.ptr

/-- All nodes have the same size. -/
def Uniform (b : ℕ) (nodes : List Node) : Prop := ∀ node ∈ nodes, node.size = b

/-- The memory of a uniform chain. -/
theorem Uniform.length_memory (h : Uniform b nodes) : (memory nodes).length = nodes.length * b := by
  induction nodes with
  | nil => simp [memory]
  | cons node rest ih =>
    have hnode := h node List.mem_cons_self
    have hrest := ih fun x hx => h x (List.mem_cons_of_mem _ hx)
    simp only [memory, List.flatMap_cons, List.length_append, List.length_cons] at hrest ⊢
    rw [hrest, node.length_ptr, hnode, Nat.succ_mul, Nat.add_comm]

/-- A node's memory after a copy that fits. -/
theorem Node.ptr_store {node : Node} {data : List UInt8} (hfit : npos + data.length ≤ node.size) :
    (node.store npos data).ptr = node.ptr.overwrite npos data := by
  have hlength := node.length_ptr
  refine List.take_of_length_le ?_
  rw [List.length_overwrite (by omega)]
  omega

/-- The part of a list of memory that crosses from a node into the rest of the chain. -/
theorem memory_cons (node : Node) (rest : List Node) : memory (node :: rest) = node.ptr ++ memory rest :=
  rfl

/-- Moving on by whole nodes: the quotient of a position behind the first node. -/
theorem div_of_crossing {len : ℕ} (hb : 0 < b) (hnpos : npos < b) (hcross : b - npos < len) :
    (npos + len) / b = (0 + (len - (b - npos))) / b + 1 := by
  rw [← Nat.add_div_right _ hb]
  congr 1
  omega

/-- When a copy ends in the first node, it moves on exactly if it fills the node. -/
theorem div_of_fitting {len : ℕ} (hb : 0 < b) (hfit : npos + len ≤ b) :
    (npos + len) / b = if b = npos + len then 1 else 0 := by
  split
  · rename_i hfull
    rw [← hfull, Nat.div_self hb]
  · exact Nat.div_eq_of_lt (by omega)

/-- The loop of `write` overwrites the memory from the offset on and moves to the node of its end. -/
theorem writeLoop_spec (hb : 0 < b) (h : Uniform b nodes) (hnpos : npos < b) {buf : List UInt8}
    (hbuf : 0 < buf.length) (hfit : npos + buf.length ≤ nodes.length * b) :
    ∃ nodes', writeLoop nodes npos buf = .ok (nodes', (npos + buf.length) / b) ∧
      nodes'.length = nodes.length ∧ Uniform b nodes' ∧
      memory nodes' = (memory nodes).overwrite npos buf := by
  induction nodes generalizing npos buf with
  | nil =>
    simp only [List.length_nil, Nat.zero_mul] at hfit
    omega
  | cons node rest ih =>
    have hsize : node.size = b := h node List.mem_cons_self
    have hrest : Uniform b rest := fun x hx => h x (List.mem_cons_of_mem _ hx)
    have hptr : node.ptr.length = b := node.length_ptr.trans hsize
    unfold writeLoop
    rw [if_neg (by omega), hsize]
    by_cases hlast : buf.length ≤ b - npos
    · refine ⟨node.store npos buf :: rest, ?_, rfl, ?_, ?_⟩
      · rw [if_pos hlast, div_of_fitting hb (by omega)]
      · intro x hx
        rcases List.mem_cons.mp hx with rfl | hx
        · exact hsize
        · exact hrest x hx
      · rw [memory_cons, memory_cons, Node.ptr_store (by omega),
          List.overwrite_append_left (by omega)]
    · have hdrop : (buf.drop (b - npos)).length = buf.length - (b - npos) := List.length_drop
      have hbuf' : 0 < (buf.drop (b - npos)).length := by omega
      have hfit' : 0 + (buf.drop (b - npos)).length ≤ rest.length * b := by
        rw [List.length_cons, Nat.succ_mul] at hfit
        omega
      obtain ⟨rest', hloop, hlength, huniform, hmemory⟩ := ih hrest hb hbuf' hfit'
      refine ⟨node.store npos (buf.take (b - npos)) :: rest', ?_, by simp [hlength], ?_, ?_⟩
      · rw [if_neg hlast, hloop, hdrop, div_of_crossing hb hnpos (by omega)]
        rfl
      · intro x hx
        rcases List.mem_cons.mp hx with rfl | hx
        · exact hsize
        · exact huniform x hx
      · rw [memory_cons, memory_cons, hmemory, Node.ptr_store (by rw [List.length_take]; omega),
          List.overwrite_append_split (by omega) (by omega), hptr]

/-- The loop of `read` returns the memory from the offset on and moves to the node of its end. -/
theorem readLoop_spec (hb : 0 < b) (h : Uniform b nodes) (hnpos : npos < b) {size : ℕ}
    (hsize : 0 < size) (hfit : npos + size ≤ nodes.length * b) :
    readLoop nodes npos size = .ok (((memory nodes).drop npos).take size, (npos + size) / b) := by
  induction nodes generalizing npos size with
  | nil =>
    simp only [List.length_nil, Nat.zero_mul] at hfit
    omega
  | cons node rest ih =>
    have hnode : node.size = b := h node List.mem_cons_self
    have hrest : Uniform b rest := fun x hx => h x (List.mem_cons_of_mem _ hx)
    have hptr : node.ptr.length = b := node.length_ptr.trans hnode
    have hdrop : (memory (node :: rest)).drop npos = node.ptr.drop npos ++ memory rest := by
      rw [memory_cons, List.drop_append_of_le_length (by omega)]
    unfold readLoop
    rw [if_neg (by omega), hnode, hdrop, List.take_append, List.length_drop, hptr]
    by_cases hlast : size ≤ b - npos
    · rw [if_pos hlast, div_of_fitting hb (by omega), Nat.sub_eq_zero_of_le hlast]
      simp [Node.load]
    · rw [if_neg hlast, ih hrest hb (by omega) (by rw [List.length_cons, Nat.succ_mul] at hfit; omega),
        div_of_crossing hb hnpos (by omega)]
      have hall : (node.ptr.drop npos).take size = (node.ptr.drop npos).take (b - npos) := by
        rw [List.take_of_length_le (by rw [List.length_drop]; omega),
          List.take_of_length_le (by rw [List.length_drop]; omega)]
      rw [hall]
      rfl

/-- The walk of `setPosition` ends at the node of the position. -/
theorem walk_spec (hb : 0 < b) (h : Uniform b nodes) {v : ℕ} (hnodes : 1 ≤ nodes.length)
    (hv : v ≤ nodes.length * b) : walk nodes v = .ok (v / b) := by
  induction nodes generalizing v with
  | nil => simp at hnodes
  | cons node rest ih =>
    have hnode : node.size = b := h node List.mem_cons_self
    have hrest : Uniform b rest := fun x hx => h x (List.mem_cons_of_mem _ hx)
    rw [List.length_cons, Nat.succ_mul] at hv
    unfold walk
    rw [hnode]
    split
    · rename_i hgt
      have hlength : 1 ≤ rest.length := by
        rcases Nat.eq_zero_or_pos rest.length with hzero | hpos
        · rw [hzero] at hv
          omega
        · exact hpos
      rw [ih hrest hlength (by omega)]
      change Except.ok ((v - b) / b + 1) = _
      rw [← Nat.add_div_right _ hb, Nat.sub_add_cancel (by omega)]
    · rename_i hle
      have hdiv : (0 + v) / b = if b = 0 + v then 1 else 0 := div_of_fitting hb (by omega)
      rw [Nat.zero_add] at hdiv
      rw [hdiv]
      simp only [eq_comm]

/-- The bytes an `iovec` describes. -/
def bytesOf (nodes : List Node) (iov : IoVec) : List UInt8 :=
  match nodes[iov.node]? with
  | some node => node.load iov.offset iov.len
  | none => []

/-- The loop of `getReadBuffers` and `getWriteBuffers` covers the memory from the offset on, with
ranges inside single nodes. -/
theorem buffersLoop_spec (hb : 0 < b) {chain : List Node} {index : ℕ} (hchain : chain.drop index = nodes)
    (h : Uniform b nodes) (hnpos : npos < b) {len : ℕ} (hlen : 0 < len)
    (hfit : npos + len ≤ nodes.length * b) :
    ∃ buffers, buffersLoop nodes index npos len = .ok buffers ∧
      buffers.flatMap (bytesOf chain) = ((memory nodes).drop npos).take len ∧
      ∀ iov ∈ buffers, iov.node < chain.length ∧ iov.offset + iov.len ≤ b := by
  induction nodes generalizing npos len index with
  | nil =>
    simp only [List.length_nil, Nat.zero_mul] at hfit
    omega
  | cons node rest ih =>
    have hnode : node.size = b := h node List.mem_cons_self
    have hrest : Uniform b rest := fun x hx => h x (List.mem_cons_of_mem _ hx)
    have hptr : node.ptr.length = b := node.length_ptr.trans hnode
    have hget : chain[index]? = some node := by
      rw [← List.head?_drop, hchain]
      rfl
    have hindex : index < chain.length := (List.getElem?_eq_some_iff.mp hget).1
    have hdrop : (memory (node :: rest)).drop npos = node.ptr.drop npos ++ memory rest := by
      rw [memory_cons, List.drop_append_of_le_length (by omega)]
    unfold buffersLoop
    rw [if_neg (by omega), hnode, hdrop, List.take_append, List.length_drop, hptr]
    by_cases hlast : len ≤ b - npos
    · refine ⟨[⟨index, npos, len⟩], if_pos hlast, ?_, ?_⟩
      · rw [Nat.sub_eq_zero_of_le hlast]
        simp [bytesOf, hget, Node.load]
      · intro iov hiov
        rw [List.mem_singleton.mp hiov]
        exact ⟨hindex, by change npos + len ≤ b; omega⟩
    · have hchain' : chain.drop (index + 1) = rest := by
        rw [← List.tail_drop, hchain]
        rfl
      obtain ⟨buffers, hloop, hbytes, hranges⟩ := ih hchain' hrest hb
        (by omega : 0 < len - (b - npos)) (by rw [List.length_cons, Nat.succ_mul] at hfit; omega)
      refine ⟨⟨index, npos, b - npos⟩ :: buffers, by rw [if_neg hlast, hloop]; rfl, ?_, ?_⟩
      · have hall : (node.ptr.drop npos).take len = (node.ptr.drop npos).take (b - npos) := by
          rw [List.take_of_length_le (by rw [List.length_drop]; omega),
            List.take_of_length_le (by rw [List.length_drop]; omega)]
        rw [List.flatMap_cons, hbytes, hall, List.drop_zero]
        simp [bytesOf, hget, Node.load]
      · intro iov hiov
        rcases List.mem_cons.mp hiov with rfl | hiov
        · exact ⟨hindex, by change npos + (b - npos) ≤ b; omega⟩
        · exact hranges iov hiov

/-- The representation invariant for base size `b`. -/
structure Inv (b : ℕ) (a : ByteArray) : Prop where
  baseSize : a.baseSize = b
  nodes : 1 ≤ a.nodes.length
  uniform : Uniform b a.nodes
  capacity : a.capacity = a.nodes.length * b
  position_le : a.position ≤ a.size
  size_le : a.size ≤ a.capacity
  curr : a.curr = if a.position = a.capacity then none else some (a.position / b)

/-- The visible bytes. -/
def contents (a : ByteArray) : List UInt8 := (memory a.nodes).take a.size

/-- The flat array an array in a chain represents. -/
def Represents (a : ByteArray) (flat : FlatArray UInt8) : Prop :=
  flat.values = a.contents ∧ flat.position = a.position

/-- The number of visible bytes. -/
theorem Inv.length_contents (h : Inv b a) : a.contents.length = a.size := by
  rw [contents, List.length_take, h.uniform.length_memory, ← h.capacity]
  exact Nat.min_eq_left h.size_le

/-- The flat array represented under the invariant. -/
def Inv.flat (h : Inv b a) : FlatArray UInt8 :=
  ⟨a.contents, a.position, by rw [h.length_contents]; exact h.position_le⟩

/-- The pointer to the node of a position. -/
theorem pointer_div (hb : 0 < b) {p : ℕ} (hp : p ≤ nodes.length * b) :
    pointer nodes (p / b) = if p = nodes.length * b then none else some (p / b) := by
  have hlt : p / b < nodes.length ↔ p < nodes.length * b := Nat.div_lt_iff_lt_mul hb
  unfold pointer
  by_cases hend : p = nodes.length * b
  · rw [if_pos hend, if_neg (by rw [hlt]; omega)]
  · rw [if_neg hend, if_pos (by rw [hlt]; omega)]

/-- Before the end of the chain `m_curr` is not null. -/
theorem Inv.curr_eq (h : Inv b a) (hlt : a.position < a.capacity) :
    a.fromCurr = a.nodes.drop (a.position / b) ∧ a.currIndex = a.position / b := by
  have hcurr := h.curr
  rw [if_neg (by omega)] at hcurr
  simp [fromCurr, currIndex, hcurr]

/-- The memory before the node of an index. -/
theorem Uniform.length_memory_take (h : Uniform b nodes) {index : ℕ} (hindex : index ≤ nodes.length) :
    (memory (nodes.take index)).length = index * b := by
  have htake : Uniform b (nodes.take index) := fun x hx => h x (List.mem_of_mem_take hx)
  rw [htake.length_memory, List.length_take, Nat.min_eq_left hindex]

/-- The memory of a chain cut at a node. -/
theorem memory_append (left right : List Node) : memory (left ++ right) = memory left ++ memory right := by
  simp [memory]

/-- A new array satisfies the invariant. -/
theorem Inv.new (hb : 0 < b) (content : ℕ → UInt8) : Inv b (ByteArray.new b content) where
  baseSize := rfl
  nodes := Nat.le_refl 1
  uniform := by
    intro node hnode
    rw [List.mem_singleton.mp hnode]
    rfl
  capacity := (Nat.one_mul b).symm
  position_le := Nat.le_refl 0
  size_le := Nat.zero_le b
  curr := by
    change some 0 = if 0 = b then none else some (0 / b)
    rw [if_neg (by omega), Nat.zero_div]

/-- Rounding up to whole nodes leaves enough room. -/
theorem le_ceil_mul (hb : 0 < b) (n : ℕ) : n ≤ (n + b - 1) / b * b := by
  have hdiv := Nat.div_add_mod (n + b - 1) b
  have hmod := Nat.mod_lt (n + b - 1) hb
  rw [Nat.mul_comm] at hdiv
  omega

/-- `addCapacity` makes room behind the position and changes nothing else that is visible. -/
theorem Inv.addCapacity (h : Inv b a) (hb : 0 < b) {size : ℕ} (hsize : 0 < size)
    (fresh : ℕ → ℕ → UInt8) :
    Inv b (a.addCapacity size fresh) ∧ a.position + size ≤ (a.addCapacity size fresh).capacity ∧
      (a.addCapacity size fresh).position = a.position ∧ (a.addCapacity size fresh).size = a.size ∧
      (a.addCapacity size fresh).contents = a.contents := by
  have hpos := h.position_le
  have hcap := h.size_le
  unfold ByteArray.addCapacity getCapacity
  rw [if_neg (by omega)]
  dsimp only
  by_cases hroom : a.capacity - a.position ≥ size
  · rw [if_pos hroom]
    exact ⟨h, by omega, rfl, rfl, rfl⟩
  · rw [if_neg hroom, h.baseSize]
    have hceil := le_ceil_mul hb (size - (a.capacity - a.position))
    refine ⟨⟨rfl, ?_, ?_, ?_, h.position_le, ?_, ?_⟩, ?_, rfl, rfl, ?_⟩
    · exact Nat.le_trans h.nodes (by simp)
    · intro node hnode
      rcases List.mem_append.mp hnode with hold | hnew
      · exact h.uniform node hold
      · obtain ⟨i, _, rfl⟩ := List.mem_map.mp hnew
        rfl
    · simp only [h.capacity, List.length_append, List.length_map, List.length_range, Nat.add_mul]
    · exact Nat.le_trans h.size_le (Nat.le_add_right _ _)
    · have hbefore : ¬ a.position =
          a.capacity + (size - (a.capacity - a.position) + b - 1) / b * b := by omega
      dsimp only
      rw [if_neg hbefore]
      split
      · rename_i hfull
        have hend : a.position = a.nodes.length * b := by
          rw [← h.capacity]
          omega
        rw [hend, Nat.mul_div_cancel _ hb]
      · rename_i hfull
        rw [h.curr, if_neg (by omega)]
    · dsimp only
      omega
    · unfold contents
      dsimp only
      rw [memory_append, List.take_append_of_le_length]
      rw [h.uniform.length_memory, ← h.capacity]
      exact h.size_le

/-- The chain before the node of the position, and the offset inside that node. -/
theorem Inv.split_memory (h : Inv b a) (hb : 0 < b) (hlt : a.position < a.capacity) :
    a.position / b < a.nodes.length ∧ (memory (a.nodes.take (a.position / b))).length = a.position / b * b ∧
      memory a.nodes = memory (a.nodes.take (a.position / b)) ++ memory (a.nodes.drop (a.position / b)) := by
  have hindex : a.position / b < a.nodes.length := by
    rw [Nat.div_lt_iff_lt_mul hb, ← h.capacity]
    exact hlt
  refine ⟨hindex, h.uniform.length_memory_take (Nat.le_of_lt hindex), ?_⟩
  rw [← memory_append, List.take_append_drop]

/-- The position is the offset behind the whole nodes before it. -/
theorem position_split (a : ByteArray) (b : ℕ) : a.position / b * b + a.position % b = a.position := by
  rw [Nat.mul_comm]
  exact Nat.div_add_mod a.position b

/-- The room from the node of the position on. -/
theorem Inv.room (h : Inv b a) {n : ℕ} (hn : a.position + n ≤ a.capacity) :
    a.position % b + n ≤ (a.nodes.drop (a.position / b)).length * b := by
  have hsplit := position_split a b
  have hcapacity := h.capacity
  rw [List.length_drop, Nat.sub_mul]
  omega

/-- The nodes from that of the position on are uniform. -/
theorem Inv.uniform_drop (h : Inv b a) (n : ℕ) : Uniform b (a.nodes.drop n) :=
  fun x hx => h.uniform x (List.mem_of_mem_drop hx)

/-- Moving on by `n` bytes moves `m_curr` to the node of the new position. -/
theorem Inv.curr_advance (h : Inv b a) (hb : 0 < b) {n : ℕ} (hn : a.position + n ≤ a.capacity) :
    pointer a.nodes (a.position / b + (a.position % b + n) / b) =
      if a.position + n = a.capacity then none else some ((a.position + n) / b) := by
  have hdiv : a.position / b + (a.position % b + n) / b = (a.position + n) / b := by
    have hsplit := position_split a b
    rw [← Nat.mul_add_div hb, ← Nat.add_assoc, Nat.mul_comm b, hsplit]
  rw [hdiv, h.capacity]
  exact pointer_div hb (by rw [← h.capacity]; exact hn)

/-- `write` keeps the invariant and overwrites the flat array. -/
theorem Inv.write (h : Inv b a) (hb : 0 < b) (buf : List UInt8) (fresh : ℕ → ℕ → UInt8) :
    ∃ a', a.write buf fresh = (a', .ok ()) ∧ Inv b a' ∧ Represents a' (h.flat.write buf) ∧
      a'.size = max a.size (a.position + buf.length) := by
  have hpos := h.position_le
  unfold ByteArray.write
  by_cases hempty : buf.length = 0
  · rw [if_pos hempty]
    have hnil : buf = [] := List.length_eq_zero_iff.mp hempty
    refine ⟨a, rfl, h, ⟨?_, ?_⟩, by omega⟩
    · rw [hnil]
      exact List.overwrite_nil h.flat.position_le
    · rw [hnil]
      rfl
  · rw [if_neg hempty]
    obtain ⟨hg, hroom, hgpos, hgsize, hgcontents⟩ := h.addCapacity hb (Nat.pos_of_ne_zero hempty) fresh
    generalize a.addCapacity buf.length fresh = g at hg hroom hgpos hgsize hgcontents
    rw [← hgpos] at hroom
    have hlt : g.position < g.capacity := by omega
    obtain ⟨hfrom, hindex⟩ := hg.curr_eq hlt
    obtain ⟨hnode, hbefore, hmemory⟩ := hg.split_memory hb hlt
    obtain ⟨nodes', hloop, hlength, huniform, hwritten⟩ := writeLoop_spec hb (hg.uniform_drop _)
      (Nat.mod_lt g.position hb) (Nat.pos_of_ne_zero hempty) (hg.room hroom)
    dsimp only
    rw [hfrom, hindex, hg.baseSize, hloop]
    have hoverwritten : memory (g.nodes.take (g.position / b) ++ nodes') =
        (memory g.nodes).overwrite g.position buf := by
      rw [memory_append, hwritten, ← List.overwrite_append_right, hbefore, position_split, ← hmemory]
    have hcount : (g.nodes.take (g.position / b) ++ nodes').length = g.nodes.length := by
      rw [List.length_append, hlength, List.length_take, List.length_drop]
      omega
    have hsize : (if g.position + buf.length > g.size then g.position + buf.length else g.size) =
        max g.size (g.position + buf.length) := by
      split <;> omega
    have hle := hg.size_le
    rw [hsize]
    refine ⟨_, rfl, ⟨rfl, ?_, ?_, ?_, ?_, ?_, ?_⟩, ⟨?_, ?_⟩, by rw [hgsize, hgpos]⟩
    · rw [hcount]
      exact hg.nodes
    · intro node hmem
      rcases List.mem_append.mp hmem with hleft | hright
      · exact hg.uniform node (List.mem_of_mem_take hleft)
      · exact huniform node hright
    · rw [hcount]
      exact hg.capacity
    · exact Nat.le_max_right _ _
    · change max g.size (g.position + buf.length) ≤ g.capacity
      omega
    · exact hg.curr_advance hb hroom
    · change a.contents.overwrite a.position buf =
        (memory (g.nodes.take (g.position / b) ++ nodes')).take _
      rw [hoverwritten, List.take_overwrite hg.position_le, ← hgcontents, ← hgpos]
      · rfl
      · rw [hg.uniform.length_memory, ← hg.capacity]
        exact hg.size_le
    · change a.position + buf.length = g.position + buf.length
      rw [hgpos]

/-- A range of the visible bytes. -/
theorem Inv.take_drop_contents (h : Inv b a) (hb : 0 < b) (hlt : a.position < a.capacity) {n : ℕ}
    (hn : n ≤ a.size - a.position) :
    ((memory (a.nodes.drop (a.position / b))).drop (a.position % b)).take n =
      (a.contents.drop a.position).take n := by
  obtain ⟨_, hbefore, hmemory⟩ := h.split_memory hb hlt
  have hsplit := position_split a b
  have hnone : (memory (a.nodes.take (a.position / b))).drop a.position = [] :=
    List.drop_of_length_le (by omega)
  rw [contents, List.drop_take, List.take_take, Nat.min_eq_left hn, hmemory, List.drop_append, hbefore,
    hnone, List.nil_append]
  congr 2
  omega

/-- `read` fails without effect when there are too few bytes, and otherwise reads the flat array. -/
theorem Inv.read (h : Inv b a) (hb : 0 < b) {size : ℕ} (hsize : 1 ≤ size) :
    (a.size - a.position < size ∧ h.flat.read size = none ∧
      a.read size = (a, .error (.outOfRange "not enough len"))) ∨
    (size ≤ a.size - a.position ∧ ∃ a' bytes flat', h.flat.read size = some (bytes, flat') ∧
      a.read size = (a', .ok bytes) ∧ Inv b a' ∧ Represents a' flat') := by
  have hlength : h.flat.values.length - h.flat.position = a.size - a.position := by
    rw [show h.flat.values.length = a.size from h.length_contents]
    rfl
  unfold ByteArray.read FlatArray.read getReadSize
  by_cases hfew : size > a.size - a.position
  · refine Or.inl ⟨hfew, dif_neg (by omega), if_pos hfew⟩
  · have hpos := h.position_le
    have hle := h.size_le
    have hlt : a.position < a.capacity := by omega
    have hroom : a.position + size ≤ a.capacity := by omega
    obtain ⟨hfrom, hindex⟩ := h.curr_eq hlt
    have hloop := readLoop_spec hb (h.uniform_drop (a.position / b)) (Nat.mod_lt a.position hb) hsize
      (h.room hroom)
    rw [h.take_drop_contents hb hlt (by omega)] at hloop
    refine Or.inr ⟨by omega, { a with
      position := a.position + size
      curr := pointer a.nodes (a.position / b + (a.position % b + size) / b) }, _, _,
      dif_pos (by omega), ?_, ?_, ?_, ?_⟩
    · rw [if_neg hfew, hfrom, hindex, h.baseSize, hloop]
      rfl
    · refine { h with position_le := ?_, curr := ?_ }
      · change a.position + size ≤ a.size
        omega
      · exact h.curr_advance hb hroom
    · rfl
    · rfl

/-- `setPosition` fails without effect past the capacity, and otherwise moves the cursor, exposing
memory when it moves past the size. -/
theorem Inv.setPosition (h : Inv b a) (hb : 0 < b) (v : ℕ) :
    (a.capacity < v ∧ a.setPosition v = (a, .error (.outOfRange "set_position out of range"))) ∨
    (v ≤ a.capacity ∧ ∃ a', a.setPosition v = (a', .ok ()) ∧ Inv b a' ∧ a'.position = v ∧
      a'.size = max a.size v ∧ a'.contents.take a.size = a.contents) := by
  unfold ByteArray.setPosition
  by_cases hfar : v > a.capacity
  · exact Or.inl ⟨hfar, if_pos hfar⟩
  · have hv : v ≤ a.nodes.length * b := by
      rw [← h.capacity]
      omega
    have hsize : (if v > a.size then v else a.size) = max a.size v := by
      split <;> omega
    have hle := h.size_le
    rw [if_neg hfar]
    dsimp only
    rw [walk_spec hb h.uniform h.nodes hv, hsize]
    refine Or.inr ⟨by omega, _, rfl, { h with position_le := ?_, size_le := ?_, curr := ?_ }, rfl, rfl, ?_⟩
    · exact Nat.le_max_right _ _
    · change max a.size v ≤ a.capacity
      omega
    · change pointer a.nodes (v / b) = if v = a.capacity then none else some (v / b)
      rw [h.capacity]
      exact pointer_div hb hv
    · change ((memory a.nodes).take (max a.size v)).take a.size = (memory a.nodes).take a.size
      rw [List.take_take, Nat.min_eq_left (Nat.le_max_left _ _)]

/-- `clear` leaves the first node and nothing visible. -/
theorem Inv.clear (h : Inv b a) (hb : 0 < b) : Inv b a.clear ∧ a.clear.contents = [] := by
  refine ⟨⟨h.baseSize, ?_, ?_, ?_, Nat.le_refl 0, Nat.zero_le _, ?_⟩, rfl⟩
  · have hone : (a.nodes.take 1).length = 1 := by
      rw [List.length_take, Nat.min_eq_left h.nodes]
    exact Nat.le_of_eq hone.symm
  · exact fun node hnode => h.uniform node (List.mem_of_mem_take hnode)
  · change a.baseSize = (a.nodes.take 1).length * b
    rw [List.length_take, Nat.min_eq_left h.nodes, h.baseSize, Nat.one_mul]
  · change some 0 = if 0 = a.baseSize then none else some (0 / b)
    rw [if_neg (by rw [h.baseSize]; omega), Nat.zero_div]

/-- The buffers from the position on, when the chain is long enough. -/
theorem Inv.buffers (h : Inv b a) (hb : 0 < b) {len : ℕ} (hlen : 0 < len)
    (hroom : a.position + len ≤ a.capacity) :
    ∃ buffers, buffersLoop a.fromCurr a.currIndex (a.position % a.baseSize) len = .ok buffers ∧
      buffers.flatMap (bytesOf a.nodes) =
        ((memory (a.nodes.drop (a.position / b))).drop (a.position % b)).take len ∧
      ∀ iov ∈ buffers, iov.node < a.nodes.length ∧ iov.offset + iov.len ≤ b := by
  have hlt : a.position < a.capacity := by omega
  obtain ⟨hfrom, hindex⟩ := h.curr_eq hlt
  rw [hfrom, hindex, h.baseSize]
  exact buffersLoop_spec hb rfl (h.uniform_drop _) (Nat.mod_lt a.position hb) hlen (h.room hroom)

/-- `getReadBuffers` describes the visible bytes from the position on, as many as asked for. -/
theorem Inv.getReadBuffers (h : Inv b a) (hb : 0 < b) (len : ℕ) :
    ∃ buffers, a.getReadBuffers len = .ok (buffers, min len (a.size - a.position)) ∧
      buffers.flatMap (bytesOf a.nodes) =
        (a.contents.drop a.position).take (min len (a.size - a.position)) ∧
      ∀ iov ∈ buffers, iov.node < a.nodes.length ∧ iov.offset + iov.len ≤ b := by
  have hmin : (if len > a.getReadSize then a.getReadSize else len) = min len (a.size - a.position) := by
    unfold getReadSize
    split <;> omega
  have hpos := h.position_le
  have hle := h.size_le
  unfold ByteArray.getReadBuffers
  rw [hmin]
  dsimp only
  by_cases hzero : min len (a.size - a.position) = 0
  · refine ⟨[], by rw [if_pos hzero, hzero], ?_, fun iov hiov => (List.not_mem_nil hiov).elim⟩
    rw [hzero]
    rfl
  · obtain ⟨buffers, hloop, hbytes, hranges⟩ := h.buffers hb (Nat.pos_of_ne_zero hzero) (by omega)
    refine ⟨buffers, by rw [if_neg hzero, hloop]; rfl, ?_, hranges⟩
    rw [hbytes, h.take_drop_contents hb (by omega) (Nat.min_le_right _ _)]

/-- `getWriteBuffers` makes room and describes as many bytes as asked for behind the position. -/
theorem Inv.getWriteBuffers (h : Inv b a) (hb : 0 < b) (len : ℕ) (fresh : ℕ → ℕ → UInt8) :
    ∃ a' buffers, a.getWriteBuffers len fresh = (a', .ok (buffers, len)) ∧ Inv b a' ∧
      a'.position = a.position ∧ a'.size = a.size ∧ a'.contents = a.contents ∧
      (buffers.flatMap (bytesOf a'.nodes)).length = len ∧
      ∀ iov ∈ buffers, iov.node < a'.nodes.length ∧ iov.offset + iov.len ≤ b := by
  unfold ByteArray.getWriteBuffers
  by_cases hzero : len = 0
  · rw [if_pos hzero]
    exact ⟨a, [], by rw [hzero], h, rfl, rfl, rfl, hzero.symm, fun iov hiov => (List.not_mem_nil hiov).elim⟩
  · obtain ⟨hg, hroom, hgpos, hgsize, hgcontents⟩ := h.addCapacity hb (Nat.pos_of_ne_zero hzero) fresh
    rw [if_neg hzero]
    rw [← hgpos] at hroom
    obtain ⟨buffers, hloop, hbytes, hranges⟩ := hg.buffers hb (Nat.pos_of_ne_zero hzero) hroom
    refine ⟨_, buffers, by dsimp only; rw [hloop]; rfl, hg, hgpos, hgsize, hgcontents, ?_, hranges⟩
    have hlength := (hg.uniform_drop ((a.addCapacity len fresh).position / b)).length_memory
    have hfit := hg.room hroom
    rw [hbytes, List.length_take, List.length_drop, hlength]
    omega

/-- Every permitted operation succeeds or throws, and keeps the invariant. -/
theorem Inv.step (h : Inv b a) (hb : 0 < b) {op : Op} (hop : Permitted a op) :
    ∃ a', a.step op = .ok a' ∧ Inv b a' := by
  cases op with
  | write buf fresh =>
    obtain ⟨a', heq, hinv, _⟩ := h.write hb buf fresh
    exact ⟨a', by rw [ByteArray.step, heq]; rfl, hinv⟩
  | read size =>
    rcases h.read hb hop with ⟨_, _, heq⟩ | ⟨_, a', bytes, flat', _, heq, hinv, _⟩
    · exact ⟨a, by rw [ByteArray.step, heq]; rfl, h⟩
    · exact ⟨a', by rw [ByteArray.step, heq]; rfl, hinv⟩
  | setPosition v =>
    rcases h.setPosition hb v with ⟨_, heq⟩ | ⟨_, a', heq, hinv, _⟩
    · exact ⟨a, by rw [ByteArray.step, heq]; rfl, h⟩
    · exact ⟨a', by rw [ByteArray.step, heq]; rfl, hinv⟩
  | clear => exact ⟨a.clear, rfl, (h.clear hb).1⟩
  | getReadBuffers len =>
    obtain ⟨buffers, heq, _⟩ := h.getReadBuffers hb len
    exact ⟨a, by rw [ByteArray.step, heq]; rfl, h⟩
  | getWriteBuffers len fresh =>
    obtain ⟨a', buffers, heq, hinv, _⟩ := h.getWriteBuffers hb len fresh
    exact ⟨a', by rw [ByteArray.step, heq]; rfl, hinv⟩

/-- In every state reached from a new array of base size `b`, the chain has at least one node, all of
size `b`, the capacity is their total size, the position is at most the size and this at most the
capacity, and `m_curr` is the node of the position, null exactly at the end of the chain. No operation
follows a null pointer, and on the flat array represented `write` overwrites from the cursor on,
`read` returns the bytes from the cursor on or throws exactly when there are too few, and
`setPosition` moves the cursor or throws exactly past the capacity; throwing leaves the state as it
was. -/
theorem chain_refines_flat (hb : 1 ≤ b) (content : ℕ → UInt8)
    (h : Runs.Reaches step Permitted (new b content) a) :
    (1 ≤ a.nodes.length ∧ (∀ node ∈ a.nodes, node.size = b) ∧ a.capacity = a.nodes.length * b ∧
      a.position ≤ a.size ∧ a.size ≤ a.capacity ∧
      a.curr = if a.position = a.capacity then none else some (a.position / b)) ∧
    ∃ flat, Represents a flat ∧
      (∀ buf fresh, ∃ a', a.write buf fresh = (a', .ok ()) ∧ Represents a' (flat.write buf) ∧
        a'.size = max a.size (a.position + buf.length)) ∧
      (∀ size, 1 ≤ size →
        (a.size - a.position < size ∧ flat.read size = none ∧
          a.read size = (a, .error (.outOfRange "not enough len"))) ∨
        (size ≤ a.size - a.position ∧ ∃ a' bytes flat', flat.read size = some (bytes, flat') ∧
          a.read size = (a', .ok bytes) ∧ Represents a' flat')) ∧
      (∀ v, (a.capacity < v ∧ a.setPosition v = (a, .error (.outOfRange "set_position out of range"))) ∨
        (v ≤ a.capacity ∧ ∃ a', a.setPosition v = (a', .ok ()) ∧ a'.position = v ∧
          a'.size = max a.size v ∧ a'.contents.take a.size = flat.values)) ∧
      (a.clear.contents = [] ∧ a.clear.position = 0) ∧
      (∀ len, ∃ buffers, a.getReadBuffers len = .ok (buffers, min len (a.size - a.position)) ∧
        buffers.flatMap (bytesOf a.nodes) =
          (flat.values.drop flat.position).take (min len (a.size - a.position))) ∧
      ∀ len fresh, ∃ a' buffers, a.getWriteBuffers len fresh = (a', .ok (buffers, len)) ∧
        Represents a' flat ∧ (buffers.flatMap (bytesOf a'.nodes)).length = len := by
  have hinv : Inv b a := by
    refine h.invariant (Inv b) (Inv.new hb content) fun s op s' hs hop hok => ?_
    obtain ⟨a', heq, hnext⟩ := hs.step hb hop
    rw [heq] at hok
    cases hok
    exact hnext
  refine ⟨⟨hinv.nodes, hinv.uniform, hinv.capacity, hinv.position_le, hinv.size_le, hinv.curr⟩,
    hinv.flat, ⟨rfl, rfl⟩, fun buf fresh => ?_, fun size hsize => ?_, fun v => ?_,
    ⟨(hinv.clear hb).2, rfl⟩, fun len => ?_, fun len fresh => ?_⟩
  · obtain ⟨a', heq, _, hrep⟩ := hinv.write hb buf fresh
    exact ⟨a', heq, hrep⟩
  · refine (hinv.read hb hsize).imp_right ?_
    rintro ⟨hle, a', bytes, flat', hflat, heq, _, hrep⟩
    exact ⟨hle, a', bytes, flat', hflat, heq, hrep⟩
  · refine (hinv.setPosition hb v).imp_right ?_
    rintro ⟨hle, a', heq, _, hpos, hsize, hkept⟩
    exact ⟨hle, a', heq, hpos, hsize, hkept⟩
  · obtain ⟨buffers, heq, hbytes, _⟩ := hinv.getReadBuffers hb len
    exact ⟨buffers, heq, hbytes⟩
  · obtain ⟨a', buffers, heq, _, hpos, _, hsame, hlength, _⟩ := hinv.getWriteBuffers hb len fresh
    exact ⟨a', buffers, heq, ⟨hsame.symm, hpos.symm⟩, hlength⟩

/-- Three bytes written into nodes of size 2 leave the cursor in the second node. -/
theorem chain_refines_flat_threeBytes :
    ∃ a, (new 2 fun _ => 0).step (.write [1, 2, 3] fun _ _ => 0) = .ok a ∧ a.capacity = 4 ∧
      a.curr = some 1 ∧ a.contents = [1, 2, 3] := by
  have hreach : Runs.Reaches step Permitted (new 2 fun _ => 0) _ :=
    .next .start (.write [1, 2, 3] fun _ _ => 0) trivial rfl
  have hshape := (chain_refines_flat (by decide) _ hreach).1
  exact ⟨_, rfl, hshape.2.2.1, hshape.2.2.2.2.2, rfl⟩

end ByteArray

end Bobliew
