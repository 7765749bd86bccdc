import Bobliew.Lib.FlatArray
import Bobliew.Lib.Runs

/-!
# A byte array in a chain of nodes

A model of `ByteArray`: a chain of nodes of one size, a position, and a pointer to the node of the
position, which is null when the position is at the end of the chain. Pointers into the chain are
indices. The copy loops move to the next node in every iteration, so they recurse over the rest of
the chain; following a null pointer ends the run.

The memory of a new node is not initialised: its content is given by the caller of the model.
Operations that may throw return the state they leave behind together with their result.
-/

namespace Bobliew

/-- `ByteArray::Node`: a block of memory. -/
structure Node where
  size : ℕ
  ptr : List UInt8
  length_ptr : ptr.length = size

namespace Node

/-- `Node(size_t s)`, with the given content of its memory. -/
def new (s : ℕ) (memory : ℕ → UInt8) : Node := ⟨s, (List.range s).map memory, by simp⟩

/-- Overwriting a part of the memory keeps its size. -/
theorem length_take_overwrite (node : Node) (npos : ℕ) (data : List UInt8) :
    ((node.ptr.overwrite npos data).take node.size).length = node.size := by
  have hlength := node.length_ptr
  simp only [List.length_take, List.overwrite, List.length_append, List.length_drop]
  omega

/-- `memcpy` into the node's memory. -/
def store (node : Node) (npos : ℕ) (data : List UInt8) : Node where
  size := node.size
  ptr := (node.ptr.overwrite npos data).take node.size
  length_ptr := node.length_take_overwrite npos data

/-- `memcpy` out of the node's memory. -/
def load (node : Node) (npos size : ℕ) : List UInt8 := (node.ptr.drop npos).take size

end Node

/-- Why an operation does not return: an exception with its text, or a null pointer is followed. -/
inductive ByteArrayFault where
  | outOfRange (what : String)
  | nullNode
  deriving DecidableEq

/-- An `iovec`: a range of the memory of one node of the chain. -/
structure IoVec where
  node : ℕ
  offset : ℕ
  len : ℕ
  deriving DecidableEq

/-- `ByteArray`; `m_root` is the first of the nodes. -/
structure ByteArray where
  position : ℕ
  baseSize : ℕ
  size : ℕ
  capacity : ℕ
  nodes : List Node
  curr : Option ℕ

namespace ByteArray

/-- `ByteArray(size_t base_size)`. -/
def new (baseSize : ℕ) (memory : ℕ → UInt8) : ByteArray where
  position := 0
  baseSize := baseSize
  size := 0
  capacity := baseSize
  nodes := [Node.new baseSize memory]
  curr := some 0

/-- The pointer to the node of an index, null past the end of the chain. -/
def pointer (nodes : List Node) (index : ℕ) : Option ℕ :=
  if index < nodes.length then some index else none

/-- The loop of `write`, from the node of the position on: the nodes after it and how often it moved
to the next node. -/
def writeLoop : List Node → ℕ → List UInt8 → Except ByteArrayFault (List Node × ℕ)
  | [], _, _ => .error .nullNode
  | node :: rest, npos, buf =>
    let ncap := node.size - npos
    if buf.length = 0 then .ok (node :: rest, 0)
    else if buf.length ≤ ncap then
      .ok (node.store npos buf :: rest, if node.size = npos + buf.length then 1 else 0)
    else do
      let (rest, moved) ← writeLoop rest 0 (buf.drop ncap)
      .ok (node.store npos (buf.take ncap) :: rest, moved + 1)

/-- The loop of `read`: the bytes read and how often it moved to the next node. -/
def readLoop : List Node → ℕ → ℕ → Except ByteArrayFault (List UInt8 × ℕ)
  | [], _, _ => .error .nullNode
  | node :: rest, npos, size =>
    let ncap := node.size - npos
    if size = 0 then .ok ([], 0)
    else if size ≤ ncap then .ok (node.load npos size, if node.size = npos + size then 1 else 0)
    else do
      let (bytes, moved) ← readLoop rest 0 (size - ncap)
      .ok (node.load npos ncap ++ bytes, moved + 1)

/-- The loop of `getReadBuffers` and `getWriteBuffers`, from the node of the given index on. -/
def buffersLoop : List Node → ℕ → ℕ → ℕ → Except ByteArrayFault (List IoVec)
  | [], _, _, _ => .error .nullNode
  | node :: rest, index, npos, len =>
    let ncap := node.size - npos
    if len = 0 then .ok []
    else if len ≤ ncap then .ok [⟨index, npos, len⟩]
    else do
      let buffers ← buffersLoop rest (index + 1) 0 (len - ncap)
      .ok (⟨index, npos, ncap⟩ :: buffers)

/-- The walk of `setPosition` from `m_root`: the index of the node of the position. -/
def walk : List Node → ℕ → Except ByteArrayFault ℕ
  | [], _ => .error .nullNode
  | node :: rest, v =>
    if v > node.size then (walk rest (v - node.size)).map (· + 1)
    else .ok (if v = node.size then 1 else 0)

/-- `getCapacity`. -/
def getCapacity (a : ByteArray) : ℕ := a.capacity - a.position

/-- `getReadSize`. -/
def getReadSize (a : ByteArray) : ℕ := a.size - a.position

/-- `addCapacity`, with the content of the memory of each new node. -/
def addCapacity (a : ByteArray) (size : ℕ) (memory : ℕ → ℕ → UInt8) : ByteArray :=
  if size = 0 then a else
  let oldCap := a.getCapacity
  if oldCap ≥ size then a else
  let count := (size - oldCap + a.baseSize - 1) / a.baseSize
  { a with
    nodes := a.nodes ++ (List.range count).map fun i => Node.new a.baseSize (memory i)
    capacity := a.capacity + count * a.baseSize
    curr := if oldCap = 0 then some a.nodes.length else a.curr }

/-- The rest of the chain from `m_curr` on. -/
def fromCurr (a : ByteArray) : List Node :=
  match a.curr with
  | some index => a.nodes.drop index
  | none => []

/-- The index of `m_curr`. -/
def currIndex (a : ByteArray) : ℕ := a.curr.getD a.nodes.length

/-- `clear`. -/
def clear (a : ByteArray) : ByteArray :=
  { a with position := 0, size := 0, capacity := a.baseSize, nodes := a.nodes.take 1, curr := some 0 }

/-- `write`. -/
def write (a : ByteArray) (buf : List UInt8) (memory : ℕ → ℕ → UInt8) :
    ByteArray × Except ByteArrayFault Unit :=
  if buf.length = 0 then (a, .ok ()) else
  let a := a.addCapacity buf.length memory
  match writeLoop a.fromCurr (a.position % a.baseSize) buf with
  | .error fault => (a, .error fault)
  | .ok (nodes, moved) =>
    let position := a.position + buf.length
    ({ a with
      position := position
      size := if position > a.size then position else a.size
      nodes := a.nodes.take a.currIndex ++ nodes
      curr := pointer a.nodes (a.currIndex + moved) }, .ok ())

/-- `read`. -/
def read (a : ByteArray) (size : ℕ) : ByteArray × Except ByteArrayFault (List UInt8) :=
  if size > a.getReadSize then (a, .error (.outOfRange "not enough len")) else
  match readLoop a.fromCurr (a.position % a.baseSize) size with
  | .error fault => (a, .error fault)
  | .ok (bytes, moved) =>
    ({ a with
      position := a.position + size
      curr := pointer a.nodes (a.currIndex + moved) }, .ok bytes)

/-- `setPosition`. -/
def setPosition (a : ByteArray) (v : ℕ) : ByteArray × Except ByteArrayFault Unit :=
  if v > a.capacity then (a, .error (.outOfRange "set_position out of range")) else
  let a := { a with position := v, size := if v > a.size then v else a.size }
  match walk a.nodes v with
  | .error fault => (a, .error fault)
  | .ok index => ({ a with curr := pointer a.nodes index }, .ok ())

/-- `getReadBuffers(buffers, len)`: the buffers added and the returned length. -/
def getReadBuffers (a : ByteArray) (len : ℕ) : Except ByteArrayFault (List IoVec × ℕ) :=
  let len := if len > a.getReadSize then a.getReadSize else len
  if len = 0 then .ok ([], 0) else
  (buffersLoop a.fromCurr a.currIndex (a.position % a.baseSize) len).map fun buffers => (buffers, len)

/-- `getWriteBuffers`: the buffers added and the returned length. -/
def getWriteBuffers (a : ByteArray) (len : ℕ) (memory : ℕ → ℕ → UInt8) :
    ByteArray × Except ByteArrayFault (List IoVec × ℕ) :=
  if len = 0 then (a, .ok ([], 0)) else
  let a := a.addCapacity len memory
  (a, (buffersLoop a.fromCurr a.currIndex (a.position % a.baseSize) len).map fun buffers => (buffers, len))

/-- One operation on the array. -/
inductive Op where
  | write (buf : List UInt8) (memory : ℕ → ℕ → UInt8)
  | read (size : ℕ)
  | setPosition (v : ℕ)
  | clear
  | getReadBuffers (len : ℕ)
  | getWriteBuffers (len : ℕ) (memory : ℕ → ℕ → UInt8)

/-- Go on from the state left behind by a result or an exception, but not from a null pointer. -/
def survive {α : Type} (r : ByteArray × Except ByteArrayFault α) : Except ByteArrayFault ByteArray :=
  match r.2 with
  | .error .nullNode => .error .nullNode
  | _ => .ok r.1

/-- Perform one operation; the program may go on after an exception. -/
def step (a : ByteArray) : Op → Except ByteArrayFault ByteArray
  | .write buf memory => survive (a.write buf memory)
  | .read size => survive (a.read size)
  | .setPosition v => survive (a.setPosition v)
  | .clear => .ok a.clear
  | .getReadBuffers len => survive (a, a.getReadBuffers len)
  | .getWriteBuffers len memory => survive (a.getWriteBuffers len memory)

/-- At least one byte is read. -/
def Permitted (_ : ByteArray) : Op → Prop
  | .read size => 1 ≤ size
  | _ => True

end ByteArray

end Bobliew
