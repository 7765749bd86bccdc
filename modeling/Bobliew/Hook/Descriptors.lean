import Bobliew.IOManager.Events
import Bobliew.Lib.Runs

/-!
# Descriptors behind the hooks

The hooked system calls keep a context for each descriptor in the table of `FdManager`: whether it is a
socket, its timeouts, and whether the program asked for non-blocking mode, while the kernel's own flag
is always set. A world consists of the open descriptors of the kernel with their status flags, that
table, and the I/O manager.

The outcome of a call into the kernel is given to the model: the number of a new descriptor, which is
one that is not open, and its flags. An index past the end of the table ends the run.
-/

namespace Bobliew.Hook

/-- File status flags. -/
abbrev Flags := BitVec 32

/-- `O_NONBLOCK`. -/
def oNonblock : Flags := 0x800#32

/-- Whether `O_NONBLOCK` is among the flags. -/
def nonblock (flags : Flags) : Bool := decide (flags &&& oNonblock ≠ 0)

/-- The flags that `F_SETFL` can change: `O_APPEND`, `O_NONBLOCK`, `O_ASYNC`, `O_DIRECT` and
`O_NOATIME`. -/
def setflMask : Flags := 0x400#32 ||| 0x800#32 ||| 0x2000#32 ||| 0x4000#32 ||| 0x40000#32

/-- An open descriptor in the kernel. -/
structure KernelFile where
  isSocket : Bool
  flags : Flags
  deriving DecidableEq

/-- `fcntl_f(fd, F_SETFL, arg)` on an open descriptor. -/
def KernelFile.setfl (file : KernelFile) (arg : Flags) : KernelFile :=
  { file with flags := (file.flags &&& ~~~setflMask) ||| (arg &&& setflMask) }

/-- `ioctl_f(fd, FIONBIO, &v)` on an open descriptor. -/
def KernelFile.fionbio (file : KernelFile) (v : BitVec 32) : KernelFile :=
  { file with flags := if v = 0 then file.flags &&& ~~~oNonblock else file.flags ||| oNonblock }

/-- `FdCtx`. -/
structure FdCtx where
  isInit : Bool
  isSocket : Bool
  sysNonblock : Bool
  isClosed : Bool
  userNonblock : Bool
  recvTimeout : UInt64
  sendTimeout : UInt64
  deriving DecidableEq

/-- `FdCtx::init` in the constructor: the context, and the descriptor with its flag set. -/
def FdCtx.init : Option KernelFile → FdCtx × Option KernelFile
  | none => (⟨false, false, false, false, false, -1, -1⟩, none)
  | some file =>
    if file.isSocket then
      (⟨true, true, true, false, false, -1, -1⟩,
        some (if file.flags &&& oNonblock = 0 then file.setfl (file.flags ||| oNonblock) else file))
    else (⟨true, false, false, false, false, -1, -1⟩, some file)

/-- The context of a new socket. -/
def FdCtx.initial : FdCtx := ⟨true, true, true, false, false, -1, -1⟩

/-- `SO_RCVTIMEO` and `SO_SNDTIMEO`. -/
inductive TimeoutOption where
  | rcvtimeo
  | sndtimeo
  deriving DecidableEq

/-- `FdCtx::setTimeout`. -/
def FdCtx.setTimeout (ctx : FdCtx) : TimeoutOption → UInt64 → FdCtx
  | .rcvtimeo, v => { ctx with recvTimeout := v }
  | .sndtimeo, v => { ctx with sendTimeout := v }

/-- The kernel's open descriptors, the table `m_datas`, and the I/O manager. -/
structure World (S F C : Type) where
  kernel : ℕ → Option KernelFile
  datas : List (Option FdCtx)
  iom : IOManager S F C

/-- Empty entries at the end of a table change no entry. -/
theorem join_getElem?_append_replicate {α : Type} (datas : List (Option α)) (n i : ℕ) :
    ((datas ++ List.replicate n none)[i]?).join = (datas[i]?).join := by
  rw [List.getElem?_append]
  split
  · rfl
  · rename_i hlarge
    rw [List.getElem?_replicate, List.getElem?_eq_none (by omega)]
    split <;> rfl

namespace World

variable {S F C : Type}

/-- Before the first call: the table has 64 empty entries. -/
def init (kernel : ℕ → Option KernelFile) : World S F C := ⟨kernel, List.replicate 64 none, .init⟩

variable (w : World S F C)

/-- `FdManager::get(fd)`. -/
def get (fd : ℕ) : Option FdCtx := (w.datas[fd]?).join

/-- `FdManager::get(fd, true)`. -/
def create (fd : ℕ) : Except IOFault (World S F C) :=
  match w.get fd with
  | some _ => .ok w
  | none =>
    let made := FdCtx.init (w.kernel fd)
    let datas :=
      if fd ≥ w.datas.length then w.datas ++ List.replicate (3 * fd / 2 - w.datas.length) none
      else w.datas
    if fd < datas.length then
      .ok { w with kernel := Function.update w.kernel fd made.2, datas := datas.set fd (some made.1) }
    else .error .outOfRange

/-- `FdManager::del`. -/
def del (fd : ℕ) : World S F C := { w with datas := w.datas.set fd none }

/-- Change the context of a descriptor through its pointer. -/
def modifyCtx (fd : ℕ) (f : FdCtx → FdCtx) : World S F C :=
  { w with datas := w.datas.modify fd (Option.map f) }

/-- Change an open descriptor in the kernel. -/
def modifyFile (fd : ℕ) (f : KernelFile → KernelFile) : World S F C :=
  { w with kernel := Function.update w.kernel fd ((w.kernel fd).map f) }

/-- The kernel opens a socket with the given flags. -/
def openSocket (fd : ℕ) (flags : Flags) : World S F C :=
  { w with kernel := Function.update w.kernel fd (some ⟨true, flags⟩) }

/-- `socket`: the kernel's result is a new descriptor or -1. -/
def socket (hookEnable : Bool) : Option (ℕ × Flags) → Except IOFault (World S F C)
  | none => .ok w
  | some (fd, flags) =>
    if !hookEnable then .ok (w.openSocket fd flags) else (w.openSocket fd flags).create fd

/-- `accept`, with the result of `do_io`. -/
def accept : Option (ℕ × Flags) → Except IOFault (World S F C)
  | none => .ok w
  | some (fd, flags) => (w.openSocket fd flags).create fd

/-- `setsockopt` of a timeout, in milliseconds. -/
def setsockopt (hookEnable : Bool) (fd : ℕ) (optname : TimeoutOption) (v : UInt64) : World S F C :=
  if !hookEnable then w else w.modifyCtx fd fun ctx => ctx.setTimeout optname v

/-- `close`; the outcome of `epoll_ctl` inside `cancelAll` is given, none on a thread without an I/O manager. -/
def close (hookEnable : Bool) (fd : ℕ) (ctl : Option Bool) : Except IOFault (World S F C) :=
  if hookEnable then .ok { w with kernel := Function.update w.kernel fd none }
  else
    match w.get fd with
    | none => .ok { w with kernel := Function.update w.kernel fd none }
    | some _ =>
      let cancelled := match ctl with
        | some ctl => (w.iom.cancelAll fd ctl).map Prod.fst
        | none => .ok w.iom
      cancelled.map fun iom =>
        let w := { w with iom := iom }.del fd
        { w with kernel := Function.update w.kernel fd none }

/-- The hooks act on sockets with an open context. -/
def managed (fd : ℕ) : Option FdCtx := (w.get fd).filter fun ctx => !ctx.isClosed && ctx.isSocket

/-- `fcntl(fd, F_SETFL, arg)`. -/
def fcntlSetfl (fd : ℕ) (arg : Flags) : World S F C :=
  match w.managed fd with
  | none => w.modifyFile fd fun file => file.setfl arg
  | some ctx =>
    let arg' := if ctx.sysNonblock then arg ||| oNonblock else arg &&& -oNonblock
    (w.modifyCtx fd fun ctx => { ctx with userNonblock := nonblock arg }).modifyFile fd
      fun file => file.setfl arg'

/-- `fcntl(fd, F_GETFL)`; the kernel returns -1 for a descriptor that is not open. -/
def fcntlGetfl (fd : ℕ) : Flags :=
  let arg := ((w.kernel fd).map KernelFile.flags).getD (-1)
  match w.managed fd with
  | none => arg
  | some ctx => if ctx.userNonblock then arg ||| oNonblock else arg &&& -oNonblock

/-- `ioctl(d, FIONBIO, arg)` for a pointer `arg`, null or with a value behind it: the hook looks at the
pointer, the kernel at the value. -/
def ioctlFionbio (d : ℕ) (arg : Option (BitVec 32)) : World S F C :=
  let userNonblock := arg.isSome
  let w := match w.managed d with
    | none => w
    | some _ => w.modifyCtx d fun ctx => { ctx with userNonblock := userNonblock }
  match arg with
  | none => w
  | some v => w.modifyFile d fun file => file.fionbio v

/-- The context of a descriptor after a change of some context. -/
theorem get_modifyCtx (fd fd' : ℕ) (f : FdCtx → FdCtx) :
    (w.modifyCtx fd f).get fd' = if fd = fd' then (w.get fd').map f else w.get fd' := by
  unfold modifyCtx get
  rw [List.getElem?_modify]
  split
  · cases h : w.datas[fd']? with
    | none => rfl
    | some entry => cases entry <;> rfl
  · simp

/-- Changing a context keeps the size of the table. -/
theorem length_modifyCtx (fd : ℕ) (f : FdCtx → FdCtx) :
    (w.modifyCtx fd f).datas.length = w.datas.length := List.length_modify _ _ _

/-- The table as `create` makes room in it. -/
theorem exists_room (fd : ℕ) (hsize : 2 ≤ w.datas.length) :
    ∃ datas, datas = (if fd ≥ w.datas.length then
        w.datas ++ List.replicate (3 * fd / 2 - w.datas.length) none else w.datas) ∧
      fd < datas.length ∧ w.datas.length ≤ datas.length ∧
      ∀ i : ℕ, (datas[i]?).join = (w.datas[i]?).join := by
  refine ⟨_, rfl, ?_, ?_, ?_⟩
  · split
    · simp only [List.length_append, List.length_replicate]
      omega
    · omega
  · split
    · simp
    · exact Nat.le_refl _
  · intro i
    split
    · exact join_getElem?_append_replicate _ _ _
    · rfl

/-- Changing an open descriptor keeps which descriptors are open. -/
theorem isSome_kernel_modifyFile (fd fd' : ℕ) (f : KernelFile → KernelFile) :
    ((w.modifyFile fd f).kernel fd').isSome = (w.kernel fd').isSome := by
  unfold modifyFile
  by_cases h : fd' = fd
  · subst h
    simp
  · simp [Function.update_of_ne h]

end World

/-! ## The flag of non-blocking mode -/

/-- The flag is the eleventh bit. -/
theorem nonblock_eq (flags : Flags) : nonblock flags = flags.getLsbD 11 := by
  have hpow : oNonblock = BitVec.twoPow 32 11 := rfl
  unfold nonblock
  rw [hpow, BitVec.and_twoPow]
  cases hbit : flags.getLsbD 11 with
  | true => rfl
  | false => rfl

/-- Adding the flag. -/
theorem nonblock_or (flags : Flags) : nonblock (flags ||| oNonblock) = true := by
  rw [nonblock_eq]
  simp [oNonblock]

/-- `F_SETFL` sets the flag as its argument has it. -/
theorem nonblock_setfl (file : KernelFile) (arg : Flags) : nonblock (file.setfl arg).flags = nonblock arg := by
  rw [nonblock_eq, nonblock_eq]
  simp [KernelFile.setfl, setflMask]

/-- `FIONBIO` sets the flag as its value says. -/
theorem nonblock_fionbio (file : KernelFile) (v : BitVec 32) :
    nonblock (file.fionbio v).flags = decide (v ≠ 0) := by
  rw [nonblock_eq]
  unfold KernelFile.fionbio
  dsimp only
  split
  · rename_i hzero
    simp [hzero, oNonblock]
  · rename_i hvalue
    simpa [oNonblock] using hvalue

/-- A new context sets the flag. -/
theorem FdCtx.init_socket (flags : Flags) :
    (FdCtx.init (some ⟨true, flags⟩)).1 = .initial ∧
      ∃ file, (FdCtx.init (some ⟨true, flags⟩)).2 = some file ∧ nonblock file.flags = true := by
  refine ⟨rfl, _, rfl, ?_⟩
  dsimp only
  split
  · rw [nonblock_setfl, nonblock_or]
  · rename_i hset
    exact decide_eq_true hset

end Bobliew.Hook
