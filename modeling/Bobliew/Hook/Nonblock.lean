import Bobliew.Hook.Descriptors

/-!
# The two flags of non-blocking mode

For a socket with a context the kernel's flag should stay set, while `F_SETFL` and `FIONBIO` record what
the program asks for and `F_GETFL` reports it. `F_SETFL` does so. `FIONBIO` takes its pointer for its
value, and passes the call on to the kernel, which clears its flag when the value is zero; `F_GETFL`
masks with `-O_NONBLOCK`, which keeps the flag of the kernel and clears the bits below it.

So a sequence of calls behaves as it should exactly when no `FIONBIO` has the value zero and every
`F_GETFL` comes while non-blocking mode was asked for last.
-/

namespace Bobliew.Hook

/-- A call that sets or reports the flag. -/
inductive FlagCall where
  | setfl (arg : Flags)
  | fionbio (v : BitVec 32)
  | getfl
  deriving DecidableEq

/-- The mode the program asked for last. -/
def FlagCall.requested (user : Bool) : FlagCall → Bool
  | .setfl arg => nonblock arg
  | .fionbio v => decide (v ≠ 0)
  | .getfl => user

/-- Flags with the given mode in place of their own. -/
def withMode (flags : Flags) (user : Bool) : Flags :=
  if user then flags ||| oNonblock else flags &&& ~~~oNonblock

namespace World

variable {S F C : Type} {w : World S F C} {fd : ℕ} {user : Bool}

/-- Perform a call on a descriptor; `FIONBIO` is given the address of its value. -/
def flagStep (w : World S F C) (fd : ℕ) : FlagCall → World S F C
  | .setfl arg => w.fcntlSetfl fd arg
  | .fionbio v => w.ioctlFionbio fd (some v)
  | .getfl => w

/-- The kernel's flag of a descriptor is set. -/
def KernelNonblock (w : World S F C) (fd : ℕ) : Prop :=
  ∃ file, w.kernel fd = some file ∧ nonblock file.flags = true

/-- What `F_GETFL` returns: the kernel's flags with the mode the program asked for last. -/
def GetflCorrect (w : World S F C) (fd : ℕ) (user : Bool) : FlagCall → Prop
  | .getfl => ∃ file, w.kernel fd = some file ∧ w.fcntlGetfl fd = withMode file.flags user
  | _ => True

/-- Along a sequence of calls the kernel's flag stays set and every `F_GETFL` is correct. -/
def Conforms (fd : ℕ) (w : World S F C) (user : Bool) : List FlagCall → Prop
  | [] => w.KernelNonblock fd
  | call :: calls => w.KernelNonblock fd ∧ w.GetflCorrect fd user call ∧
      Conforms fd (w.flagStep fd call) (call.requested user) calls

/-- A socket with an open context, with the kernel's flag set and the given mode recorded. -/
structure Managed (w : World S F C) (fd : ℕ) (user : Bool) : Prop where
  kernel : w.KernelNonblock fd
  ctx : ∃ ctx, w.get fd = some ctx ∧ ctx.isSocket = true ∧ ctx.isClosed = false ∧
    ctx.sysNonblock = true ∧ ctx.userNonblock = user

end World

/-- No `FIONBIO` has the value zero, and every `F_GETFL` comes while non-blocking mode was asked for
last. -/
def AllowedCalls (user : Bool) : List FlagCall → Prop
  | [] => True
  | .setfl arg :: calls => AllowedCalls (nonblock arg) calls
  | .fionbio v :: calls => v ≠ 0 ∧ AllowedCalls true calls
  | .getfl :: calls => user = true ∧ AllowedCalls user calls

namespace World

variable {S F C : Type} {w : World S F C} {fd : ℕ} {user : Bool}

/-- The hooks find the context of a managed socket. -/
theorem Managed.managed (h : Managed w fd user) :
    ∃ ctx, w.managed fd = some ctx ∧ w.get fd = some ctx ∧ ctx.isSocket = true ∧ ctx.isClosed = false ∧
      ctx.sysNonblock = true ∧ ctx.userNonblock = user := by
  obtain ⟨ctx, hget, hsocket, hclosed, hrest⟩ := h.ctx
  refine ⟨ctx, ?_, hget, hsocket, hclosed, hrest⟩
  simp [World.managed, hget, hsocket, hclosed]

/-- Recording a mode and changing the kernel's flags so that the flag is set. -/
theorem Managed.update (h : Managed w fd user) (user' : Bool) (f : KernelFile → KernelFile)
    (hf : ∀ file, nonblock file.flags = true → nonblock (f file).flags = true) :
    Managed ((w.modifyCtx fd fun ctx => { ctx with userNonblock := user' }).modifyFile fd f) fd user' := by
  obtain ⟨file, hfile, hflag⟩ := h.kernel
  obtain ⟨ctx, hget, hsocket, hclosed, hsys, _⟩ := h.ctx
  constructor
  · refine ⟨f file, ?_, hf file hflag⟩
    simp [modifyFile, modifyCtx, hfile]
  · refine ⟨{ ctx with userNonblock := user' }, ?_, hsocket, hclosed, hsys, rfl⟩
    change (w.modifyCtx fd _).get fd = _
    rw [get_modifyCtx, if_pos rfl, hget]
    rfl

/-- `F_SETFL` on a managed socket. -/
theorem Managed.setfl (h : Managed w fd user) (arg : Flags) :
    Managed (w.fcntlSetfl fd arg) fd (nonblock arg) := by
  obtain ⟨ctx, hmanaged, _, _, _, hsys, _⟩ := h.managed
  have hstep := h.update (nonblock arg) (fun file => file.setfl (arg ||| oNonblock)) fun file _ => by
    rw [nonblock_setfl, nonblock_or]
  simpa [fcntlSetfl, hmanaged, hsys] using hstep

/-- `FIONBIO` on a managed socket, as the hook and the kernel perform it. -/
theorem ioctlFionbio_eq (h : Managed w fd user) (v : BitVec 32) :
    w.ioctlFionbio fd (some v) =
      (w.modifyCtx fd fun ctx => { ctx with userNonblock := true }).modifyFile fd
        fun file => file.fionbio v := by
  obtain ⟨ctx, hmanaged, _⟩ := h.managed
  simp [ioctlFionbio, hmanaged]

/-- `FIONBIO` with a value that is not zero. -/
theorem Managed.fionbio (h : Managed w fd user) {v : BitVec 32} (hv : v ≠ 0) :
    Managed (w.ioctlFionbio fd (some v)) fd true := by
  rw [ioctlFionbio_eq h]
  exact h.update true _ fun file _ => by rw [nonblock_fionbio]; exact decide_eq_true hv

/-- `FIONBIO` with the value zero clears the kernel's flag. -/
theorem Managed.not_kernelNonblock (h : Managed w fd user) :
    ¬ (w.ioctlFionbio fd (some 0)).KernelNonblock fd := by
  rw [ioctlFionbio_eq h]
  rintro ⟨file, hfile, hflag⟩
  obtain ⟨old, hold, _⟩ := h.kernel
  have hnew : old.fionbio 0 = file := by
    simpa [modifyFile, modifyCtx, hold] using hfile
  rw [← hnew, nonblock_fionbio] at hflag
  simp at hflag

/-- A sequence of calls that conforms starts with the kernel's flag set. -/
theorem Conforms.kernel {calls : List FlagCall} (h : Conforms fd w user calls) : w.KernelNonblock fd := by
  cases calls with
  | nil => exact h
  | cons call calls => exact h.1

/-- `F_GETFL` on a managed socket is correct exactly when non-blocking mode was asked for last. -/
theorem Managed.getfl_iff (h : Managed w fd user) : w.GetflCorrect fd user .getfl ↔ user = true := by
  obtain ⟨file, hfile, hflag⟩ := h.kernel
  obtain ⟨ctx, hmanaged, _, _, _, _, huser⟩ := h.managed
  have hgetfl : w.fcntlGetfl fd =
      if user then file.flags ||| oNonblock else file.flags &&& -oNonblock := by
    simp [fcntlGetfl, hmanaged, hfile, huser]
  constructor
  · rintro ⟨file', hfile', hcorrect⟩
    obtain rfl : file = file' := Option.some.inj (hfile.symm.trans hfile')
    cases user with
    | true => rfl
    | false =>
      rw [hgetfl] at hcorrect
      have hbit := congrArg (fun flags : Flags => flags.getLsbD 11) hcorrect
      rw [nonblock_eq] at hflag
      simp [withMode, oNonblock] at hbit
      simp_all
  · rintro rfl
    exact ⟨file, hfile, by rw [hgetfl]; rfl⟩

/-- For a managed socket with any mode recorded, a sequence of calls conforms exactly when it is
allowed. -/
theorem Managed.conforms_iff (h : Managed w fd user) (calls : List FlagCall) :
    Conforms fd w user calls ↔ AllowedCalls user calls := by
  induction calls generalizing w user with
  | nil => exact iff_of_true h.kernel trivial
  | cons call calls ih =>
    cases call with
    | setfl arg =>
      have hrest := ih (h.setfl arg)
      exact ⟨fun hconf => hrest.mp hconf.2.2, fun hallow => ⟨h.kernel, trivial, hrest.mpr hallow⟩⟩
    | fionbio v =>
      by_cases hv : v = 0
      · subst hv
        refine iff_of_false (fun hconf => ?_) fun hallow => hallow.1 rfl
        exact h.not_kernelNonblock hconf.2.2.kernel
      · have hrest := ih (h.fionbio hv)
        have hmode : (FlagCall.fionbio v).requested user = true := decide_eq_true hv
        constructor
        · intro hconf
          have htail := hconf.2.2
          rw [hmode] at htail
          exact ⟨hv, hrest.mp htail⟩
        · intro hallow
          refine ⟨h.kernel, trivial, ?_⟩
          rw [hmode]
          exact hrest.mpr hallow.2
    | getfl =>
      have hrest := ih h
      constructor
      · intro hconf
        exact ⟨h.getfl_iff.mp hconf.2.1, hrest.mp hconf.2.2⟩
      · intro hallow
        exact ⟨h.kernel, h.getfl_iff.mpr hallow.1, hrest.mpr hallow.2⟩

/-- For a managed socket for which nothing was asked for yet, the kernel's flag stays set and every
`F_GETFL` is correct exactly when no `FIONBIO` has the value zero and every `F_GETFL` comes while
non-blocking mode was asked for last. -/
theorem flags_conform_iff (h : Managed w fd false) (calls : List FlagCall) :
    Conforms fd w false calls ↔ AllowedCalls false calls := h.conforms_iff calls

/-- A world with a managed socket. -/
theorem exists_managed : ∃ w : World Unit Unit Unit, Managed w 3 false := by
  refine ⟨⟨fun _ => some ⟨true, 0x802#32⟩, [none, none, none, some .initial], .init⟩, ?_, ?_⟩
  · exact ⟨_, rfl, rfl⟩
  · exact ⟨_, rfl, rfl, rfl, rfl, rfl⟩

/-- Asking for non-blocking mode and reading it back. -/
theorem flags_conform_setThenGet :
    ∃ w : World Unit Unit Unit, Managed w 3 false ∧
      (Conforms 3 w false [.setfl 0x802#32, .getfl] ↔ AllowedCalls false [.setfl 0x802#32, .getfl]) ∧
      AllowedCalls false [.setfl 0x802#32, .getfl] := by
  obtain ⟨w, h⟩ := exists_managed
  exact ⟨w, h, flags_conform_iff h _, rfl, trivial⟩

/-- Reading the flags of a new socket reports non-blocking mode, and `FIONBIO` with the value zero
clears the kernel's flag. -/
theorem new_socket_reported_nonblocking :
    ∃ w : World Unit Unit Unit, Managed w 3 false ∧ ¬ Conforms 3 w false [.getfl] ∧
      ¬ Conforms 3 w false [.fionbio 0] := by
  obtain ⟨w, h⟩ := exists_managed
  refine ⟨w, h, fun hconf => ?_, fun hconf => h.not_kernelNonblock hconf.2.2⟩
  have hmode := h.getfl_iff.mp hconf.2.1
  cases hmode

end World

end Bobliew.Hook
