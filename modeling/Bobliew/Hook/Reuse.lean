import Bobliew.Hook.Descriptors

/-!
# Contexts of reused descriptors

Threads with hooks open sockets, accept connections, change options, and close descriptors, while the
kernel hands out numbers of closed descriptors again. With hooks enabled `close` forwards to the kernel
and leaves the table and the registered events as they are, so the entry of a closed descriptor stays
and is taken over by the next socket with its number.

As long as no descriptor with an entry or a registered event is closed, every entry belongs to an open
descriptor, and every new socket gets a new context.
-/

namespace Bobliew.Hook

variable {S F C : Type}

/-- A call on a thread with hooks, with the outcome of the kernel, or a step of the I/O manager. -/
inductive Call (S F C : Type) where
  | socket (result : Option (ℕ × Flags))
  | accept (s : ℕ) (result : Option (ℕ × Flags))
  | setsockopt (fd : ℕ) (optname : TimeoutOption) (v : UInt64)
  | fcntlSetfl (fd : ℕ) (arg : Flags)
  | close (fd : ℕ) (ctl : Bool)
  | iom (op : IOManager.Op S F C)

namespace World

variable {w w' : World S F C} {fd : ℕ} {call : Call S F C}

/-- Perform one call. -/
def step (w : World S F C) : Call S F C → Except IOFault (World S F C)
  | .socket result => w.socket true result
  | .accept _ result => w.accept result
  | .setsockopt fd optname v => .ok (w.setsockopt true fd optname v)
  | .fcntlSetfl fd arg => .ok (w.fcntlSetfl fd arg)
  | .close fd ctl => w.close true fd (some ctl)
  | .iom op => (w.iom.step op).map fun iom => { w with iom := iom }

/-- The kernel returns descriptors that are not open. -/
def Permitted (w : World S F C) : Call S F C → Prop
  | .socket (some (fd, _)) => w.kernel fd = none
  | .accept _ (some (fd, _)) => w.kernel fd = none
  | .iom op => w.iom.Permitted op
  | _ => True

/-- The I/O manager has no event registered for a descriptor. -/
def NoEvent (w : World S F C) (fd : ℕ) : Prop :=
  ∀ ctx, w.iom.fdContexts[fd]? = some ctx → ctx.events = .empty

/-- A descriptor is closed only when it has neither a context nor a registered event. -/
def CleanClose (w : World S F C) : Call S F C → Prop
  | .close fd _ => w.get fd = none ∧ w.NoEvent fd
  | _ => True

/-- A new descriptor has a new context and the kernel's flag set. -/
def Fresh (w : World S F C) (fd : ℕ) : Prop :=
  w.get fd = some .initial ∧ ∃ file, w.kernel fd = some file ∧ nonblock file.flags = true

/-- What holds after a call: a new descriptor is fresh, and a closed one has left nothing behind. -/
def AfterCall (w : World S F C) : Call S F C → Prop
  | .socket (some (fd, _)) => w.Fresh fd
  | .accept _ (some (fd, _)) => w.Fresh fd
  | .close fd _ => w.get fd = none ∧ w.NoEvent fd
  | _ => True

/-- The table has its initial size at least, and every entry belongs to an open descriptor. -/
structure Backed (w : World S F C) : Prop where
  size : 64 ≤ w.datas.length
  opened : ∀ fd ctx, w.get fd = some ctx → (w.kernel fd).isSome = true

/-- The initial world. -/
theorem Backed.init (kernel : ℕ → Option KernelFile) : Backed (World.init kernel : World S F C) where
  size := by simp [World.init]
  opened := by
    intro fd ctx hget
    have hnone : (World.init kernel : World S F C).get fd = none := by
      unfold World.get World.init
      rw [List.getElem?_replicate]
      split <;> rfl
    rw [hnone] at hget
    cases hget

/-- A change of contexts and descriptors that keeps which of them exist keeps the invariant. -/
theorem Backed.of_same (h : Backed w) (hsize : w'.datas.length = w.datas.length)
    (hget : ∀ fd ctx, w'.get fd = some ctx → ∃ ctx', w.get fd = some ctx')
    (hkernel : ∀ fd, (w'.kernel fd).isSome = (w.kernel fd).isSome) : Backed w' where
  size := by rw [hsize]; exact h.size
  opened := by
    intro fd ctx hctx
    obtain ⟨ctx', hold⟩ := hget fd ctx hctx
    rw [hkernel]
    exact h.opened fd ctx' hold

/-- Creating a context for a new socket. -/
theorem Backed.create (h : Backed w) (flags : Flags) (hclosed : w.kernel fd = none) :
    ∃ w', (w.openSocket fd flags).create fd = .ok w' ∧ w'.Fresh fd ∧ Backed w' := by
  have hnone : w.get fd = none := by
    cases hget : w.get fd with
    | none => rfl
    | some ctx =>
      have hopen := h.opened fd ctx hget
      rw [hclosed] at hopen
      cases hopen
  have hsize := h.size
  obtain ⟨datas, hdatas, hroom, hlonger, hsame⟩ := w.exists_room fd (by omega)
  obtain ⟨hctx, file, hfile, hflag⟩ := FdCtx.init_socket flags
  have hget : ∀ i, ((datas.set fd (some FdCtx.initial))[i]?).join =
      if fd = i then some .initial else w.get i := by
    intro i
    rw [List.getElem?_set]
    split
    · rename_i heq
      subst heq
      rfl
    · exact hsame i
  refine ⟨{ w with
    kernel := Function.update w.kernel fd (some file)
    datas := datas.set fd (some .initial) }, ?_, ⟨?_, file, ?_, hflag⟩, ?_, ?_⟩
  · have hopened : (w.openSocket fd flags).get fd = none := hnone
    have hkernel : (w.openSocket fd flags).kernel fd = some ⟨true, flags⟩ := by simp [openSocket]
    unfold World.create
    rw [hopened]
    dsimp only
    rw [hkernel, hctx, hfile]
    rw [show (w.openSocket fd flags).datas = w.datas from rfl, ← hdatas, if_pos hroom]
    simp [openSocket]
  · rw [World.get, hget, if_pos rfl]
  · exact Function.update_self fd _ _
  · rw [List.length_set]
    omega
  · intro i ctx hi
    rw [World.get, hget] at hi
    by_cases heq : fd = i
    · subst heq
      simp
    · rw [if_neg heq] at hi
      change (Function.update w.kernel fd (some file) i).isSome = true
      rw [Function.update_of_ne (Ne.symm heq)]
      exact h.opened i ctx hi

/-- Changing a context keeps the invariant. -/
theorem Backed.modifyCtx (h : Backed w) (fd : ℕ) (f : FdCtx → FdCtx) : Backed (w.modifyCtx fd f) := by
  refine h.of_same (w.length_modifyCtx fd f) (fun fd' ctx hctx => ?_) fun _ => rfl
  rw [get_modifyCtx] at hctx
  split at hctx
  · obtain ⟨ctx', hold, _⟩ := Option.map_eq_some_iff.mp hctx
    exact ⟨ctx', hold⟩
  · exact ⟨ctx, hctx⟩

/-- Changing an open descriptor in the kernel keeps the invariant. -/
theorem Backed.modifyFile (h : Backed w) (fd : ℕ) (f : KernelFile → KernelFile) : Backed (w.modifyFile fd f) :=
  h.of_same rfl (fun _ ctx hctx => ⟨ctx, hctx⟩) fun fd' => w.isSome_kernel_modifyFile fd fd' f

/-- Setting the flags of a descriptor keeps the invariant. -/
theorem Backed.fcntlSetfl (h : Backed w) (fd : ℕ) (arg : Flags) : Backed (w.fcntlSetfl fd arg) := by
  unfold World.fcntlSetfl
  split
  · exact h.modifyFile fd _
  · exact (h.modifyCtx fd _).modifyFile fd _

/-- Closing a descriptor without a context keeps the invariant. -/
theorem Backed.close (h : Backed w) (hnone : w.get fd = none) :
    Backed { w with kernel := Function.update w.kernel fd none } where
  size := h.size
  opened := by
    intro fd' ctx hctx
    change w.get fd' = some ctx at hctx
    have hne : fd' ≠ fd := by
      rintro rfl
      rw [hnone] at hctx
      cases hctx
    change (Function.update w.kernel fd none fd').isSome = true
    rw [Function.update_of_ne hne]
    exact h.opened fd' ctx hctx

/-- A call that is permitted and closes only clean descriptors keeps the invariant and does what it
should. -/
theorem Backed.step (h : Backed w) (hpermitted : w.Permitted call) (hclean : w.CleanClose call)
    (hok : w.step call = .ok w') : Backed w' ∧ w'.AfterCall call := by
  cases call with
  | socket result =>
    cases result with
    | none =>
      cases hok
      exact ⟨h, trivial⟩
    | some made =>
      obtain ⟨w'', heq, hfresh, hbacked⟩ := h.create made.2 hpermitted
      cases heq.symm.trans hok
      exact ⟨hbacked, hfresh⟩
  | accept s result =>
    cases result with
    | none =>
      cases hok
      exact ⟨h, trivial⟩
    | some made =>
      obtain ⟨w'', heq, hfresh, hbacked⟩ := h.create made.2 hpermitted
      cases heq.symm.trans hok
      exact ⟨hbacked, hfresh⟩
  | setsockopt fd optname v =>
    cases hok
    exact ⟨h.modifyCtx fd _, trivial⟩
  | fcntlSetfl fd arg =>
    cases hok
    exact ⟨h.fcntlSetfl fd arg, trivial⟩
  | close fd ctl =>
    cases hok
    exact ⟨h.close hclean.1, hclean⟩
  | iom op =>
    obtain ⟨iom, _, rfl⟩ := Except.exists_of_map_eq_ok hok
    exact ⟨⟨h.size, h.opened⟩, trivial⟩

/-- No call except one of the I/O manager ends the run. -/
theorem Backed.progress (h : Backed w) (hpermitted : w.Permitted call) (hcall : ∀ op, call ≠ .iom op) :
    ∃ w', w.step call = .ok w' := by
  cases call with
  | socket result =>
    cases result with
    | none => exact ⟨w, rfl⟩
    | some made =>
      obtain ⟨w', heq, _⟩ := h.create made.2 hpermitted
      exact ⟨w', heq⟩
  | accept s result =>
    cases result with
    | none => exact ⟨w, rfl⟩
    | some made =>
      obtain ⟨w', heq, _⟩ := h.create made.2 hpermitted
      exact ⟨w', heq⟩
  | setsockopt fd optname v => exact ⟨_, rfl⟩
  | fcntlSetfl fd arg => exact ⟨_, rfl⟩
  | close fd ctl => exact ⟨_, rfl⟩
  | iom op => exact absurd rfl (hcall op)

/-- In every run in which only descriptors without a context and without a registered event are closed,
every call returns, a new descriptor has a new context and the kernel's flag set, and a closed one has
left neither a context nor an event behind. In any world closing leaves nothing behind only if there
was nothing before. -/
theorem descriptors_fresh (kernel : ℕ → Option KernelFile)
    (h : Runs.Reaches step (fun w call => w.Permitted call ∧ w.CleanClose call) (World.init kernel) w) :
    (∀ call : Call S F C, w.Permitted call → w.CleanClose call →
      ((∀ op, call ≠ .iom op) → ∃ w', w.step call = .ok w') ∧
      ∀ w', w.step call = .ok w' → w'.AfterCall call) ∧
    ∀ fd ctl w', w.step (.close fd ctl) = .ok w' →
      (w'.AfterCall (.close fd ctl) ↔ w.CleanClose (.close fd ctl)) := by
  have hbacked : Backed w := by
    refine h.invariant Backed (Backed.init kernel) fun s call s' hs hcall hok => ?_
    exact (hs.step hcall.1 hcall.2 hok).1
  refine ⟨fun call hpermitted hclean => ⟨?_, ?_⟩, ?_⟩
  · exact hbacked.progress hpermitted
  · exact fun w' hok => (hbacked.step hpermitted hclean hok).2
  · intro fd ctl w' hok
    cases hok
    exact Iff.rfl

/-- A file without a context is closed, and the next socket gets its number. -/
theorem descriptors_fresh_reused :
    ∃ w w' : World Unit Unit Unit,
      (World.init fun fd => if fd = 3 then some ⟨false, 2#32⟩ else none).step (.close 3 true) = .ok w ∧
        w.AfterCall (.close 3 true) ∧ w.step (.socket (some (3, 2#32))) = .ok w' ∧ w'.Fresh 3 := by
  have hclean : (World.init fun fd => if fd = 3 then some ⟨false, 2#32⟩ else none : World Unit Unit Unit).CleanClose
      (.close 3 true) :=
    ⟨rfl, fun ctx hctx => by cases hctx; rfl⟩
  have hclosed := (descriptors_fresh _ .start).1 (.close 3 true) trivial hclean
  have hreached : Runs.Reaches step (fun w call => w.Permitted call ∧ w.CleanClose call)
      (World.init fun fd => if fd = 3 then some ⟨false, 2#32⟩ else none : World Unit Unit Unit) _ :=
    .next .start (.close 3 true) ⟨trivial, hclean⟩ rfl
  have hreused := (descriptors_fresh _ hreached).1 (.socket (some (3, 2#32))) rfl trivial
  obtain ⟨w', hok⟩ := hreused.1 nofun
  exact ⟨_, w', rfl, hclosed.2 _ rfl, hok, hreused.2 w' hok⟩

/-- A socket is opened as descriptor 3, gets a timeout and is closed, and the next socket gets the same
number: the context of the first socket is still there after the close, and the second socket takes it
over with the timeout, while the kernel's flag is not set. -/
theorem closed_context_taken_over :
    ∃ w₁ w₂ w₃ w₄ : World Unit Unit Unit,
      (World.init fun _ => none : World Unit Unit Unit).step (.socket (some (3, 2#32))) = .ok w₁ ∧
      w₁.step (.setsockopt 3 .rcvtimeo 5000) = .ok w₂ ∧
      w₂.step (.close 3 true) = .ok w₃ ∧ ¬ w₃.AfterCall (.close 3 true) ∧
      w₃.Permitted (.socket (some (3, 2#32))) ∧
      w₃.step (.socket (some (3, 2#32))) = .ok w₄ ∧ ¬ w₄.AfterCall (.socket (some (3, 2#32))) ∧
      w₄.get 3 = some { FdCtx.initial with recvTimeout := 5000 } ∧
      w₄.kernel 3 = some ⟨true, 2#32⟩ := by
  refine ⟨_, _, _, _, rfl, rfl, rfl, ?_, ?_, rfl, ?_, ?_, ?_⟩
  · rintro ⟨hnone, _⟩
    cases hnone
  · rfl
  · rintro ⟨hinitial, _⟩
    revert hinitial
    decide
  · rfl
  · rfl

end World

end Bobliew.Hook
