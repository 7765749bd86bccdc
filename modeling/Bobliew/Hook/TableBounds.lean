import Bobliew.Hook.FdManager
import Bobliew.Lib.Narrowing

/-!
# The indices into the tables of descriptors

`IOManager` and `FdManager` each keep a table that is indexed with a descriptor. Every critical section
compares the size of its table, as an `int`, with the descriptor before it uses the index, and the ones
under a write lock make the table larger first. The table of `IOManager` is modelled here by its size,
the one of `FdManager` by which of its entries are set.

Two calls go on under a write lock after they have given up the read lock, so the callers between these
locks are part of the state. The descriptors are numbers of type `int`, and those passed to `IOManager` are
not negative. An index that is not inside of its table ends the run.
-/

namespace Bobliew.Hook

open Narrowing

/-- Where a caller is: between calls, or between the two locks of `addEvent` or of `get`. -/
inductive TableCaller where
  | idle
  | adding (fd : ℤ)
  | creating (fd : ℤ)
  deriving DecidableEq

/-- `m_fdContexts.size()`, which entries of `m_datas` have a context, and the callers. -/
structure FdTables (T : Type*) where
  contexts : ℕ
  datas : List Bool
  caller : T → TableCaller

/-- A critical section: the tables after it, the index it uses with the size of the table at that time, and
whether it returned `false` because of the size. -/
structure TableAccess (T : Type*) where
  tables : FdTables T
  access : Option (ℤ × ℕ)
  refused : Bool

/-- One critical section. -/
inductive TableCall (T : Type*) where
  | addEvent (t : T) (fd : ℤ)
  | addEventWrite (t : T)
  | delEvent (fd : ℤ)
  | cancelEvent (fd : ℤ)
  | cancelAll (fd : ℤ)
  | get (t : T) (fd : ℤ) (autoCreate : Bool)
  | getWrite (t : T)
  | del (fd : ℤ)

/-- A value of type `int`. -/
def IsInt (fd : ℤ) : Prop := -2 ^ 31 ≤ fd ∧ fd < 2 ^ 31

instance (fd : ℤ) : Decidable (IsInt fd) := inferInstanceAs (Decidable (_ ∧ _))

/-- `fd * 1.5` as a size. -/
def grownSize (fd : ℤ) : ℕ := (3 * fd / 2).toNat

/-- `resize`. -/
def resize (datas : List Bool) (size : ℕ) : List Bool :=
  datas.take size ++ List.replicate (size - datas.length) false

namespace FdTables

variable {T : Type*}

/-- Both tables after their constructors. -/
def start : FdTables T := ⟨32, List.replicate 64 false, fun _ => .idle⟩

/-- `(int)m_fdContexts.size()`. -/
def contextsInt (s : FdTables T) : ℤ := signed 31 s.contexts

/-- `(int)m_datas.size()`. -/
def datasInt (s : FdTables T) : ℤ := signed 31 s.datas.length

/-- The comparison of `delEvent`, `cancelEvent` and `cancelAll`. -/
def findContext (s : FdTables T) (fd : ℤ) : TableAccess T :=
  if s.contextsInt < fd then ⟨s, none, true⟩ else ⟨s, some (fd, s.contexts), false⟩

/-- The beginning of `delEvent`. -/
def delEvent (s : FdTables T) (fd : ℤ) : TableAccess T := s.findContext fd

/-- The beginning of `cancelEvent`. -/
def cancelEvent (s : FdTables T) (fd : ℤ) : TableAccess T := s.findContext fd

/-- The beginning of `cancelAll`. -/
def cancelAll (s : FdTables T) (fd : ℤ) : TableAccess T := s.findContext fd

/-- `del`. -/
def del (s : FdTables T) (fd : ℤ) : TableAccess T :=
  if s.datasInt ≤ fd then ⟨s, none, false⟩
  else ⟨{ s with datas := s.datas.set fd.toNat false }, some (fd, s.datas.length), false⟩

/-- The index is inside of the table. -/
def Inside (access : ℤ × ℕ) : Prop := 0 ≤ access.1 ∧ access.1 < access.2

instance (access : ℤ × ℕ) : Decidable (Inside access) := inferInstanceAs (Decidable (_ ∧ _))

/-- What the sizes and the waiting callers can be. -/
structure Sized (s : FdTables T) : Prop where
  contexts_ge : 3 ≤ s.contexts
  contexts_lt : s.contexts < 2 ^ 32
  datas_ge : 3 ≤ s.datas.length
  datas_lt : s.datas.length < 2 ^ 32
  adding : ∀ t fd, s.caller t = .adding fd → IsInt fd ∧ 0 ≤ fd
  creating : ∀ t fd, s.caller t = .creating fd → IsInt fd

variable {s s' : FdTables T} {t : T} {fd : ℤ}

/-- The size of a table as an `int`. -/
theorem signed_size {n : ℕ} (hlt : n < 2 ^ 32) :
    signed 31 n = if n < 2 ^ 31 then (n : ℤ) else n - 2 ^ 32 := by
  rw [signed_natCast, Nat.mod_eq_of_lt hlt]

/-- A size is not smaller than it is as an `int`. -/
theorem le_of_signed {n : ℕ} (h : fd < signed 31 n) : fd < n := lt_of_lt_of_le h (signed_le 31 n)

/-- One and a half times a descriptor is a size with room for it, from 2 on. -/
theorem lt_grownSize (hfd : 0 ≤ fd) : fd < grownSize fd ↔ 2 ≤ fd := by
  unfold grownSize
  omega

/-- The sizes the table is made to have. -/
theorem grownSize_lt (hfd : IsInt fd) : grownSize fd < 2 ^ 32 := by
  have hlt := hfd.2
  unfold grownSize
  omega

/-- A resized table has the size. -/
theorem length_resize (datas : List Bool) (size : ℕ) : (resize datas size).length = size := by
  unfold resize
  rw [List.length_append, List.length_take, List.length_replicate]
  omega

/-- The tables after their constructors. -/
theorem Sized.start : (FdTables.start : FdTables T).Sized where
  contexts_ge := by norm_num [FdTables.start]
  contexts_lt := by norm_num [FdTables.start]
  datas_ge := by norm_num [FdTables.start]
  datas_lt := by norm_num [FdTables.start]
  adding t fd h := by cases h
  creating t fd h := by cases h

/-- No index, nothing to be inside of. -/
theorem forall_inside_none : ∀ access ∈ (none : Option (ℤ × ℕ)), Inside access := fun _ h => by cases h

/-- One index. -/
theorem forall_inside_some {n : ℕ} : (∀ access ∈ some (fd, n), Inside access) ↔ 0 ≤ fd ∧ fd < n := by
  simp only [Option.mem_some_iff, forall_eq']
  exact Iff.rfl

/-- The comparison of the other three functions of `IOManager` is wrong for one descriptor. -/
theorem inside_findContext (h : s.Sized) (hint : IsInt fd) (hfd : 0 ≤ fd) :
    (∀ access ∈ (s.findContext fd).access, Inside access) ↔ fd ≠ s.contexts := by
  have hsize := signed_size h.contexts_lt
  have hlt := h.contexts_lt
  have hmax := hint.2
  unfold findContext contextsInt
  split
  · refine iff_of_true forall_inside_none ?_
    split at hsize
    · omega
    · omega
  · rw [forall_inside_some]
    split at hsize
    · omega
    · omega

/-- It changes nothing. -/
theorem tables_findContext (s : FdTables T) (fd : ℤ) : (s.findContext fd).tables = s := by
  unfold findContext
  split
  · rfl
  · rfl

/-- It refuses the descriptors that are larger. -/
theorem refused_findContext (h : s.Sized) (hint : IsInt fd) (hfd : 0 ≤ fd) :
    (s.contexts ≤ fd → (s.findContext fd).refused = true) ↔ fd ≠ s.contexts := by
  have hsize := signed_size h.contexts_lt
  have hlt := h.contexts_lt
  have hmax := hint.2
  unfold findContext contextsInt
  split
  · refine iff_of_true (fun _ => rfl) ?_
    split at hsize
    · omega
    · omega
  · split at hsize
    · refine ⟨fun hrefuse heq => ?_, fun hne hle => ?_⟩
      · cases hrefuse heq.ge
      · omega
    · omega

/-- A comparison shared by three functions. -/
theorem Sized.find_iff (h : s.Sized) (hfd : IsInt fd ∧ 0 ≤ fd) :
    ((∀ access ∈ (s.findContext fd).access, Inside access) ∧
      (s.contexts ≤ fd → (s.findContext fd).refused = true)) ↔ fd ≠ s.contexts := by
  rw [inside_findContext h hfd.1 hfd.2, refused_findContext h hfd.1 hfd.2, and_self]

/-- `del`. -/
theorem Sized.del (h : s.Sized) : (s.del fd).tables.Sized := by
  have hlength : (s.datas.set fd.toNat false).length = s.datas.length := List.length_set
  unfold FdTables.del
  split
  · exact h
  · exact { h with datas_ge := hlength ▸ h.datas_ge, datas_lt := hlength ▸ h.datas_lt }

/-- `del` compares as `get` does. -/
theorem inside_del : (∀ access ∈ (s.del fd).access, Inside access) ↔ 0 ≤ fd ∨ s.datasInt ≤ fd := by
  unfold del
  split
  · rename_i hlarge
    exact iff_of_true forall_inside_none (Or.inr hlarge)
  · rename_i hsmall
    rw [forall_inside_some, and_iff_left (le_of_signed (not_le.mp hsmall)), or_iff_left hsmall]

section Calls

variable [DecidableEq T]

/-- A caller moves on. -/
def move (s : FdTables T) (t : T) (place : TableCaller) : FdTables T :=
  { s with caller := Function.update s.caller t place }

/-- `addEvent` under the read lock. -/
def addEvent (s : FdTables T) (t : T) (fd : ℤ) : TableAccess T :=
  if s.contextsInt > fd then ⟨s, some (fd, s.contexts), false⟩
  else ⟨s.move t (.adding fd), none, false⟩

/-- `addEvent` under the write lock: compare again, and make the table larger. -/
def addEventWrite (s : FdTables T) (t : T) (fd : ℤ) : TableAccess T :=
  if s.contextsInt > fd then ⟨s.move t .idle, some (fd, s.contexts), false⟩
  else ⟨{ s.move t .idle with contexts := grownSize fd }, some (fd, grownSize fd), false⟩

/-- `get` under the read lock. -/
def get (s : FdTables T) (t : T) (fd : ℤ) (autoCreate : Bool) : TableAccess T :=
  if fd = -1 then ⟨s, none, false⟩
  else if s.datasInt ≤ fd then
    if autoCreate = false then ⟨s, none, false⟩ else ⟨s.move t (.creating fd), none, false⟩
  else if s.datas[fd.toNat]?.getD false || !autoCreate then ⟨s, some (fd, s.datas.length), false⟩
  else ⟨s.move t (.creating fd), some (fd, s.datas.length), false⟩

/-- `get` under the write lock: it does not look again. A negative number is no size. -/
def getWrite (s : FdTables T) (t : T) (fd : ℤ) : TableAccess T :=
  let datas := if fd ≥ s.datasInt then resize s.datas (grownSize fd) else s.datas
  ⟨{ s.move t .idle with datas := datas.set fd.toNat true }, some (fd, datas.length), false⟩

/-- The critical section of a call. -/
def call (s : FdTables T) : TableCall T → TableAccess T
  | .addEvent t fd => s.addEvent t fd
  | .addEventWrite t =>
    match s.caller t with
    | .adding fd => s.addEventWrite t fd
    | _ => ⟨s, none, false⟩
  | .delEvent fd => s.delEvent fd
  | .cancelEvent fd => s.cancelEvent fd
  | .cancelAll fd => s.cancelAll fd
  | .get t fd autoCreate => s.get t fd autoCreate
  | .getWrite t =>
    match s.caller t with
    | .creating fd => s.getWrite t fd
    | _ => ⟨s, none, false⟩
  | .del fd => s.del fd

/-- Perform one critical section. -/
def step (s : FdTables T) (c : TableCall T) : Except IOFault (FdTables T) :=
  if ∀ access ∈ (s.call c).access, Inside access then .ok (s.call c).tables else .error .outOfRange

/-- A caller starts a call when it is idle and goes on when it has given up a read lock. -/
def Permitted (s : FdTables T) : TableCall T → Prop
  | .addEvent t fd => s.caller t = .idle ∧ IsInt fd ∧ 0 ≤ fd
  | .addEventWrite t => ∃ fd, s.caller t = .adding fd
  | .delEvent fd | .cancelEvent fd | .cancelAll fd => IsInt fd ∧ 0 ≤ fd
  | .get t fd _ => s.caller t = .idle ∧ IsInt fd
  | .getWrite t => ∃ fd, s.caller t = .creating fd
  | .del fd => IsInt fd

/-- The call returns `false` for a descriptor that is not inside of its table. -/
def Refuses (s : FdTables T) : TableCall T → Prop
  | .delEvent fd => s.contexts ≤ fd → (s.delEvent fd).refused = true
  | .cancelEvent fd => s.contexts ≤ fd → (s.cancelEvent fd).refused = true
  | .cancelAll fd => s.contexts ≤ fd → (s.cancelAll fd).refused = true
  | _ => True

/-- Every index of the call is inside of its table, and a descriptor that is not is refused. -/
structure Guarded (s : FdTables T) (c : TableCall T) : Prop where
  inside : ∀ access ∈ (s.call c).access, Inside access
  refuses : s.Refuses c

/-- When the comparison that a call makes is the right one. -/
def Sound (s : FdTables T) : TableCall T → Prop
  | .addEvent _ _ => True
  | .addEventWrite t => ∀ fd, s.caller t = .adding fd → s.contexts < 2 ^ 31 ∨ 2 ≤ fd
  | .delEvent fd | .cancelEvent fd | .cancelAll fd => fd ≠ s.contexts
  | .get _ fd _ => 0 ≤ fd ∨ fd = -1 ∨ s.datasInt ≤ fd
  | .getWrite t => ∀ fd, s.caller t = .creating fd → 0 ≤ fd ∧ (s.datas.length < 2 ^ 31 ∨ 2 ≤ fd)
  | .del fd => 0 ≤ fd ∨ s.datasInt ≤ fd

/-- A caller that moves on with a descriptor it may have. -/
theorem Sized.move (h : s.Sized) {place : TableCaller} (hadding : ∀ fd, place = .adding fd → IsInt fd ∧ 0 ≤ fd)
    (hcreating : ∀ fd, place = .creating fd → IsInt fd) : (s.move t place).Sized := by
  refine { h with adding := fun u fd hu => ?_, creating := fun u fd hu => ?_ }
  · by_cases hut : u = t
    · subst hut
      exact hadding fd (by simpa [FdTables.move] using hu)
    · exact h.adding u fd (by simpa [FdTables.move, Function.update_of_ne hut] using hu)
  · by_cases hut : u = t
    · subst hut
      exact hcreating fd (by simpa [FdTables.move] using hu)
    · exact h.creating u fd (by simpa [FdTables.move, Function.update_of_ne hut] using hu)

/-- A caller that ends its call. -/
theorem Sized.move_idle (h : s.Sized) : (s.move t .idle).Sized :=
  h.move (fun _ hadding => by cases hadding) (fun _ hcreating => by cases hcreating)

/-- The read lock of `addEvent` always finds an index inside of the table, or none. -/
theorem inside_addEvent (hfd : 0 ≤ fd) : ∀ access ∈ (s.addEvent t fd).access, Inside access := by
  unfold addEvent
  split
  · rename_i hlarge
    exact forall_inside_some.mpr ⟨hfd, le_of_signed hlarge⟩
  · exact forall_inside_none

/-- The write lock of `addEvent` makes the table large enough, unless its size is negative as an `int`. -/
theorem inside_addEventWrite (h : s.Sized) (hfd : 0 ≤ fd) :
    (∀ access ∈ (s.addEventWrite t fd).access, Inside access) ↔ s.contexts < 2 ^ 31 ∨ 2 ≤ fd := by
  have hge := h.contexts_ge
  have hsize := signed_size h.contexts_lt
  unfold addEventWrite contextsInt
  split
  · rename_i hlarge
    refine iff_of_true (forall_inside_some.mpr ⟨hfd, le_of_signed hlarge⟩) ?_
    split at hsize
    · rename_i hlow
      exact Or.inl hlow
    · have hlt := h.contexts_lt
      omega
  · rename_i hsmall
    rw [forall_inside_some, lt_grownSize hfd, and_iff_right hfd]
    refine ⟨Or.inr, fun hcase => hcase.elim (fun hlow => ?_) id⟩
    rw [if_pos hlow] at hsize
    omega

/-- The read lock of `get` uses the index when the size is larger than it, also when it is negative. -/
theorem inside_get {autoCreate : Bool} :
    (∀ access ∈ (s.get t fd autoCreate).access, Inside access) ↔ 0 ≤ fd ∨ fd = -1 ∨ s.datasInt ≤ fd := by
  unfold get
  split
  · rename_i hclosed
    exact iff_of_true forall_inside_none (Or.inr (Or.inl hclosed))
  · rename_i hopen
    split
    · rename_i hlarge
      refine iff_of_true ?_ (Or.inr (Or.inr hlarge))
      split
      · exact forall_inside_none
      · exact forall_inside_none
    · rename_i hsmall
      have hlt : fd < s.datas.length := le_of_signed (not_le.mp hsmall)
      have hiff : (0 ≤ fd ∧ fd < s.datas.length) ↔ 0 ≤ fd ∨ fd = -1 ∨ s.datasInt ≤ fd := by
        rw [and_iff_left hlt, or_iff_left (not_or.mpr ⟨hopen, hsmall⟩)]
      split
      · rw [forall_inside_some]
        exact hiff
      · rw [forall_inside_some]
        exact hiff

/-- The write lock of `get` makes the table large enough for a descriptor, unless the size is negative as an
`int`. -/
theorem inside_getWrite (h : s.Sized) : (∀ access ∈ (s.getWrite t fd).access, Inside access) ↔
    0 ≤ fd ∧ (s.datas.length < 2 ^ 31 ∨ 2 ≤ fd) := by
  have hge := h.datas_ge
  have hlt := h.datas_lt
  have hsize := signed_size h.datas_lt
  unfold getWrite
  dsimp only
  rw [forall_inside_some]
  refine and_congr_right fun hfd => ?_
  unfold datasInt
  split
  · rename_i hlarge
    rw [length_resize, lt_grownSize hfd]
    refine ⟨Or.inr, fun hcase => hcase.elim (fun hlow => ?_) id⟩
    rw [if_pos hlow] at hsize
    omega
  · rename_i hsmall
    refine iff_of_true (le_of_signed (not_le.mp hsmall)) ?_
    split at hsize
    · rename_i hlow
      exact Or.inl hlow
    · omega

/-- A call that does not end the run. -/
theorem step_eq_ok_iff {c : TableCall T} : s.step c = .ok s' ↔
    (∀ access ∈ (s.call c).access, Inside access) ∧ (s.call c).tables = s' := by
  unfold step
  split
  · rename_i hinside
    rw [and_iff_right hinside, Except.ok.injEq]
  · rename_i hout
    exact iff_of_false (fun h => by cases h) fun h => hout h.1

/-- `addEvent` under the read lock. -/
theorem Sized.addEvent (h : s.Sized) (hfd : IsInt fd ∧ 0 ≤ fd) : (s.addEvent t fd).tables.Sized := by
  unfold FdTables.addEvent
  split
  · exact h
  · refine h.move (fun fd' hadding => ?_) (fun _ hcreating => by cases hcreating)
    cases hadding
    exact hfd

/-- `addEvent` under the write lock. -/
theorem Sized.addEventWrite (h : s.Sized) (hfd : IsInt fd ∧ 0 ≤ fd)
    (hinside : ∀ access ∈ (s.addEventWrite t fd).access, Inside access) :
    (s.addEventWrite t fd).tables.Sized := by
  have hidle : (s.move t .idle).Sized := h.move_idle
  unfold FdTables.addEventWrite at hinside ⊢
  split
  · exact hidle
  · rename_i hsmall
    rw [if_neg hsmall, forall_inside_some, lt_grownSize hfd.2] at hinside
    refine { hidle with contexts_ge := ?_, contexts_lt := grownSize_lt hfd.1 }
    have htwo := hinside.2
    change 3 ≤ grownSize fd
    unfold grownSize
    omega

/-- `get` under the read lock. -/
theorem Sized.get {autoCreate : Bool} (h : s.Sized) (hfd : IsInt fd) : (s.get t fd autoCreate).tables.Sized := by
  have hcreating : (s.move t (.creating fd)).Sized := by
    refine h.move (fun _ hadding => by cases hadding) fun fd' hcreating => ?_
    cases hcreating
    exact hfd
  unfold FdTables.get
  split
  · exact h
  · split
    · split
      · exact h
      · exact hcreating
    · split
      · exact h
      · exact hcreating

/-- `get` under the write lock. -/
theorem Sized.getWrite (h : s.Sized) (hfd : IsInt fd)
    (hinside : ∀ access ∈ (s.getWrite t fd).access, Inside access) : (s.getWrite t fd).tables.Sized := by
  have hidle : (s.move t .idle).Sized := h.move_idle
  unfold FdTables.getWrite at hinside ⊢
  dsimp only at hinside ⊢
  rw [forall_inside_some] at hinside
  refine { hidle with datas_ge := ?_, datas_lt := ?_ }
  · change 3 ≤ (List.set _ _ _).length
    rw [List.length_set]
    split
    · rename_i hlarge
      rw [if_pos hlarge, length_resize, lt_grownSize hinside.1] at hinside
      have htwo := hinside.2
      rw [length_resize]
      unfold grownSize
      omega
    · exact h.datas_ge
  · change (List.set _ _ _).length < 2 ^ 32
    rw [List.length_set]
    split
    · rw [length_resize]
      exact grownSize_lt hfd
    · exact h.datas_lt

/-- A critical section whose index is inside of its table leaves sizes that the next one can have. -/
theorem Sized.step {c : TableCall T} (h : s.Sized) (hc : Permitted s c) (hok : s.step c = .ok s') :
    s'.Sized := by
  obtain ⟨hinside, rfl⟩ := step_eq_ok_iff.mp hok
  cases c with
  | addEvent t fd => exact h.addEvent hc.2
  | addEventWrite t =>
    obtain ⟨fd, hcaller⟩ := hc
    simp only [call, hcaller] at hinside ⊢
    exact h.addEventWrite (h.adding t fd hcaller) hinside
  | delEvent fd =>
    rw [call, delEvent, tables_findContext]
    exact h
  | cancelEvent fd =>
    rw [call, cancelEvent, tables_findContext]
    exact h
  | cancelAll fd =>
    rw [call, cancelAll, tables_findContext]
    exact h
  | get t fd autoCreate => exact h.get hc.2
  | getWrite t =>
    obtain ⟨fd, hcaller⟩ := hc
    simp only [call, hcaller] at hinside ⊢
    exact h.getWrite (h.creating t fd hcaller) hinside
  | del fd => exact h.del

/-- The sizes that are reached. -/
theorem Sized.of_reaches (h : Runs.Reaches FdTables.step Permitted FdTables.start s) : s.Sized :=
  h.invariant Sized Sized.start fun _ _ _ hs hc hok => hs.step hc hok

/-- In every state that is reached, a call uses its index only inside of the table, and refuses a
descriptor that is not, exactly when the comparison it makes is the right one. -/
theorem guarded_iff_sound {c : TableCall T} (h : Runs.Reaches FdTables.step Permitted FdTables.start s)
    (hc : Permitted s c) : s.Guarded c ↔ s.Sound c := by
  have hsized := Sized.of_reaches h
  have hiff : s.Guarded c ↔ (∀ access ∈ (s.call c).access, Inside access) ∧ s.Refuses c :=
    ⟨fun h => ⟨h.inside, h.refuses⟩, fun h => ⟨h.1, h.2⟩⟩
  rw [hiff]
  cases c with
  | addEvent t fd => exact iff_of_true ⟨inside_addEvent hc.2.2, trivial⟩ trivial
  | addEventWrite t =>
    obtain ⟨fd, hcaller⟩ := hc
    simp only [Refuses, Sound, call, hcaller, and_true, TableCaller.adding.injEq, forall_eq']
    exact inside_addEventWrite hsized (hsized.adding t fd hcaller).2
  | delEvent fd => exact hsized.find_iff hc
  | cancelEvent fd => exact hsized.find_iff hc
  | cancelAll fd => exact hsized.find_iff hc
  | get t fd autoCreate => exact (and_iff_left trivial).trans inside_get
  | getWrite t =>
    obtain ⟨fd, hcaller⟩ := hc
    simp only [Refuses, Sound, call, hcaller, and_true, TableCaller.creating.injEq, forall_eq']
    exact inside_getWrite hsized
  | del fd => exact (and_iff_left trivial).trans inside_del

/-- `delEvent` with the first descriptor that is too large, in a run with one `addEvent` before it. -/
theorem guarded_iff_sound_grown : ∃ s : FdTables Unit, s.contexts = 60 ∧
    (s.Guarded (.delEvent 60) ↔ (60 : ℤ) ≠ s.contexts) := by
  refine ⟨_, ?_, guarded_iff_sound (.next (.next .start (.addEvent () 40) ?_ rfl) (.addEventWrite ()) ?_ rfl)
    (c := .delEvent 60) ?_⟩
  · rfl
  · exact ⟨rfl, by decide, by decide⟩
  · exact ⟨40, rfl⟩
  · exact ⟨by decide, by decide⟩

/-- In a new `IOManager`, `delEvent` uses the index 32 in a table of 32 entries. -/
theorem not_guarded_delEvent : ∃ s : FdTables Unit, ∃ c, Runs.Reaches FdTables.step Permitted FdTables.start s ∧
    Permitted s c ∧ ¬ s.Guarded c := by
  refine ⟨FdTables.start, .delEvent 32, .start, ⟨by decide, by decide⟩, fun h => ?_⟩
  exact absurd (h.inside (32, 32) rfl) (by decide)

end Calls

section Models

variable {S F C : Type} {m : IOManager S F C} {table : FdTable} {event : Event} {ctl : Bool}

/-- The sizes are those of the tables of the other models, which keep below the largest `int`. -/
structure SizesOf (s : FdTables T) (m : IOManager S F C) (table : FdTable) : Prop where
  contexts_eq : s.contexts = m.fdContexts.length
  datas_eq : s.datas = table.datas.map Option.isSome
  contexts_lt : s.contexts < 2 ^ 31
  datas_lt : s.datas.length < 2 ^ 31

/-- The size as an `int` is the size. -/
theorem SizesOf.contextsInt_eq (h : s.SizesOf m table) : s.contextsInt = m.fdContexts.length := by
  have hlt := h.contexts_lt
  rw [contextsInt, signed_size (by omega), if_pos hlt, h.contexts_eq]

/-- The size as an `int` is the size. -/
theorem SizesOf.datasInt_eq (h : s.SizesOf m table) : s.datasInt = table.datas.length := by
  have hlt := h.datas_lt
  rw [datasInt, signed_size (by omega), if_pos hlt, h.datas_eq, List.length_map]

/-- The index of the three lookups is wrong at the size. -/
theorem SizesOf.inside_iff (h : s.SizesOf m table) (n : ℕ) :
    (¬ ∀ access ∈ (s.findContext n).access, Inside access) ↔ n = m.fdContexts.length := by
  unfold findContext
  rw [h.contextsInt_eq]
  split
  · rename_i hlarge
    exact iff_of_false (not_not_intro forall_inside_none) (by omega)
  · rw [forall_inside_some, h.contexts_eq]
    omega

/-- A lookup that refuses larger descriptors is out of range at the size. -/
theorem find_outOfRange_iff {A : Type} {n : ℕ} {refused : A} {f : FdContext S F C → Except IOFault A}
    (hf : ∀ ctx, f ctx ≠ .error .outOfRange) :
    (if m.fdContexts.length < n then Except.ok refused else
      match m.fdContexts[n]? with
      | none => .error .outOfRange
      | some ctx => f ctx) = .error .outOfRange ↔ n = m.fdContexts.length := by
  split
  · rename_i hlarge
    exact iff_of_false (fun h => by cases h) hlarge.ne'
  · rename_i hsmall
    split
    · rename_i hnone
      exact iff_of_true rfl (le_antisymm (not_lt.mp hsmall) (List.getElem?_eq_none_iff.mp hnone))
    · rename_i ctx hctx
      exact iff_of_false (hf ctx) (List.getElem?_eq_some_iff.mp hctx).1.ne

/-- A chain whose parts are not out of range is not. -/
theorem bind_ne_outOfRange {A B : Type} {x : Except IOFault A} {f : A → Except IOFault B}
    (hx : x ≠ .error .outOfRange) (hf : ∀ a, f a ≠ .error .outOfRange) : x.bind f ≠ .error .outOfRange := by
  cases x with
  | error e => exact fun h => hx (by cases h; rfl)
  | ok a => exact hf a

/-- The context of an event. -/
theorem getContext_ne (ctx : FdContext S F C) (event : Event) : ctx.getContext event ≠ .error .outOfRange := by
  unfold FdContext.getContext
  split
  · exact fun h => by cases h
  · exact fun h => by cases h

/-- Triggering an event uses no index. -/
theorem triggerEvent_ne (ctx : FdContext S F C) (event : Event) :
    ctx.triggerEvent event ≠ .error .outOfRange := by
  unfold FdContext.triggerEvent
  split
  · exact fun h => by cases h
  · refine bind_ne_outOfRange (getContext_ne ctx event) fun slot => ?_
    dsimp only
    split
    · exact fun h => by cases h
    · split
      · exact fun h => by cases h
      · exact fun h => by cases h

/-- Nor does triggering it on a condition. -/
theorem triggerIf_ne (mask : EventMask) (event : Event)
    (acc : FdContext S F C × ℤ × List (Event × SlotHistory.Entry (Registration S F C))) :
    IOManager.triggerIf mask event acc ≠ .error .outOfRange := by
  unfold IOManager.triggerIf
  split
  · exact fun h => by cases h
  · exact bind_ne_outOfRange (triggerEvent_ne acc.1 event) fun _ h => by cases h

/-- `delEvent` of the manager is out of range where its index is not inside of the table. -/
theorem SizesOf.delEvent_iff (h : s.SizesOf m table) (n : ℕ) : m.delEvent n event ctl = .error .outOfRange ↔
    ¬ ∀ access ∈ (s.delEvent n).access, Inside access := by
  refine (find_outOfRange_iff fun ctx => ?_).trans (h.inside_iff n).symm
  split
  · exact fun h => by cases h
  · dsimp only
    split
    · exact fun h => by cases h
    · exact bind_ne_outOfRange (getContext_ne ctx event) fun _ h => by cases h

/-- `cancelEvent` of the manager. -/
theorem SizesOf.cancelEvent_iff (h : s.SizesOf m table) (n : ℕ) :
    m.cancelEvent n event ctl = .error .outOfRange ↔
      ¬ ∀ access ∈ (s.cancelEvent n).access, Inside access := by
  refine (find_outOfRange_iff fun ctx => ?_).trans (h.inside_iff n).symm
  split
  · exact fun h => by cases h
  · dsimp only
    split
    · exact fun h => by cases h
    · exact bind_ne_outOfRange (triggerEvent_ne ctx event) fun _ h => by cases h

/-- `cancelAll` of the manager. -/
theorem SizesOf.cancelAll_iff (h : s.SizesOf m table) (n : ℕ) : m.cancelAll n ctl = .error .outOfRange ↔
    ¬ ∀ access ∈ (s.cancelAll n).access, Inside access := by
  refine (find_outOfRange_iff fun ctx => ?_).trans (h.inside_iff n).symm
  split
  · exact fun h => by cases h
  · split
    · exact fun h => by cases h
    · refine bind_ne_outOfRange (triggerIf_ne _ _ _) fun first => bind_ne_outOfRange (triggerIf_ne _ _ _) fun _ => ?_
      split
      · exact fun h => by cases h
      · exact fun h => by cases h

/-- The table after the write lock of `addEvent` is the one that the manager has then. -/
theorem SizesOf.addEventWrite_eq [DecidableEq T] (h : s.SizesOf m table) (t : T) (n : ℕ) :
    (s.addEventWrite t n).tables.contexts = (m.growFor n).fdContexts.length := by
  unfold addEventWrite IOManager.growFor
  rw [h.contextsInt_eq]
  split
  · rename_i hlarge
    rw [if_pos (by omega)]
    exact h.contexts_eq
  · rename_i hsmall
    rw [if_neg (by omega)]
    change grownSize n = (List.take _ _ ++ List.replicate _ _).length
    rw [List.length_append, List.length_take, List.length_replicate]
    unfold grownSize
    omega

/-- `get` of the table is out of range where its index is not inside of the table. -/
theorem SizesOf.get_iff [DecidableEq T] (h : s.SizesOf m table) (t : T) (fd : ℤ) (autoCreate : Bool) :
    table.lookup fd autoCreate = .error .outOfRange ↔
      ¬ ∀ access ∈ (s.get t fd autoCreate).access, Inside access := by
  rw [inside_get, h.datasInt_eq]
  unfold FdTable.lookup
  split
  · rename_i hclosed
    exact iff_of_false (fun h => by cases h) (not_not_intro (Or.inr (Or.inl hclosed)))
  · rename_i hopen
    split
    · rename_i hlarge
      exact iff_of_false (fun h => by cases h) (not_not_intro (Or.inr (Or.inr hlarge)))
    · rename_i hsmall
      split
      · rename_i hneg
        exact iff_of_true rfl (not_or.mpr ⟨not_le.mpr hneg, not_or.mpr ⟨hopen, hsmall⟩⟩)
      · rename_i hnonneg
        refine iff_of_false ?_ (not_not_intro (Or.inl (not_lt.mp hnonneg)))
        split
        · exact fun h => by cases h
        · exact fun h => by cases h

/-- The creation of a context for a descriptor. -/
theorem SizesOf.getWrite_iff [DecidableEq T] (h : s.SizesOf m table) (t : T) (n : ℕ) :
    table.create n = .error .outOfRange ↔ ¬ ∀ access ∈ (s.getWrite t n).access, Inside access := by
  have hresized : (table.resized n).length =
      (if (n : ℤ) ≥ s.datasInt then resize s.datas (grownSize n) else s.datas).length := by
    unfold FdTable.resized
    rw [h.datasInt_eq]
    split
    · rename_i hlarge
      rw [if_pos (by omega), length_resize, List.length_append, List.length_replicate]
      unfold grownSize
      omega
    · rename_i hsmall
      rw [if_neg (by omega), h.datas_eq, List.length_map]
  unfold getWrite FdTable.create
  dsimp only
  rw [forall_inside_some, ← hresized, Int.toNat_natCast]
  split
  · rename_i hroom
    exact iff_of_false (fun h => by cases h) (not_not_intro ⟨by omega, by exact_mod_cast hroom⟩)
  · rename_i hroom
    exact iff_of_true rfl fun hinside => hroom (by exact_mod_cast hinside.2)

/-- `del` of the table. -/
theorem SizesOf.del_iff (h : s.SizesOf m table) (fd : ℤ) :
    table.del fd = .error .outOfRange ↔ ¬ ∀ access ∈ (s.del fd).access, Inside access := by
  rw [inside_del, h.datasInt_eq]
  unfold FdTable.del
  split
  · rename_i hlarge
    exact iff_of_false (fun h => by cases h) (not_not_intro (Or.inr hlarge))
  · rename_i hsmall
    split
    · rename_i hneg
      exact iff_of_true rfl (not_or.mpr ⟨not_le.mpr hneg, hsmall⟩)
    · rename_i hnonneg
      exact iff_of_false (fun h => by cases h) (not_not_intro (Or.inl (not_lt.mp hnonneg)))

end Models

end FdTables

end Bobliew.Hook
