import Bobliew.Hook.Descriptors
import Bobliew.Lib.Runs

/-!
# Concurrent calls of `FdManager::get`

The table of `FdManager` holds shared pointers to contexts. A call of `get` looks the descriptor up
under the read lock, and when it finds no context and is to create one, it gives the lock up and makes
a context under the write lock. Each of the two is one step here, and any number of callers take turns.

The second step does not look again: it overwrites whatever another caller has put there in between.
As long as no step finds its entry taken, all callers get the context that is in the table.
-/

namespace Bobliew.Hook

/-- The table, the contexts made so far, each at its address, and the kernel's descriptors. -/
structure FdTable where
  kernel : ℕ → Option KernelFile
  objects : List FdCtx
  datas : List (Option ℕ)

namespace FdTable

/-- `m_datas[fd]`. -/
def slot (table : FdTable) (fd : ℤ) : Option ℕ := if fd < 0 then none else (table.datas[fd.toNat]?).join

/-- `FdManager::get` under the read lock: what it returns, or nothing when it goes on to create. -/
def lookup (table : FdTable) (fd : ℤ) (autoCreate : Bool) : Except IOFault (Option (Option ℕ)) :=
  if fd = -1 then .ok (some none)
  else if (table.datas.length : ℤ) ≤ fd then .ok (if autoCreate then none else some none)
  else if fd < 0 then .error .outOfRange
  else if (table.slot fd).isSome || !autoCreate then .ok (some (table.slot fd))
  else .ok none

/-- `m_datas` with room for a descriptor. -/
def resized (table : FdTable) (fd : ℕ) : List (Option ℕ) :=
  if fd ≥ table.datas.length then table.datas ++ List.replicate (3 * fd / 2 - table.datas.length) none
  else table.datas

/-- `FdManager::get` under the write lock: the table afterwards and the new context. -/
def create (table : FdTable) (fd : ℤ) : Except IOFault (FdTable × ℕ) :=
  let made := FdCtx.init (table.kernel fd.toNat)
  let ctx := table.objects.length
  if fd.toNat < (table.resized fd.toNat).length then
    .ok ({ kernel := Function.update table.kernel fd.toNat made.2
           objects := table.objects ++ [made.1]
           datas := (table.resized fd.toNat).set fd.toNat (some ctx) }, ctx)
  else .error .outOfRange

/-- `FdManager::del`. -/
def del (table : FdTable) (fd : ℤ) : Except IOFault FdTable :=
  if (table.datas.length : ℤ) ≤ fd then .ok table
  else if fd < 0 then .error .outOfRange
  else .ok { table with datas := table.datas.set fd.toNat none }

variable {table table' : FdTable} {fd : ℤ} {ctx : ℕ}

/-- A new context is in the table, and the other entries are as before. -/
theorem slot_create (h : table.create fd = .ok (table', ctx)) (hfd : 0 ≤ fd) (fd' : ℤ) :
    table'.slot fd' = if fd' = fd then some ctx else table.slot fd' := by
  unfold create at h
  dsimp only at h
  split at h
  · rename_i hroom
    cases h
    unfold slot
    by_cases hneg : fd' < 0
    · rw [if_pos hneg, if_pos hneg, if_neg (by omega)]
    · rw [if_neg hneg, if_neg hneg]
      dsimp only
      by_cases heq : fd' = fd
      · subst heq
        rw [if_pos rfl, List.getElem?_set_self hroom]
        rfl
      · rw [if_neg heq, List.getElem?_set_ne (by omega), resized]
        split
        · exact join_getElem?_append_replicate _ _ _
        · rfl
  · cases h

/-- What a lookup returns is the entry. -/
theorem slot_of_lookup {autoCreate : Bool} (h : table.lookup fd autoCreate = .ok (some (some ctx))) :
    table.slot fd = some ctx := by
  unfold lookup at h
  split at h
  · cases h
  · split at h
    · split at h <;> cases h
    · split at h
      · cases h
      · split at h
        · exact Option.some.inj (Except.ok.inj h)
        · cases h

/-- Only a call that creates goes on, and only for a descriptor whose entry is empty. -/
theorem lookup_eq_none {autoCreate : Bool} (h : table.lookup fd autoCreate = .ok none) :
    0 ≤ fd ∧ autoCreate = true ∧ table.slot fd = none := by
  unfold lookup at h
  split at h
  · cases h
  · split at h
    · rename_i hlarge
      split at h
      · rename_i hauto
        refine ⟨by omega, hauto, ?_⟩
        unfold slot
        rw [if_neg (by omega), List.getElem?_eq_none (by omega)]
        rfl
      · cases h
    · split at h
      · cases h
      · rename_i hnonneg
        split at h
        · cases h
        · rename_i hempty
          obtain ⟨hnone, hauto⟩ := not_or.mp (mt Bool.or_eq_true_iff.mpr hempty)
          exact ⟨by omega, by simpa using hauto, by simpa using hnone⟩

/-- Deleting an entry leaves the others alone. -/
theorem slot_del (h : table.del fd = .ok table') {fd' : ℤ} (hne : fd' ≠ fd) :
    table'.slot fd' = table.slot fd' := by
  unfold del at h
  split at h
  · cases h
    rfl
  · split at h
    · cases h
    · cases h
      unfold slot
      by_cases hneg : fd' < 0
      · rw [if_pos hneg, if_pos hneg]
      · rw [if_neg hneg, if_neg hneg]
        dsimp only
        rw [List.getElem?_set_ne (by omega)]

end FdTable

/-- Where a caller is: between calls, or between the two locks. -/
inductive Getting where
  | idle
  | creating (fd : ℤ)
  deriving DecidableEq

/-- The table, the callers, and what the calls have returned so far. -/
structure FdCalls (T : Type) where
  table : FdTable
  caller : T → Getting
  returned : List (ℤ × Option ℕ)

/-- One critical section. -/
inductive FdCall (T : Type) where
  | lookup (t : T) (fd : ℤ) (autoCreate : Bool)
  | create (t : T)
  | del (fd : ℤ)

namespace FdCalls

section Calls

variable {T : Type} {s : FdCalls T} {fd : ℤ}

/-- Before the first call. -/
def start (table : FdTable) : FdCalls T := ⟨table, fun _ => .idle, []⟩

/-- Perform one critical section. -/
def step [DecidableEq T] (s : FdCalls T) : FdCall T → Except IOFault (FdCalls T)
  | .lookup t fd autoCreate => do
    match ← s.table.lookup fd autoCreate with
    | some result => .ok { s with returned := s.returned ++ [(fd, result)] }
    | none => .ok { s with caller := Function.update s.caller t (.creating fd) }
  | .create t =>
    match s.caller t with
    | .idle => .ok s
    | .creating fd => do
      let made ← s.table.create fd
      .ok { table := made.1
            caller := Function.update s.caller t .idle
            returned := s.returned ++ [(fd, some made.2)] }
  | .del fd => do .ok { s with table := ← s.table.del fd }

/-- A caller starts a call when it is idle. -/
def Permitted (s : FdCalls T) : FdCall T → Prop
  | .lookup t _ _ => s.caller t = .idle
  | .create t => s.caller t ≠ .idle
  | .del _ => True

/-- The entry of a descriptor is not deleted. -/
def NoDel (fd : ℤ) : FdCall T → Prop
  | .del fd' => fd' ≠ fd
  | _ => True

/-- A context is made only while the entry of the descriptor is still empty. -/
def StillEmpty (fd : ℤ) (s : FdCalls T) : FdCall T → Prop
  | .create t => s.caller t = .creating fd → s.table.slot fd = none
  | _ => True

/-- All calls that returned a context of the descriptor returned the same one, and the table has it. -/
structure OneContext (fd : ℤ) (s : FdCalls T) : Prop where
  same : ∀ p q, (fd, some p) ∈ s.returned → (fd, some q) ∈ s.returned → p = q
  left : ∀ p, (fd, some p) ∈ s.returned → s.table.slot fd = some p

/-- What was returned is in the table, and contexts are made for descriptors only. -/
structure Settled (fd : ℤ) (s : FdCalls T) : Prop where
  left : ∀ p, (fd, some p) ∈ s.returned → s.table.slot fd = some p
  creating : ∀ t fd', s.caller t = .creating fd' → 0 ≤ fd'

/-- What is in the table is unique. -/
theorem Settled.oneContext (h : Settled fd s) : OneContext fd s where
  same p q hp hq := Option.some.inj ((h.left p hp).symm.trans (h.left q hq))
  left := h.left

end Calls

variable {T : Type} [DecidableEq T] {s s' : FdCalls T} {fd : ℤ}

/-- A lookup returns what is in the table. -/
theorem Settled.lookup {t : T} {fd' : ℤ} {autoCreate : Bool} (h : Settled fd s)
    (hok : s.step (.lookup t fd' autoCreate) = .ok s') : Settled fd s' := by
  obtain ⟨result, hlookup, hok⟩ := Except.exists_of_bind_eq_ok hok
  cases result with
  | some result =>
    cases hok
    refine ⟨fun p hp => ?_, h.creating⟩
    rcases List.mem_append.mp hp with hold | hnew
    · exact h.left p hold
    · obtain ⟨rfl, rfl⟩ := Prod.mk.inj (List.mem_singleton.mp hnew)
      exact FdTable.slot_of_lookup hlookup
  | none =>
    cases hok
    refine ⟨h.left, fun u fd'' hu => ?_⟩
    by_cases htu : u = t
    · subst htu
      obtain rfl : fd' = fd'' := by simpa using hu
      exact (FdTable.lookup_eq_none hlookup).1
    · exact h.creating u fd'' (by simpa [Function.update_of_ne htu] using hu)

/-- A context that is made while the entry is empty is the only one returned. -/
theorem Settled.create {t : T} (h : Settled fd s) (hempty : StillEmpty fd s (.create t))
    (hok : s.step (.create t) = .ok s') : Settled fd s' := by
  simp only [step] at hok
  cases hcaller : s.caller t with
  | idle =>
    rw [hcaller] at hok
    cases hok
    exact h
  | creating fd' =>
    rw [hcaller] at hok
    obtain ⟨made, hcreate, hmade⟩ := Except.exists_of_bind_eq_ok hok
    cases hmade
    have hslot : ∀ fd'', made.1.slot fd'' = if fd'' = fd' then some made.2 else s.table.slot fd'' :=
      FdTable.slot_create hcreate (h.creating t fd' hcaller)
    refine ⟨fun p hp => ?_, fun u fd'' hu => ?_⟩
    · change made.1.slot fd = some p
      rw [hslot]
      rcases List.mem_append.mp hp with hold | hnew
      · by_cases heq : fd = fd'
        · subst heq
          have htaken := h.left p hold
          rw [hempty hcaller] at htaken
          cases htaken
        · rw [if_neg heq]
          exact h.left p hold
      · obtain ⟨heq, hp⟩ := Prod.mk.inj (List.mem_singleton.mp hnew)
        rw [if_pos heq, Option.some.inj hp]
    · by_cases htu : u = t
      · subst htu
        simp at hu
      · exact h.creating u fd'' (by simpa [Function.update_of_ne htu] using hu)

/-- Deleting the entry of another descriptor. -/
theorem Settled.del {fd' : ℤ} (h : Settled fd s) (hne : fd' ≠ fd) (hok : s.step (.del fd') = .ok s') :
    Settled fd s' := by
  obtain ⟨table, hdel, hok⟩ := Except.exists_of_bind_eq_ok hok
  cases hok
  refine ⟨fun p hp => ?_, h.creating⟩
  exact (FdTable.slot_del hdel hne.symm).trans (h.left p hp)

/-- In every run in which contexts are made only for entries that are still empty, all calls that return
a context of a descriptor return the one in the table. -/
theorem oneContext_of_stillEmpty (fd : ℤ) (table : FdTable)
    (h : Runs.Reaches step (fun s call => Permitted s call ∧ NoDel fd call ∧ StillEmpty fd s call)
      (start table) s) : OneContext fd s := by
  refine Settled.oneContext (h.invariant (Settled fd) ⟨?_, ?_⟩ ?_)
  · intro p hp
    cases hp
  · intro t fd' ht
    cases ht
  · intro s call s' hs hcall hok
    obtain ⟨_, hdel, hempty⟩ := hcall
    cases call with
    | lookup t fd' autoCreate => exact hs.lookup hok
    | create t => exact hs.create hempty hok
    | del fd' => exact hs.del hdel hok

/-- The table after the start of the program, with the socket 5 open. -/
def oneSocket : FdTable :=
  ⟨fun fd => if fd = 5 then some ⟨true, 0⟩ else none, [], List.replicate 64 none⟩

/-- One caller makes the context of the socket, and another one finds it. -/
theorem oneContext_of_stillEmpty_turns :
    ∃ s : FdCalls Bool, s.returned = [(5, some 0), (5, some 0)] ∧ OneContext 5 s := by
  refine ⟨_, ?_, oneContext_of_stillEmpty 5 oneSocket (.next (.next (.next .start (.lookup false 5 true) ?_ rfl)
    (.create false) ?_ rfl) (.lookup true 5 true) ?_ rfl)⟩
  · rfl
  · exact ⟨rfl, trivial, trivial⟩
  · exact ⟨(by decide : Getting.creating 5 ≠ Getting.idle), trivial, fun _ => rfl⟩
  · exact ⟨rfl, trivial, trivial⟩

/-- Two callers look the socket up before either makes a context, and get different ones. -/
theorem not_oneContext_between_locks : ∃ s : FdCalls Bool,
    Runs.Reaches step (fun s call => Permitted s call ∧ NoDel 5 call) (start oneSocket) s ∧
      ¬ OneContext 5 s := by
  refine ⟨_, .next (.next (.next (.next .start (.lookup false 5 true) ?_ rfl) (.lookup true 5 true) ?_ rfl)
    (.create false) ?_ rfl) (.create true) ?_ rfl, fun h => ?_⟩
  · exact ⟨rfl, trivial⟩
  · exact ⟨rfl, trivial⟩
  · exact ⟨(by decide : Getting.creating 5 ≠ Getting.idle), trivial⟩
  · exact ⟨(by decide : Getting.creating 5 ≠ Getting.idle), trivial⟩
  · have hsame := h.same 0 1 List.mem_cons_self (List.mem_cons_of_mem _ List.mem_cons_self)
    exact absurd hsame (by decide)

end FdCalls

end Bobliew.Hook
