import Bobliew.Http.ConnectionPool

/-!
# The limits of the connection pool

A pool is created with a number of connections, a life time and a number of requests that are not to be
exceeded. The number of requests is kept. `m_createTime` is never written and both comparisons with it ask
whether the life time is still ahead, so that a connection is handed out at any age; `m_maxSize` is not
consulted, so that a call that finds nothing usable connects however many connections there are.

Both laws hold in the runs whose steps stay clear of this: no scan stops at a connection that is too old and
no release comes in the first `max_alive_time` milliseconds of the clock, and a scan that finds nothing
usable finds room for one more.
-/

namespace Bobliew

namespace Http

namespace HttpConnectionPool

/-- Every connection taken from the idle list was connected, young enough and not used up, and every
connection released in this condition is kept. -/
structure Lawful (limits : PoolLimits) (pool : HttpConnectionPool) : Prop where
  handouts : ∀ h ∈ pool.handouts, h.isConnected = true ∧ h.time ≤ h.born + limits.maxAliveTime ∧
    h.request < limits.maxRequest
  releases : ∀ r ∈ pool.releases, r.isConnected = true → r.time ≤ r.born + limits.maxAliveTime →
    r.request < limits.maxRequest → r.kept = true

/-- The steps that do not depend on the age of a connection: the first connected one in `m_conns` is young
enough when a scan would stop at it, and a connection that is to be kept is released late enough. -/
def AgesKept (limits : PoolLimits) (pool : HttpConnectionPool) : PoolStep → Prop
  | .advance (.entered nowMs) _ => .entered nowMs ∈ pool.calls → limits.maxAliveTime ≤ nowMs →
    ∀ ptr, pool.conns.find? (fun conn => (pool.heap conn).isConnected) = some ptr →
      pool.clock ≤ (pool.heap ptr).born + limits.maxAliveTime
  | .releasePtr ptr => ptr ∈ pool.handedOut → (pool.heap ptr).isConnected = true →
    pool.clock ≤ (pool.heap ptr).born + limits.maxAliveTime →
    (pool.heap ptr).request + 1 < limits.maxRequest → limits.maxAliveTime < pool.clock
  | _ => True

/-- The invariant: no creation time was ever written, and idle connections are not used up. -/
structure Kept (limits : PoolLimits) (pool : HttpConnectionPool) : Prop where
  accounted : Inv pool
  lawful : Lawful limits pool
  unwritten : ∀ ptr, (pool.heap ptr).createTime = 0
  idle : ∀ ptr, ptr ∈ pool.conns ∨ .keeping ptr ∈ pool.calls → (pool.heap ptr).request < limits.maxRequest

section Ages

variable {limits : PoolLimits} {pool : HttpConnectionPool} {call : PoolCall} {ptr : ℕ}

/-- A new pool has handed out and released nothing. -/
theorem Kept.new (limits : PoolLimits) (clock : ℕ) : Kept limits (new clock) where
  accounted := Inv.new clock
  lawful := ⟨fun _ h => absurd h List.not_mem_nil, fun _ h => absurd h List.not_mem_nil⟩
  unwritten _ := rfl
  idle ptr hptr := by
    rcases hptr with hconns | hcalls
    · cases hconns
    · cases hcalls

/-- While no creation time is written, the loop stops at the first connected connection. -/
theorem find_of_scan {heap : ℕ → PooledConnection} {maxAliveTime nowMs : ℕ} {conns : List ℕ}
    (hunwritten : ∀ ptr, (heap ptr).createTime = 0) (h : (scan heap maxAliveTime nowMs conns).2.1 = some ptr) :
    conns.find? (fun conn => (heap conn).isConnected) = some ptr ∧ maxAliveTime ≤ nowMs := by
  induction conns with
  | nil => cases h
  | cons conn conns ih =>
    unfold scan at h
    split_ifs at h with hconnected hold
    · have hclosed : (heap conn).isConnected = false := by simpa using hconnected
      rw [List.find?_cons_of_neg (by rw [hclosed]; exact Bool.false_ne_true)]
      exact ih h
    · rw [hunwritten conn, zero_add] at hold
      obtain ⟨-, hlate⟩ := ih h
      omega
    · cases h
      have hopen : (heap ptr).isConnected = true := by simpa using hconnected
      rw [hunwritten ptr, zero_add] at hold
      exact ⟨List.find?_cons_of_pos hopen, Nat.le_of_not_gt hold⟩

/-- A connection in the hands of a call is neither idle nor handed out. -/
theorem Kept.not_idle_of_handedOut (h : Kept limits pool) (hout : ptr ∈ pool.handedOut) :
    ptr ∉ pool.conns ∧ .keeping ptr ∉ pool.calls := by
  have honce := h.accounted.once ptr
  have howned := h.accounted.owned ptr
  have hpos := List.count_pos_iff.mpr hout
  refine ⟨fun hconns => ?_, fun hcalls => ?_⟩
  · have hsecond := List.count_pos_iff.mpr hconns
    omega
  · have hsum := sum_call (fun call => call.owned.count ptr) hcalls
    have hone : (PoolCall.keeping ptr).owned.count ptr = 1 := List.count_singleton_self
    omega

/-- A scan hands out a connection that keeps the law. -/
theorem Kept.take (h : Kept limits pool) {nowMs : ℕ} (hcall : .entered nowMs ∈ pool.calls)
    (hages : limits.maxAliveTime ≤ nowMs →
      ∀ ptr, pool.conns.find? (fun conn => (pool.heap conn).isConnected) = some ptr →
        pool.clock ≤ (pool.heap ptr).born + limits.maxAliveTime) :
    Kept limits (pool.take limits nowMs (pool.calls.erase (.entered nowMs))) where
  accounted := h.accounted.take hcall
  lawful := by
    refine ⟨fun out hout => ?_, h.lawful.releases⟩
    obtain ⟨hsplit, -, hstops⟩ := scan_spec pool.heap limits.maxAliveTime nowMs pool.conns
    simp only [HttpConnectionPool.take] at hout
    rcases List.mem_append.mp hout with hbefore | hnow
    · exact h.lawful.handouts out hbefore
    · cases hptr : (scan pool.heap limits.maxAliveTime nowMs pool.conns).2.1 with
      | none => rw [hptr] at hnow; cases hnow
      | some ptr =>
        rw [hptr] at hnow hsplit
        have hidle : ptr ∈ pool.conns := by
          rw [hsplit]
          simp
        obtain ⟨hfind, hlate⟩ := find_of_scan h.unwritten hptr
        have hhandout : out = pool.handout ptr := by simpa using hnow
        rw [hhandout]
        exact ⟨(hstops ptr hptr).1, hages hlate ptr hfind, h.idle ptr (Or.inl hidle)⟩
  unwritten := h.unwritten
  idle ptr hptr := by
    obtain ⟨hsplit, -, -⟩ := scan_spec pool.heap limits.maxAliveTime nowMs pool.conns
    rcases hptr with hconns | hcalls
    · refine h.idle ptr (Or.inl ?_)
      rw [hsplit]
      exact List.mem_append_right _ hconns
    · refine h.idle ptr (Or.inr ?_)
      rcases List.mem_cons.mp hcalls with hnew | hother
      · cases hnew
      · exact List.mem_of_mem_erase hother

/-- A release keeps a connection that keeps the law. -/
theorem Kept.releasePtr (h : Kept limits pool) (hout : ptr ∈ pool.handedOut)
    (hages : (pool.heap ptr).isConnected = true →
      pool.clock ≤ (pool.heap ptr).born + limits.maxAliveTime →
      (pool.heap ptr).request + 1 < limits.maxRequest → limits.maxAliveTime < pool.clock) :
    Kept limits (pool.releasePtr limits ptr) where
  accounted := h.accounted.releasePtr hout
  lawful := by
    refine ⟨h.lawful.handouts, fun r hr hopen hyoung hfew => ?_⟩
    simp only [HttpConnectionPool.releasePtr] at hr
    rcases List.mem_append.mp hr with hbefore | hnow
    · exact h.lawful.releases r hbefore hopen hyoung hfew
    · have hrelease := List.mem_singleton.mp hnow
      subst hrelease
      have hlate := hages hopen hyoung hfew
      have hunwritten := h.unwritten ptr
      dsimp only at hopen hfew ⊢
      unfold reusable
      simp only [hopen, hunwritten]
      simp [hlate, hfew]
  unwritten p := by
    simp only [HttpConnectionPool.releasePtr]
    by_cases hp : p = ptr
    · rw [hp, Function.update_self]
      exact h.unwritten ptr
    · rw [Function.update_of_ne hp]
      exact h.unwritten p
  idle p hp := by
    obtain ⟨hconns, hkeeping⟩ := h.not_idle_of_handedOut hout
    simp only [HttpConnectionPool.releasePtr] at hp ⊢
    by_cases hself : p = ptr
    · subst hself
      rw [Function.update_self]
      rcases hp with hidle | hcalls
      · exact absurd hidle hconns
      · rcases List.mem_cons.mp hcalls with hnew | hother
        · split_ifs at hnew with hkept
          unfold reusable at hkept
          simp only [Bool.not_or, Bool.and_eq_true, Bool.not_eq_true', decide_eq_false_iff_not] at hkept
          exact Nat.lt_of_not_ge hkept.2
        · exact absurd hother hkeeping
    · rw [Function.update_of_ne hself]
      refine h.idle p (hp.imp_right fun hcalls => ?_)
      rcases List.mem_cons.mp hcalls with hnew | hother
      · split_ifs at hnew
        cases hnew
        exact absurd rfl hself
      · exact hother

/-- A step that hands out, releases and writes nothing, and makes nothing idle. -/
theorem Kept.of_same (h : Kept limits pool) {pool' : HttpConnectionPool} (haccounted : Inv pool')
    (hheap : pool'.heap = pool.heap) (hhandouts : pool'.handouts = pool.handouts)
    (hreleases : pool'.releases = pool.releases)
    (hidle : ∀ ptr, ptr ∈ pool'.conns ∨ .keeping ptr ∈ pool'.calls →
      ptr ∈ pool.conns ∨ .keeping ptr ∈ pool.calls) : Kept limits pool' where
  accounted := haccounted
  lawful := by
    refine ⟨?_, ?_⟩
    · rw [hhandouts]
      exact h.lawful.handouts
    · rw [hreleases]
      exact h.lawful.releases
  unwritten := by
    rw [hheap]
    exact h.unwritten
  idle ptr hptr := by
    rw [hheap]
    exact h.idle ptr (hidle ptr hptr)

/-- A new connection is none of the idle ones. -/
theorem Kept.connect (h : Kept limits pool) (hcall : .connecting ∈ pool.calls) (hfresh : ptr ∉ pool.live) :
    Kept limits { pool with
      heap := Function.update pool.heap ptr (.new pool.clock)
      live := ptr :: pool.live
      calls := .counting ptr :: pool.calls.erase .connecting } where
  accounted := h.accounted.connect hcall hfresh
  lawful := ⟨h.lawful.handouts, h.lawful.releases⟩
  unwritten p := by
    dsimp only
    rw [Function.update_apply]
    split_ifs
    · rfl
    · exact h.unwritten p
  idle p hp := by
    have hbefore : p ∈ pool.conns ∨ .keeping p ∈ pool.calls := by
      refine hp.imp_right fun hcalls => ?_
      rcases List.mem_cons.mp hcalls with hnew | hother
      · cases hnew
      · exact List.mem_of_mem_erase hother
    have hlive : p ∈ pool.live := by
      rcases hbefore with hconns | hcalls
      · have howned := h.accounted.owned p
        have hpos := List.count_pos_iff.mpr hconns
        exact List.count_pos_iff.mp (by omega)
      · exact h.accounted.mem_live hcalls (List.mem_singleton_self p)
    have hother : p ≠ ptr := fun hself => hfresh (hself ▸ hlive)
    dsimp only
    rw [Function.update_of_ne hother]
    exact h.idle p hbefore

/-- Each step of a call keeps the invariant. -/
theorem Kept.advance (h : Kept limits pool) {connection : Option ℕ} (hcall : call ∈ pool.calls)
    (hfresh : ∀ ptr ∈ connection, ptr ∉ pool.live)
    (hages : AgesKept limits pool (.advance call connection)) :
    Kept limits (pool.advance limits (pool.calls.erase call) connection call) := by
  have haccounted : Inv (pool.advance limits (pool.calls.erase call) connection call) :=
    h.accounted.advance hcall hfresh
  have hothers : ∀ ptr, ptr ∈ pool.conns ∨ .keeping ptr ∈ pool.calls.erase call →
      ptr ∈ pool.conns ∨ .keeping ptr ∈ pool.calls := fun ptr hptr => hptr.imp_right List.mem_of_mem_erase
  have hnext : ∀ {next : PoolCall}, (∀ ptr, .keeping ptr ≠ next) → ∀ ptr,
      ptr ∈ pool.conns ∨ .keeping ptr ∈ next :: pool.calls.erase call →
      ptr ∈ pool.conns ∨ .keeping ptr ∈ pool.calls := by
    intro next hnext ptr hptr
    exact hothers ptr (hptr.imp_right fun hcalls => (List.mem_cons.mp hcalls).resolve_left (hnext ptr))
  cases call with
  | entered nowMs => exact h.take hcall (hages hcall)
  | purging invalidConns invalid ptr =>
    cases invalidConns with
    | cons conn invalidConns => exact h.of_same haccounted rfl rfl rfl (hnext fun _ => PoolCall.noConfusion)
    | nil =>
      cases ptr with
      | some ptr => exact h.of_same haccounted rfl rfl rfl hothers
      | none => exact h.of_same haccounted rfl rfl rfl (hnext fun _ => PoolCall.noConfusion)
  | connecting =>
    cases connection with
    | none => exact h.of_same haccounted rfl rfl rfl hothers
    | some ptr => exact h.connect hcall (hfresh ptr rfl)
  | counting ptr => exact h.of_same haccounted rfl rfl rfl hothers
  | dropping ptr => exact h.of_same haccounted rfl rfl rfl (hnext fun _ => PoolCall.noConfusion)
  | uncounting => exact h.of_same haccounted rfl rfl rfl hothers
  | keeping ptr =>
    refine h.of_same haccounted rfl rfl rfl fun p hp => ?_
    rcases hp with hconns | hcalls
    · rcases List.mem_append.mp hconns with hbefore | hnew
      · exact Or.inl hbefore
      · rw [List.mem_singleton.mp hnew]
        exact Or.inr hcall
    · exact hothers p (Or.inr hcalls)

/-- Every step clear of the comparisons keeps the invariant. -/
theorem Kept.step (h : Kept limits pool) {i : PoolStep} (hages : AgesKept limits pool i) :
    Kept limits (pool.step limits i) := by
  cases i with
  | tick ms => exact h.of_same (h.accounted.step (.tick ms)) rfl rfl rfl fun _ hptr => hptr
  | disconnect ptr =>
    have haccounted : Inv (pool.step limits (.disconnect ptr)) := h.accounted.step _
    refine ⟨haccounted, ⟨h.lawful.handouts, h.lawful.releases⟩, fun p => ?_, fun p hp => ?_⟩
    · simp only [HttpConnectionPool.step]
      by_cases hself : p = ptr
      · rw [hself, Function.update_self]
        exact h.unwritten ptr
      · rw [Function.update_of_ne hself]
        exact h.unwritten p
    · simp only [HttpConnectionPool.step]
      have hbefore := h.idle p hp
      by_cases hself : p = ptr
      · rw [hself, Function.update_self]
        rw [hself] at hbefore
        exact hbefore
      · rw [Function.update_of_ne hself]
        exact hbefore
  | getConnection =>
    refine h.of_same (h.accounted.step .getConnection) rfl rfl rfl fun p hp => ?_
    exact hp.imp_right fun hcalls => (List.mem_cons.mp hcalls).resolve_left PoolCall.noConfusion
  | releasePtr ptr =>
    simp only [HttpConnectionPool.step]
    split_ifs with hout
    · exact h.releasePtr hout (hages hout)
    · exact h
  | advance call connection =>
    simp only [HttpConnectionPool.step]
    split_ifs with hready
    · exact h.advance hready.1 hready.2 hages
    · exact h

/-- In the runs that stay clear of the comparisons with the creation time, every connection taken from the
idle list is connected, young enough and not used up, and every such connection is kept at its release. -/
theorem reuse_lawful {clock : ℕ}
    (h : Runs.Reaches (Runs.faultless (HttpConnectionPool.step limits)) (AgesKept limits)
      (HttpConnectionPool.new clock) pool) : Lawful limits pool := by
  have hkept : Kept limits pool := by
    refine h.invariant (Kept limits) (Kept.new limits clock) fun pool i pool' hpool hages hok => ?_
    cases hok
    exact hpool.step hages
  exact hkept.lawful

end Ages

/-- A connection is kept at its release and taken again half a life time later. -/
theorem reuse_lawful_youngConnection :
    ∃ pool, Runs.Reaches (Runs.faultless (step ⟨10, 1000, 5⟩)) (AgesKept ⟨10, 1000, 5⟩) (new 5000) pool ∧
      pool.handouts = [⟨true, 5000, 5500, 1⟩] ∧ Lawful ⟨10, 1000, 5⟩ pool := by
  have hentered : Runs.Reaches (Runs.faultless (step ⟨10, 1000, 5⟩)) (AgesKept ⟨10, 1000, 5⟩) (new 5000) _ :=
    .next .start .getConnection trivial rfl
  have htaken := hentered.next (.advance (.entered 5000) none) (fun _ _ ptr h => by cases h) rfl
  have hconnecting := htaken.next (.advance (.purging [] 0 none) none) trivial rfl
  have hcounted := (hconnecting.next (.advance .connecting (some 0)) trivial rfl).next
    (.advance (.counting 0) none) trivial rfl
  have hreleased := hcounted.next (.releasePtr 0) (fun _ _ _ _ => by decide) rfl
  have hkept := hreleased.next (.advance (.keeping 0) none) trivial rfl
  have hlater := (hkept.next (.tick 500) trivial rfl).next .getConnection trivial rfl
  have hreused := hlater.next (.advance (.entered 5500) none) (fun _ _ ptr h => by cases h; decide) rfl
  exact ⟨_, hreused, rfl, reuse_lawful hreused⟩

/-- A connection that was idle for ten times its life time is handed out. -/
theorem old_connection_reused :
    ∃ pool, Runs.Reaches (Runs.faultless (step ⟨10, 1000, 5⟩)) (fun _ _ => True) (new 5000) pool ∧
      pool.handouts = [⟨true, 5000, 15000, 1⟩] ∧ ¬ Lawful ⟨10, 1000, 5⟩ pool := by
  have hentered : Runs.Reaches (Runs.faultless (step ⟨10, 1000, 5⟩)) (fun _ _ => True) (new 5000) _ :=
    .next .start .getConnection trivial rfl
  have htaken := hentered.next (.advance (.entered 5000) none) trivial rfl
  have hconnecting := htaken.next (.advance (.purging [] 0 none) none) trivial rfl
  have hcounted := (hconnecting.next (.advance .connecting (some 0)) trivial rfl).next
    (.advance (.counting 0) none) trivial rfl
  have hkept := (hcounted.next (.releasePtr 0) trivial rfl).next (.advance (.keeping 0) none) trivial rfl
  have hlater := (hkept.next (.tick 10000) trivial rfl).next .getConnection trivial rfl
  have hreused := hlater.next (.advance (.entered 15000) none) trivial rfl
  refine ⟨_, hreused, rfl, fun hlawful => ?_⟩
  have hout := hlawful.handouts ⟨true, 5000, 15000, 1⟩ (List.mem_singleton_self _)
  exact absurd hout.2.1 (by decide)

end HttpConnectionPool

/-- The connections in the hands of a call that it is not about to delete as unusable. -/
def PoolCall.inHand : PoolCall → ℕ
  | .purging _ _ ptr => ptr.toList.length
  | .counting _ => 1
  | .dropping _ => 1
  | .keeping _ => 1
  | _ => 0

/-- The connections a call has yet to create. -/
def PoolCall.creating : PoolCall → ℕ
  | .purging _ _ none => 1
  | .connecting => 1
  | _ => 0

namespace HttpConnectionPool

/-- The connections that are idle, handed out, or on their way from one to the other. -/
def owned (pool : HttpConnectionPool) : ℕ :=
  pool.conns.length + pool.handedOut.length + (pool.calls.map PoolCall.inHand).sum

/-- The connections that calls are already creating. -/
def creating (pool : HttpConnectionPool) : ℕ := (pool.calls.map PoolCall.creating).sum

/-- The test of the loop in `getConnection`. -/
def usable (heap : ℕ → PooledConnection) (maxAliveTime nowMs conn : ℕ) : Bool :=
  (heap conn).isConnected && !decide ((heap conn).createTime + maxAliveTime > nowMs)

/-- The steps that find room: where a scan finds nothing usable, fewer than `max_size` connections are owned
by the pool, not counting the ones the scan drops but counting those that other calls are creating. -/
def RoomLeft (limits : PoolLimits) (pool : HttpConnectionPool) : PoolStep → Prop
  | .advance (.entered nowMs) _ => .entered nowMs ∈ pool.calls →
    (∀ conn ∈ pool.conns, usable pool.heap limits.maxAliveTime nowMs conn = false) →
    pool.owned - pool.conns.length + pool.creating < limits.maxSize
  | _ => True

section Sizes

variable {limits : PoolLimits} {pool : HttpConnectionPool} {call : PoolCall}

/-- A scan that stops at no connection found none usable. -/
theorem not_usable_of_scan {heap : ℕ → PooledConnection} {maxAliveTime nowMs : ℕ} {conns : List ℕ}
    (h : (scan heap maxAliveTime nowMs conns).2.1 = none) :
    ∀ conn ∈ conns, usable heap maxAliveTime nowMs conn = false := by
  induction conns with
  | nil => exact fun conn hconn => absurd hconn List.not_mem_nil
  | cons first conns ih =>
    unfold scan at h
    intro conn hconn
    split_ifs at h with hclosed hold
    · rcases List.mem_cons.mp hconn with rfl | hrest
      · unfold usable
        simp_all
      · exact ih h conn hrest
    · rcases List.mem_cons.mp hconn with rfl | hrest
      · unfold usable
        simp_all
      · exact ih h conn hrest

/-- The connections owned and the connections being created, after some calls have gone on as others. -/
theorem within_progress {pool' : HttpConnectionPool} {size : ℕ} (h : pool.owned + pool.creating ≤ size)
    (before after : List PoolCall) {others : List PoolCall} (hbefore : pool.calls.Perm (before ++ others))
    (hafter : pool'.calls = after ++ others)
    (hbalance : pool'.conns.length + pool'.handedOut.length + (after.map PoolCall.inHand).sum +
        (after.map PoolCall.creating).sum ≤
      pool.conns.length + pool.handedOut.length + (before.map PoolCall.inHand).sum +
        (before.map PoolCall.creating).sum) :
    pool'.owned + pool'.creating ≤ size := by
  have hinHand := sum_calls PoolCall.inHand hbefore
  have hcreating := sum_calls PoolCall.creating hbefore
  unfold owned creating at h ⊢
  rw [hafter, List.map_append, List.sum_append, List.map_append, List.sum_append]
  omega

/-- A scan that stops at a connection passes it on, and one that stops at none finds room for another. -/
theorem within_take {nowMs : ℕ} (h : pool.owned + pool.creating ≤ limits.maxSize)
    (hcall : .entered nowMs ∈ pool.calls)
    (hroom : (∀ conn ∈ pool.conns, usable pool.heap limits.maxAliveTime nowMs conn = false) →
      pool.owned - pool.conns.length + pool.creating < limits.maxSize) :
    (pool.take limits nowMs (pool.calls.erase (.entered nowMs))).owned +
      (pool.take limits nowMs (pool.calls.erase (.entered nowMs))).creating ≤ limits.maxSize := by
  obtain ⟨hsplit, hnone, -⟩ := scan_spec pool.heap limits.maxAliveTime nowMs pool.conns
  have hlength := congrArg List.length hsplit
  simp only [List.length_append] at hlength
  have hinHand := sum_call PoolCall.inHand hcall
  have hcreating := sum_call PoolCall.creating hcall
  simp only [PoolCall.inHand, PoolCall.creating, zero_add] at hinHand hcreating
  simp only [owned, creating] at h hroom
  simp only [HttpConnectionPool.take, owned, creating, List.map_cons, List.sum_cons, PoolCall.inHand]
  cases hptr : (scan pool.heap limits.maxAliveTime nowMs pool.conns).2.1 with
  | some ptr =>
    rw [hptr] at hlength
    simp only [Option.toList_some, List.length_singleton, PoolCall.creating] at hlength ⊢
    omega
  | none =>
    have hfound := hroom (not_usable_of_scan hptr)
    rw [hnone hptr]
    simp only [Option.toList_none, List.length_nil, PoolCall.creating]
    omega

/-- Each step of a call keeps the bound. -/
theorem within_advance {connection : Option ℕ} (h : pool.owned + pool.creating ≤ limits.maxSize)
    (hcall : call ∈ pool.calls) (hroom : RoomLeft limits pool (.advance call connection)) :
    (pool.advance limits (pool.calls.erase call) connection call).owned +
      (pool.advance limits (pool.calls.erase call) connection call).creating ≤ limits.maxSize := by
  have hcalls := List.perm_cons_erase hcall
  cases call with
  | entered nowMs => exact within_take h hcall (hroom hcall)
  | purging invalidConns invalid ptr =>
    cases invalidConns with
    | cons conn invalidConns =>
      refine within_progress h [_] [.purging invalidConns invalid ptr] hcalls rfl ?_
      cases ptr <;> exact Nat.le_refl _
    | nil =>
      cases ptr with
      | some ptr =>
        refine within_progress h [_] [] hcalls rfl ?_
        simp [HttpConnectionPool.advance, PoolCall.inHand, PoolCall.creating]
        omega
      | none => exact within_progress h [_] [.connecting] hcalls rfl (Nat.le_refl _)
  | connecting =>
    cases connection with
    | none =>
      refine within_progress h [_] [] hcalls rfl ?_
      simp [HttpConnectionPool.advance, PoolCall.inHand, PoolCall.creating]
    | some ptr => exact within_progress h [_] [.counting ptr] hcalls rfl (Nat.le_refl _)
  | counting ptr =>
    refine within_progress h [_] [] hcalls rfl ?_
    simp [HttpConnectionPool.advance, PoolCall.inHand, PoolCall.creating]
    omega
  | dropping ptr =>
    refine within_progress h [_] [.uncounting] hcalls rfl ?_
    simp [HttpConnectionPool.advance, PoolCall.inHand, PoolCall.creating]
  | uncounting => exact within_progress h [_] [] hcalls rfl (Nat.le_refl _)
  | keeping ptr =>
    refine within_progress h [_] [] hcalls rfl ?_
    simp [HttpConnectionPool.advance, PoolCall.inHand, PoolCall.creating]
    omega

/-- Every step that finds room keeps the bound. -/
theorem within_step {i : PoolStep} (h : pool.owned + pool.creating ≤ limits.maxSize)
    (hroom : RoomLeft limits pool i) :
    (pool.step limits i).owned + (pool.step limits i).creating ≤ limits.maxSize := by
  cases i with
  | tick ms => exact h
  | disconnect ptr => exact h
  | getConnection =>
    exact within_progress h [] [.entered pool.clock] (List.Perm.refl _) rfl (Nat.le_refl _)
  | releasePtr ptr =>
    simp only [step]
    split_ifs with hout
    · refine within_progress h [] [_] (List.Perm.refl _) rfl ?_
      have hlength := List.length_erase_add_one hout
      simp only [HttpConnectionPool.releasePtr, List.map_cons, List.map_nil, List.sum_cons, List.sum_nil]
      split_ifs <;> simp only [PoolCall.inHand, PoolCall.creating] <;> omega
    · exact h
  | advance call connection =>
    simp only [step]
    split_ifs with hready
    · exact within_advance h hready.1 hroom
    · exact h

/-- In the runs in which a scan that finds nothing usable finds room for one more, the pool never owns more
than `max_size` connections, counting also those on their way between `m_conns` and a caller. -/
theorem size_bounded {clock : ℕ}
    (h : Runs.Reaches (Runs.faultless (step limits)) (RoomLeft limits) (new clock) pool) :
    pool.owned ≤ limits.maxSize := by
  have hwithin : pool.owned + pool.creating ≤ limits.maxSize := by
    refine h.invariant (fun pool => pool.owned + pool.creating ≤ limits.maxSize) (Nat.zero_le _) ?_
    intro pool i pool' hpool hroom hok
    cases hok
    exact within_step hpool hroom
  omega

end Sizes

/-- A pool for one connection that serves one caller after another. -/
theorem size_bounded_oneCaller :
    ∃ pool, Runs.Reaches (Runs.faultless (step ⟨1, 1000, 5⟩)) (RoomLeft ⟨1, 1000, 5⟩) (new 5000) pool ∧
      pool.conns = [0] ∧ pool.owned ≤ 1 := by
  have hentered : Runs.Reaches (Runs.faultless (step ⟨1, 1000, 5⟩)) (RoomLeft ⟨1, 1000, 5⟩) (new 5000) _ :=
    .next .start .getConnection trivial rfl
  have htaken := hentered.next (.advance (.entered 5000) none) (fun _ _ => by decide) rfl
  have hconnecting := htaken.next (.advance (.purging [] 0 none) none) trivial rfl
  have hcounted := (hconnecting.next (.advance .connecting (some 0)) trivial rfl).next
    (.advance (.counting 0) none) trivial rfl
  have hkept := (hcounted.next (.releasePtr 0) trivial rfl).next (.advance (.keeping 0) none) trivial rfl
  exact ⟨_, hkept, rfl, size_bounded hkept⟩

/-- Two callers of a pool for one connection are both given a new one. -/
theorem second_connection_created :
    ∃ pool, Runs.Reaches (Runs.faultless (step ⟨1, 1000, 5⟩)) (fun _ _ => True) (new 5000) pool ∧
      pool.handedOut = [1, 0] ∧ ¬ pool.owned ≤ 1 := by
  have hentered : Runs.Reaches (Runs.faultless (step ⟨1, 1000, 5⟩)) (fun _ _ => True) (new 5000) _ :=
    .next .start .getConnection trivial rfl
  have htaken := hentered.next (.advance (.entered 5000) none) trivial rfl
  have hconnecting := htaken.next (.advance (.purging [] 0 none) none) trivial rfl
  have hcounted := (hconnecting.next (.advance .connecting (some 0)) trivial rfl).next
    (.advance (.counting 0) none) trivial rfl
  have hsecond := (hcounted.next .getConnection trivial rfl).next (.advance (.entered 5000) none) trivial rfl
  have hcreated := (hsecond.next (.advance (.purging [] 0 none) none) trivial rfl).next
    (.advance .connecting (some 1)) trivial rfl
  have hboth := hcreated.next (.advance (.counting 1) none) trivial rfl
  exact ⟨_, hboth, rfl, by decide⟩

end HttpConnectionPool

end Http

end Bobliew
