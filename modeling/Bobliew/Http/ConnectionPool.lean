import Bobliew.Lib.Runs

/-!
# The connection pool

`HttpConnectionPool` keeps idle connections in `m_conns`. `getConnection` takes the first usable one under
the lock, deletes the unusable ones it passed and, when it found none, connects; the connection goes out in
a shared pointer whose deleter is `ReleasePtr`, which deletes the connection or queues it again. The counter
`m_total` is updated outside of the lock. Any number of calls are in progress at a time.

Resolving and connecting may fail, a connection may be closed at any time, and the clock never goes back.
Whenever no call is in progress, `m_total` is the number of connections that exist, and each of them is
either idle or handed out.
-/

namespace Bobliew

namespace Http

/-- A connection: what `isConnected` returns, `m_createTime` and `m_request`, and the time of its
creation. -/
structure PooledConnection where
  isConnected : Bool
  createTime : ℕ
  request : ℕ
  born : ℕ

/-- The constructor of `HttpConnection`, on a connected socket. -/
def PooledConnection.new (clock : ℕ) : PooledConnection := ⟨true, 0, 0, clock⟩

/-- A call in progress. `getConnection` has read the clock, has connections to delete and a count to
subtract, connects, or has a new connection to count; `ReleasePtr` has decided to delete the connection, has
deleted it, or is to queue it. -/
inductive PoolCall where
  | entered (nowMs : ℕ)
  | purging (invalidConns : List ℕ) (invalid : ℕ) (ptr : Option ℕ)
  | connecting
  | counting (ptr : ℕ)
  | dropping (ptr : ℕ)
  | uncounting
  | keeping (ptr : ℕ)
deriving DecidableEq

/-- The connections in the hands of a call. -/
def PoolCall.owned : PoolCall → List ℕ
  | .purging invalidConns _ ptr => invalidConns ++ ptr.toList
  | .counting ptr => [ptr]
  | .dropping ptr => [ptr]
  | .keeping ptr => [ptr]
  | _ => []

/-- By how much `m_total` exceeds the number of connections because of a call. -/
def PoolCall.excess : PoolCall → ℤ
  | .purging invalidConns invalid _ => invalid - invalidConns.length
  | .counting _ => -1
  | .uncounting => 1
  | _ => 0

/-- A connection taken from the idle list, as it was when it was taken. -/
structure Handout where
  isConnected : Bool
  born : ℕ
  time : ℕ
  request : ℕ

/-- A connection given to `ReleasePtr`, as it was when the decision on it was made, and the decision. -/
structure Release where
  isConnected : Bool
  born : ℕ
  time : ℕ
  request : ℕ
  kept : Bool

/-- The limits a pool is created with. -/
structure PoolLimits where
  maxSize : ℕ
  maxAliveTime : ℕ
  maxRequest : ℕ

/-- A pool: `m_conns` and `m_total`, the connections behind the pointers, the connections that exist and
those that are handed out, the calls in progress, the clock, and what was handed out from the idle list and
released so far. -/
structure HttpConnectionPool where
  conns : List ℕ
  total : ℤ
  heap : ℕ → PooledConnection
  live : List ℕ
  handedOut : List ℕ
  calls : List PoolCall
  clock : ℕ
  handouts : List Handout
  releases : List Release

/-- One atomic step; `advance` takes a call in progress one step further, with the new connection when it
connects. -/
inductive PoolStep where
  | tick (ms : ℕ)
  | disconnect (ptr : ℕ)
  | getConnection
  | releasePtr (ptr : ℕ)
  | advance (call : PoolCall) (connection : Option ℕ)

namespace HttpConnectionPool

/-- The loop in `getConnection`: the connections it drops, the one it stops at, and those it leaves. -/
def scan (heap : ℕ → PooledConnection) (maxAliveTime nowMs : ℕ) : List ℕ → List ℕ × Option ℕ × List ℕ
  | [] => ([], none, [])
  | conn :: conns =>
    if !(heap conn).isConnected then
      let r := scan heap maxAliveTime nowMs conns
      (conn :: r.1, r.2)
    else if (heap conn).createTime + maxAliveTime > nowMs then
      let r := scan heap maxAliveTime nowMs conns
      (conn :: r.1, r.2)
    else ([], some conn, conns)

/-- What `ReleasePtr` keeps, of a connection whose requests it has already counted. -/
def reusable (limits : PoolLimits) (clock : ℕ) (conn : PooledConnection) : Bool :=
  !(!conn.isConnected || decide (conn.createTime + limits.maxAliveTime ≥ clock) ||
    decide (conn.request ≥ limits.maxRequest))

/-- A pool without connections. -/
def new (clock : ℕ) : HttpConnectionPool := ⟨[], 0, fun _ => .new 0, [], [], [], clock, [], []⟩

/-- What is recorded of a connection taken from the idle list. -/
def handout (pool : HttpConnectionPool) (ptr : ℕ) : Handout :=
  ⟨(pool.heap ptr).isConnected, (pool.heap ptr).born, pool.clock, (pool.heap ptr).request⟩

/-- The locked part of `getConnection`. -/
def take (limits : PoolLimits) (pool : HttpConnectionPool) (nowMs : ℕ) (calls : List PoolCall) :
    HttpConnectionPool :=
  let r := scan pool.heap limits.maxAliveTime nowMs pool.conns
  { pool with
    conns := r.2.2
    calls := .purging r.1 r.1.length r.2.1 :: calls
    handouts := pool.handouts ++ (r.2.1.map pool.handout).toList }

/-- `ReleasePtr` up to its decision. -/
def releasePtr (limits : PoolLimits) (pool : HttpConnectionPool) (ptr : ℕ) : HttpConnectionPool :=
  let conn := { pool.heap ptr with request := (pool.heap ptr).request + 1 }
  let kept := reusable limits pool.clock conn
  { pool with
    heap := Function.update pool.heap ptr conn
    handedOut := pool.handedOut.erase ptr
    calls := (if kept then .keeping ptr else .dropping ptr) :: pool.calls
    releases := pool.releases ++ [⟨conn.isConnected, conn.born, pool.clock, conn.request, kept⟩] }

/-- Take a call one step further; `calls` are the other calls. -/
def advance (limits : PoolLimits) (pool : HttpConnectionPool) (calls : List PoolCall)
    (connection : Option ℕ) : PoolCall → HttpConnectionPool
  | .entered nowMs => pool.take limits nowMs calls
  | .purging (conn :: invalidConns) invalid ptr =>
    { pool with live := pool.live.erase conn, calls := .purging invalidConns invalid ptr :: calls }
  | .purging [] invalid (some ptr) =>
    { pool with total := pool.total - invalid, handedOut := ptr :: pool.handedOut, calls := calls }
  | .purging [] invalid none => { pool with total := pool.total - invalid, calls := .connecting :: calls }
  | .connecting =>
    match connection with
    | none => { pool with calls := calls }
    | some ptr =>
      { pool with
        heap := Function.update pool.heap ptr (.new pool.clock)
        live := ptr :: pool.live
        calls := .counting ptr :: calls }
  | .counting ptr =>
    { pool with total := pool.total + 1, handedOut := ptr :: pool.handedOut, calls := calls }
  | .dropping ptr => { pool with live := pool.live.erase ptr, calls := .uncounting :: calls }
  | .uncounting => { pool with total := pool.total - 1, calls := calls }
  | .keeping ptr => { pool with conns := pool.conns ++ [ptr], calls := calls }

/-- Perform one step. Only a call in progress advances, only a connection that is handed out is released,
and a new connection is none of those that exist. -/
def step (limits : PoolLimits) (pool : HttpConnectionPool) : PoolStep → HttpConnectionPool
  | .tick ms => { pool with clock := pool.clock + ms }
  | .disconnect ptr =>
    { pool with heap := Function.update pool.heap ptr { pool.heap ptr with isConnected := false } }
  | .getConnection => { pool with calls := .entered pool.clock :: pool.calls }
  | .releasePtr ptr => if ptr ∈ pool.handedOut then pool.releasePtr limits ptr else pool
  | .advance call connection =>
    if call ∈ pool.calls ∧ ∀ ptr ∈ connection, ptr ∉ pool.live then
      pool.advance limits (pool.calls.erase call) connection call
    else pool

/-- When no call is in progress, `m_total` counts the connections that exist, and each of them occurs once,
either in `m_conns` or handed out. -/
def Settled (pool : HttpConnectionPool) : Prop :=
  pool.calls = [] →
    pool.total = pool.live.length ∧
      pool.live.length = pool.conns.length + pool.handedOut.length ∧
      pool.live.Perm (pool.conns ++ pool.handedOut) ∧ pool.conns.Nodup ∧
      ∀ ptr ∈ pool.handedOut, ptr ∉ pool.conns

/-- The loop drops a part of the list, stops at a connection that is connected and passes its test of the
time, or drops the whole list. -/
theorem scan_spec (heap : ℕ → PooledConnection) (maxAliveTime nowMs : ℕ) (conns : List ℕ) :
    conns = (scan heap maxAliveTime nowMs conns).1 ++ (scan heap maxAliveTime nowMs conns).2.1.toList ++
        (scan heap maxAliveTime nowMs conns).2.2 ∧
      ((scan heap maxAliveTime nowMs conns).2.1 = none → (scan heap maxAliveTime nowMs conns).2.2 = []) ∧
      ∀ ptr, (scan heap maxAliveTime nowMs conns).2.1 = some ptr →
        (heap ptr).isConnected = true ∧ (heap ptr).createTime + maxAliveTime ≤ nowMs := by
  induction conns with
  | nil => exact ⟨rfl, fun _ => rfl, fun ptr h => by cases h⟩
  | cons conn conns ih =>
    obtain ⟨hsplit, hnone, hsome⟩ := ih
    have hdropped := congrArg (List.cons conn) hsplit
    unfold scan
    split_ifs with hconnected hold
    · exact ⟨hdropped, hnone, hsome⟩
    · exact ⟨hdropped, hnone, hsome⟩
    · refine ⟨rfl, fun h => by (cases h), fun ptr h => ?_⟩
      cases h
      exact ⟨by simpa using hconnected, Nat.le_of_not_gt hold⟩

/-- A weight summed over the calls, with some of them apart. -/
theorem sum_calls {M : Type*} [AddCommMonoid M] {calls some rest : List PoolCall} (weight : PoolCall → M)
    (h : calls.Perm (some ++ rest)) :
    (calls.map weight).sum = (some.map weight).sum + (rest.map weight).sum := by
  rw [(h.map weight).sum_eq, List.map_append, List.sum_append]

/-- A weight summed over the calls, with one of them apart. -/
theorem sum_call {M : Type*} [AddCommMonoid M] {calls : List PoolCall} {call : PoolCall} (weight : PoolCall → M)
    (h : call ∈ calls) : (calls.map weight).sum = weight call + ((calls.erase call).map weight).sum :=
  (List.sum_map_erase weight h).symm

/-- The invariant: `m_total` follows the connections that exist, and each of them is once in `m_conns`,
handed out, or in the hands of a call. -/
structure Inv (pool : HttpConnectionPool) : Prop where
  counted : pool.total = pool.live.length + (pool.calls.map PoolCall.excess).sum
  owned : ∀ ptr, pool.live.count ptr = pool.conns.count ptr + pool.handedOut.count ptr +
    (pool.calls.map fun call => call.owned.count ptr).sum
  once : ∀ ptr, pool.live.count ptr ≤ 1

section Invariant

variable {limits : PoolLimits} {pool : HttpConnectionPool} {call : PoolCall} {ptr : ℕ}

/-- A new pool has no connections. -/
theorem Inv.new (clock : ℕ) : Inv (new clock) where
  counted := rfl
  owned _ := rfl
  once _ := Nat.zero_le 1

/-- Without calls in progress the invariant is the claim of `Settled`. -/
theorem Inv.settled (h : Inv pool) : pool.Settled := by
  intro hidle
  have hcounted := h.counted
  have howned := h.owned
  rw [hidle] at hcounted howned
  simp only [List.map_nil, List.sum_nil, add_zero] at hcounted howned
  have hperm : pool.live.Perm (pool.conns ++ pool.handedOut) := by
    refine List.perm_iff_count.mpr fun ptr => ?_
    rw [List.count_append]
    exact howned ptr
  refine ⟨hcounted, ?_, hperm, ?_, fun ptr hout hidle => ?_⟩
  · rw [hperm.length_eq, List.length_append]
  · refine List.nodup_iff_count_le_one.mpr fun ptr => ?_
    have honce := h.once ptr
    have hptr := howned ptr
    omega
  · have honce := h.once ptr
    have hptr := howned ptr
    have hfirst := List.count_pos_iff.mpr hout
    have hsecond := List.count_pos_iff.mpr hidle
    omega

/-- A connection in the hands of a call exists. -/
theorem Inv.mem_live (h : Inv pool) (hcall : call ∈ pool.calls) (hptr : ptr ∈ call.owned) :
    ptr ∈ pool.live := by
  have howned := h.owned ptr
  have hsum := sum_call (fun call => call.owned.count ptr) hcall
  have hpos := List.count_pos_iff.mpr hptr
  exact List.count_pos_iff.mp (by omega)

/-- Some calls go on as others: the count and the connections must balance. -/
theorem Inv.progress (h : Inv pool) {pool' : HttpConnectionPool} (before after : List PoolCall)
    {others : List PoolCall} (hbefore : pool.calls.Perm (before ++ others))
    (hafter : pool'.calls = after ++ others)
    (htotal : pool'.total + pool.live.length + (before.map PoolCall.excess).sum =
      pool.total + pool'.live.length + (after.map PoolCall.excess).sum)
    (howned : ∀ ptr, pool'.live.count ptr + pool.conns.count ptr + pool.handedOut.count ptr +
        (before.map fun call => call.owned.count ptr).sum =
      pool.live.count ptr + pool'.conns.count ptr + pool'.handedOut.count ptr +
        (after.map fun call => call.owned.count ptr).sum)
    (honce : ∀ ptr, pool'.live.count ptr ≤ 1) : Inv pool' where
  counted := by
    have hsum := sum_calls PoolCall.excess hbefore
    have hcounted := h.counted
    rw [hafter, List.map_append, List.sum_append]
    omega
  owned ptr := by
    have hsum := sum_calls (fun call => call.owned.count ptr) hbefore
    have hnow := h.owned ptr
    have hbalance := howned ptr
    rw [hafter, List.map_append, List.sum_append]
    omega
  once := honce

/-- The locked part of `getConnection` hands a part of the idle list to its call. -/
theorem Inv.take (h : Inv pool) {nowMs : ℕ} (hcall : .entered nowMs ∈ pool.calls) :
    Inv (pool.take limits nowMs (pool.calls.erase (.entered nowMs))) := by
  obtain ⟨hsplit, -, -⟩ := scan_spec pool.heap limits.maxAliveTime nowMs pool.conns
  refine h.progress [_] [.purging _ _ _] (List.perm_cons_erase hcall) rfl ?_ (fun ptr => ?_) h.once
  · simp [HttpConnectionPool.take, PoolCall.excess]
  · have hcount := congrArg (List.count ptr) hsplit
    simp only [List.count_append] at hcount
    simp only [HttpConnectionPool.take, PoolCall.owned, List.map_cons, List.map_nil, List.sum_cons, List.sum_nil,
      List.count_append, List.count_nil]
    omega

/-- A connection that a call deletes exists no longer. -/
theorem Inv.delete (h : Inv pool) {next : PoolCall} (hcall : call ∈ pool.calls)
    (howned : call.owned = ptr :: next.owned) (hexcess : next.excess = call.excess + 1) :
    Inv { pool with live := pool.live.erase ptr, calls := next :: pool.calls.erase call } := by
  have hlive : ptr ∈ pool.live := h.mem_live hcall (by rw [howned]; exact List.mem_cons_self)
  have hlength := List.length_erase_add_one hlive
  refine h.progress [call] [next] (List.perm_cons_erase hcall) rfl ?_ (fun p => ?_) fun p => ?_
  · simp only [List.map_cons, List.map_nil, List.sum_cons, List.sum_nil]
    omega
  · have hcount := (List.perm_cons_erase hlive).count_eq p
    rw [List.count_cons] at hcount
    simp only [List.map_cons, List.map_nil, List.sum_cons, List.sum_nil, howned, List.count_cons]
    omega
  · exact Nat.le_trans (List.erase_sublist.count_le p) (h.once p)

/-- `getConnection` returns a connection that its call had in its hands, and settles the count. -/
theorem Inv.handOut (h : Inv pool) {total : ℤ} (hcall : call ∈ pool.calls) (howned : call.owned = [ptr])
    (htotal : total + call.excess = pool.total) :
    Inv { pool with
      total, handedOut := ptr :: pool.handedOut, calls := pool.calls.erase call } := by
  refine h.progress [_] [] (List.perm_cons_erase hcall) rfl ?_ (fun p => ?_) h.once
  · simp only [List.map_cons, List.map_nil, List.sum_cons, List.sum_nil]
    omega
  · simp only [List.map_cons, List.map_nil, List.sum_cons, List.sum_nil, howned, List.count_cons,
      List.count_nil]
    omega

/-- A new connection is counted later. -/
theorem Inv.connect (h : Inv pool) (hcall : .connecting ∈ pool.calls) (hfresh : ptr ∉ pool.live) :
    Inv { pool with
      heap := Function.update pool.heap ptr (.new pool.clock)
      live := ptr :: pool.live
      calls := .counting ptr :: pool.calls.erase .connecting } := by
  refine h.progress [_] [.counting ptr] (List.perm_cons_erase hcall) rfl ?_ (fun p => ?_) fun p => ?_
  · simp only [PoolCall.excess, List.map_cons, List.map_nil, List.sum_cons, List.sum_nil, List.length_cons]
    omega
  · simp only [PoolCall.owned, List.map_cons, List.map_nil, List.sum_cons, List.sum_nil, List.count_cons,
      List.count_nil]
    omega
  · have honce := h.once p
    rw [List.count_cons]
    split_ifs with hp
    · have hself : ptr = p := by simpa using hp
      subst hself
      rw [List.count_eq_zero_of_not_mem hfresh]
    · exact honce

/-- Each step of a call keeps the invariant. -/
theorem Inv.advance (h : Inv pool) {connection : Option ℕ} (hcall : call ∈ pool.calls)
    (hfresh : ∀ ptr ∈ connection, ptr ∉ pool.live) :
    Inv (pool.advance limits (pool.calls.erase call) connection call) := by
  cases call with
  | entered nowMs => exact h.take hcall
  | purging invalidConns invalid ptr =>
    cases invalidConns with
    | cons conn invalidConns =>
      refine h.delete hcall rfl ?_
      simp only [PoolCall.excess, List.length_cons]
      omega
    | nil =>
      cases ptr with
      | some ptr => exact h.handOut hcall rfl (by simp [PoolCall.excess])
      | none =>
        refine h.progress [_] [.connecting] (List.perm_cons_erase hcall) rfl ?_ (fun p => rfl) h.once
        simp only [HttpConnectionPool.advance, PoolCall.excess, List.map_cons, List.map_nil, List.sum_cons,
          List.sum_nil, List.length_nil]
        omega
  | connecting =>
    cases connection with
    | none => exact h.progress [_] [] (List.perm_cons_erase hcall) rfl rfl (fun _ => rfl) h.once
    | some ptr => exact h.connect hcall (hfresh ptr rfl)
  | counting ptr => exact h.handOut hcall rfl (by simp [PoolCall.excess])
  | dropping ptr => exact h.delete hcall rfl rfl
  | uncounting =>
    refine h.progress [_] [] (List.perm_cons_erase hcall) rfl ?_ (fun p => rfl) h.once
    simp only [HttpConnectionPool.advance, PoolCall.excess, List.map_cons, List.map_nil, List.sum_cons,
      List.sum_nil]
    omega
  | keeping ptr =>
    refine h.progress [_] [] (List.perm_cons_erase hcall) rfl rfl (fun p => ?_) h.once
    simp only [HttpConnectionPool.advance, PoolCall.owned, List.map_cons, List.map_nil, List.sum_cons,
      List.sum_nil, List.count_append]
    omega

/-- `ReleasePtr` takes a connection that is handed out into the hands of its call. -/
theorem Inv.releasePtr (h : Inv pool) (hout : ptr ∈ pool.handedOut) : Inv (pool.releasePtr limits ptr) := by
  have hlength := List.length_erase_add_one hout
  refine h.progress [] [_] (List.Perm.refl _) rfl ?_ (fun p => ?_) h.once
  · simp only [HttpConnectionPool.releasePtr, List.map_nil, List.sum_nil, List.map_cons, List.sum_cons]
    split_ifs <;> rfl
  · have hcount := (List.perm_cons_erase hout).count_eq p
    rw [List.count_cons] at hcount
    simp only [HttpConnectionPool.releasePtr, List.map_nil, List.sum_nil, List.map_cons, List.sum_cons]
    split_ifs <;> simp only [PoolCall.owned, List.count_cons, List.count_nil] <;> omega

/-- Every step keeps the invariant. -/
theorem Inv.step (h : Inv pool) (i : PoolStep) : Inv (pool.step limits i) := by
  cases i with
  | tick ms => exact ⟨h.counted, h.owned, h.once⟩
  | disconnect ptr => exact ⟨h.counted, h.owned, h.once⟩
  | getConnection => exact h.progress [] [.entered pool.clock] (List.Perm.refl _) rfl rfl (fun _ => rfl) h.once
  | releasePtr ptr =>
    simp only [HttpConnectionPool.step]
    split_ifs with hout
    · exact h.releasePtr hout
    · exact h
  | advance call connection =>
    simp only [HttpConnectionPool.step]
    split_ifs with hready
    · exact h.advance hready.1 hready.2
    · exact h

/-- The invariant holds in every reached state. -/
theorem Inv.reached {clock : ℕ} {permitted : HttpConnectionPool → PoolStep → Prop}
    (h : Runs.Reaches (Runs.faultless (HttpConnectionPool.step limits)) permitted (HttpConnectionPool.new clock)
      pool) :
    Inv pool := by
  refine h.invariant Inv (Inv.new clock) fun pool i pool' hpool _ hok => ?_
  cases hok
  exact hpool.step i

/-- Over any interleaving of calls, `m_total` counts the connections that exist whenever no call is in
progress, and each of them occurs once, in `m_conns` or handed out. -/
theorem connections_accounted {clock : ℕ}
    (h : Runs.Reaches (Runs.faultless (step limits)) (fun _ _ => True) (new clock) pool) : pool.Settled := by
  have hinv : Inv pool := Inv.reached h
  exact hinv.settled

end Invariant

/-- A connection is made, released, and kept, while a second call fails to connect. -/
theorem connections_accounted_oneKept :
    ∃ pool, Runs.Reaches (Runs.faultless (step ⟨1, 1000, 5⟩)) (fun _ _ => True) (new 5000) pool ∧
      pool.calls = [] ∧ pool.conns = [0] ∧ pool.Settled := by
  have hentered : Runs.Reaches (Runs.faultless (step ⟨1, 1000, 5⟩)) (fun _ _ => True) (new 5000) _ :=
    .next .start .getConnection trivial rfl
  have htaken := hentered.next (.advance (.entered 5000) none) trivial rfl
  have hconnecting := htaken.next (.advance (.purging [] 0 none) none) trivial rfl
  have hcounted := (hconnecting.next (.advance .connecting (some 0)) trivial rfl).next
    (.advance (.counting 0) none) trivial rfl
  have hsecond := (hcounted.next .getConnection trivial rfl).next (.advance (.entered 5000) none) trivial rfl
  have hfailed := (hsecond.next (.advance (.purging [] 0 none) none) trivial rfl).next
    (.advance .connecting none) trivial rfl
  have hkept := (hfailed.next (.releasePtr 0) trivial rfl).next (.advance (.keeping 0) none) trivial rfl
  exact ⟨_, hkept, rfl, rfl, connections_accounted hkept⟩

end HttpConnectionPool

end Http

end Bobliew
