import DevTools.Lib.MachineInt
import Mathlib.Data.List.TakeWhile

/-!
# `MySQLSingleDBPool`

A pool keeps idle connections in `freeQueue` and counts in `usedConns` the ones it has given
away. This module has the parts of its operations that run without interruption: the bodies
under the pool's mutex, the two tests and updates outside of it.

* `initPool` fills the queue; a connection that the driver refuses leaves the earlier ones there.
* `getConnection` hands out the front of the queue, or opens a connection while
  `usedConns <= max`.
* `pushFree`, `closeConn` and `countDown` are the pieces of `ReleaseConnect`.
* `evictIdle` and `takeExpired` are the two loops of `CheckConnection`.

A connection object is known by the number of its creation; `closed` is a ghost that remembers
the objects that were closed and deleted.
-/

namespace DevTools.Pool

structure ConnectOptions where
  min : Int
  max : Int
  expiretime : Int
  deriving DecidableEq, Repr

/-- A `multidb::Connection`. The constructor leaves `lastTime` uninitialised. -/
structure Connection where
  id : Nat
  lastTime : Int
  isErr : Bool
  deriving DecidableEq, Repr

/-- How `m_driver->connect` comes out; a connection comes with the `lastTime` that happens to be
in its memory. -/
inductive Connect
  | conn (lastTime : Int)
  | null
  | throws
  deriving DecidableEq, Repr

/-- The pool, and how many connection objects it has made so far. -/
structure SingleDBPool where
  freeQueue : List Connection
  usedConns : Int
  runing : Bool
  opened : Nat
  /-- ghost: the objects that were closed -/
  closed : List Nat
  deriving DecidableEq, Repr

namespace SingleDBPool

/-- The pool as constructed. -/
def new : SingleDBPool := ⟨[], 0, false, 0, []⟩

/-- `new Connection(&connOpt, conn)`. -/
def newConnection (p : SingleDBPool) (lastTime : Int) : Connection := ⟨p.opened, lastTime, false⟩

/-! ## `InitPool` -/

/-- How `InitPool` ends. -/
inductive InitResult
  | returned (ok : Bool)
  | threw
  deriving DecidableEq, Repr

/-- The loop of `InitPool`: `n` connections are still to be opened. When the driver answers NULL,
`ReleaseAll` is called, which returns at once because `runing` is false. -/
def fill : Nat → List Connect → SingleDBPool → InitResult × SingleDBPool
  | 0, _, p => (.returned true, { p with runing := true })
  | n + 1, .conn lastTime :: answers, p =>
    fill n answers
      { p with freeQueue := p.freeQueue ++ [p.newConnection lastTime], opened := p.opened + 1 }
  | _ + 1, .null :: _, p => (.returned false, p)
  | _ + 1, _, p => (.threw, p)

/-- `InitPool()`; `parsed` is the result of `spliteStr` on the connection string. -/
def initPool (opt : ConnectOptions) (parsed : Bool) (answers : List Connect) (p : SingleDBPool) :
    InitResult × SingleDBPool :=
  if p.runing then (.returned false, p)
  else if ¬ parsed then (.returned false, p)
  else if opt.min < 1 then (.returned false, p)
  else if opt.max < opt.min then (.returned false, p)
  else fill opt.min.toNat answers p

/-- The loop opens all connections, or stops and leaves those it has opened. -/
theorem fill_cases (n : Nat) (answers : List Connect) (p : SingleDBPool) :
    (fill n answers p).2.usedConns = p.usedConns ∧
      ((fill n answers p).1 = .returned true ∧ (fill n answers p).2.runing = true ∧
          (fill n answers p).2.freeQueue.length = p.freeQueue.length + n ∨
        (fill n answers p).1 ≠ .returned true ∧ (fill n answers p).2.runing = p.runing) := by
  induction n generalizing answers p with
  | zero => exact ⟨rfl, .inl ⟨rfl, rfl, rfl⟩⟩
  | succ n ih =>
    match answers with
    | .conn lastTime :: answers =>
      obtain ⟨hused, hcase⟩ := ih answers { p with
        freeQueue := p.freeQueue ++ [p.newConnection lastTime], opened := p.opened + 1 }
      refine ⟨hused, ?_⟩
      rcases hcase with ⟨hret, hrun, hlen⟩ | hfail
      · refine .inl ⟨hret, hrun, ?_⟩
        simp only [fill]
        rw [hlen, List.length_append, List.length_singleton]
        omega
      · exact .inr hfail
    | .null :: _ => exact ⟨rfl, .inr ⟨by simp [fill], rfl⟩⟩
    | .throws :: _ => exact ⟨rfl, .inr ⟨by simp [fill], rfl⟩⟩
    | [] => exact ⟨rfl, .inr ⟨by simp [fill], rfl⟩⟩

/-- What `InitPool` can do: nothing, start the pool, or fail somewhere in its loop. -/
theorem initPool_cases (opt : ConnectOptions) (parsed : Bool) (answers : List Connect)
    (p : SingleDBPool) :
    (initPool opt parsed answers p).2.usedConns = p.usedConns ∧
      ((initPool opt parsed answers p).2 = p ∨
        p.runing = false ∧ 1 ≤ opt.min ∧ opt.min ≤ opt.max ∧
          ((initPool opt parsed answers p).1 = .returned true ∧
              (initPool opt parsed answers p).2.runing = true ∧
              (initPool opt parsed answers p).2.freeQueue.length =
                p.freeQueue.length + opt.min.toNat ∨
            (initPool opt parsed answers p).1 ≠ .returned true ∧
              (initPool opt parsed answers p).2.runing = false)) := by
  unfold initPool
  split
  · exact ⟨rfl, .inl rfl⟩
  · rename_i hrun
    rw [Bool.not_eq_true] at hrun
    split
    · exact ⟨rfl, .inl rfl⟩
    · split
      · exact ⟨rfl, .inl rfl⟩
      · split
        · exact ⟨rfl, .inl rfl⟩
        · obtain ⟨hused, hcase⟩ := fill_cases opt.min.toNat answers p
          rw [hrun] at hcase
          exact ⟨hused, .inr ⟨hrun, by omega, by omega, hcase⟩⟩

/-- `InitPool` on a configuration that passes its tests is its loop. -/
theorem initPool_of_valid {opt : ConnectOptions} {parsed : Bool} {p : SingleDBPool}
    (hrun : p.runing = false) (hparsed : parsed = true) (hmin : 1 ≤ opt.min)
    (hmax : opt.min ≤ opt.max) (answers : List Connect) :
    initPool opt parsed answers p = fill opt.min.toNat answers p := by
  have h1 : ¬ opt.min < 1 := by omega
  have h2 : ¬ opt.max < opt.min := by omega
  simp [initPool, hrun, hparsed, h1, h2]

/-- On any other it returns false and does nothing. -/
theorem initPool_of_invalid {opt : ConnectOptions} {parsed : Bool} {p : SingleDBPool}
    (h : ¬ (p.runing = false ∧ parsed = true ∧ 1 ≤ opt.min ∧ opt.min ≤ opt.max))
    (answers : List Connect) : initPool opt parsed answers p = (.returned false, p) := by
  unfold initPool
  split_ifs with hrun hparsed hmin hmax
  · rfl
  · rfl
  · rfl
  · exact absurd ⟨by simpa using hrun, by simpa using hparsed, by omega, by omega⟩ h
  · rfl

/-- The driver's answers to a loop of `n` turns: a connection in every turn, or none in the
first. -/
def AllOrNone (n : Nat) (answers : List Connect) : Prop :=
  (n ≤ answers.length ∧ ∀ answer ∈ answers.take n, ∃ lastTime, answer = .conn lastTime) ∨
    ∀ lastTime, answers.head? ≠ some (.conn lastTime)

theorem fill_of_all {n : Nat} {answers : List Connect} (hlen : n ≤ answers.length)
    (hall : ∀ answer ∈ answers.take n, ∃ lastTime, answer = .conn lastTime) (p : SingleDBPool) :
    (fill n answers p).1 = .returned true := by
  induction n generalizing answers p with
  | zero => rfl
  | succ n ih =>
    cases answers with
    | nil => simp at hlen
    | cons answer answers =>
      obtain ⟨lastTime, rfl⟩ := hall answer (by simp)
      refine ih (by simpa using hlen) ?_ _
      intro answer hin
      exact hall answer (by simp [hin])

theorem fill_of_none {n : Nat} {answers : List Connect}
    (hnone : ∀ lastTime, answers.head? ≠ some (.conn lastTime)) (p : SingleDBPool) :
    (fill n answers p).2.freeQueue = p.freeQueue ∧ (fill n answers p).2.opened = p.opened := by
  cases n with
  | zero => exact ⟨rfl, rfl⟩
  | succ n =>
    match answers with
    | .conn lastTime :: _ => exact absurd rfl (hnone lastTime)
    | .null :: _ => exact ⟨rfl, rfl⟩
    | .throws :: _ => exact ⟨rfl, rfl⟩
    | [] => exact ⟨rfl, rfl⟩

/-- With such answers an `InitPool` that does not start the pool leaves nothing behind. -/
theorem initPool_freeQueue {opt : ConnectOptions} {parsed : Bool} {answers : List Connect}
    {p : SingleDBPool}
    (hok : p.runing = false → parsed = true → AllOrNone opt.min.toNat answers)
    (hfail : (initPool opt parsed answers p).1 ≠ .returned true) :
    (initPool opt parsed answers p).2.freeQueue = p.freeQueue := by
  by_cases hloop : p.runing = false ∧ parsed = true ∧ 1 ≤ opt.min ∧ opt.min ≤ opt.max
  · obtain ⟨hrun, hparsed, hmin, hmax⟩ := hloop
    rw [initPool_of_valid hrun hparsed hmin hmax] at hfail ⊢
    rcases hok hrun hparsed with ⟨hlen, hall⟩ | hnone
    · exact absurd (fill_of_all hlen hall p) hfail
    · exact (fill_of_none hnone p).1
  · rw [initPool_of_invalid hloop]

/-! ## `GetConnection` -/

/-- The locked part of `GetConnection`; `time` was read before. `none` when no connection is
handed out: the pool is at its limit, or the driver gave none. -/
def getConnection (opt : ConnectOptions) (time : Int) (answer : Connect) (p : SingleDBPool) :
    Option Connection × SingleDBPool :=
  match p.freeQueue with
  | c :: rest =>
    (some { c with lastTime := time }, { p with freeQueue := rest, usedConns := p.usedConns + 1 })
  | [] =>
    if p.usedConns ≤ opt.max then
      match answer with
      | .conn lastTime =>
        (some (p.newConnection lastTime),
          { p with usedConns := p.usedConns + 1, opened := p.opened + 1 })
      | .null => (none, p)
      | .throws => (none, p)
    else (none, p)

/-- What `GetConnection` can do. -/
theorem getConnection_cases (opt : ConnectOptions) (time : Int) (answer : Connect)
    (p : SingleDBPool) :
    (∃ c rest, p.freeQueue = c :: rest ∧
      getConnection opt time answer p = (some { c with lastTime := time },
        { p with freeQueue := rest, usedConns := p.usedConns + 1 })) ∨
    (∃ lastTime, p.freeQueue = [] ∧ p.usedConns ≤ opt.max ∧ answer = .conn lastTime ∧
      getConnection opt time answer p = (some (p.newConnection lastTime),
        { p with usedConns := p.usedConns + 1, opened := p.opened + 1 })) ∨
    (p.freeQueue = [] ∧ getConnection opt time answer p = (none, p)) := by
  unfold getConnection
  split
  · rename_i c rest hq
    exact .inl ⟨c, rest, hq, rfl⟩
  · rename_i hq
    split
    · rename_i hle
      split
      · exact .inr (.inl ⟨_, hq, hle, rfl, rfl⟩)
      · exact .inr (.inr ⟨hq, rfl⟩)
      · exact .inr (.inr ⟨hq, rfl⟩)
    · exact .inr (.inr ⟨hq, rfl⟩)

/-! ## `ReleaseConnect` -/

/-- The locked part: the connection goes to the back of the queue. -/
def pushFree (p : SingleDBPool) (c : Connection) : SingleDBPool :=
  { p with freeQueue := p.freeQueue ++ [c], usedConns := p.usedConns - 1 }

/-- `close` and `delete`. -/
def closeConn (p : SingleDBPool) (c : Connection) : SingleDBPool :=
  { p with closed := c.id :: p.closed }

/-- `__sync_add_and_fetch(&usedConns, -1)`. -/
def countDown (p : SingleDBPool) : SingleDBPool := { p with usedConns := p.usedConns - 1 }

/-! ## `CheckConnection` -/

/-- `curTime - lastTime >= expiretime`, in 64 bits. -/
def expired (opt : ConnectOptions) (curTime : Int) (c : Connection) : Prop :=
  opt.expiretime ≤ wrap64 (curTime - c.lastTime)

instance (opt : ConnectOptions) (curTime : Int) (c : Connection) :
    Decidable (expired opt curTime c) :=
  inferInstanceAs (Decidable (_ ≤ _))

/-- The first loop on a queue: what it pops and what stays. -/
def popIdle (opt : ConnectOptions) (curTime : Int) :
    List Connection → List Connection × List Connection
  | [] => ([], [])
  | c :: rest =>
    if opt.min < rest.length + 1 ∧ expired opt curTime c then
      (c :: (popIdle opt curTime rest).1, (popIdle opt curTime rest).2)
    else ([], c :: rest)

/-- The first loop, which pops while more than `min` connections are queued. -/
def evictIdle (opt : ConnectOptions) (curTime : Int) (p : SingleDBPool) :
    List Connection × SingleDBPool :=
  let (popped, rest) := popIdle opt curTime p.freeQueue
  (popped, { p with freeQueue := rest, usedConns := p.usedConns - popped.length })

/-- The second loop, which pops as long as the front is expired. -/
def takeExpired (opt : ConnectOptions) (curTime : Int) (p : SingleDBPool) :
    List Connection × SingleDBPool :=
  let popped := p.freeQueue.takeWhile (expired opt curTime)
  (popped, { p with freeQueue := p.freeQueue.dropWhile (expired opt curTime)
                    usedConns := p.usedConns - popped.length })

theorem evictIdle_usedConns (opt : ConnectOptions) (curTime : Int) (p : SingleDBPool) :
    (evictIdle opt curTime p).2.usedConns =
      p.usedConns - (evictIdle opt curTime p).1.length := rfl

theorem takeExpired_usedConns (opt : ConnectOptions) (curTime : Int) (p : SingleDBPool) :
    (takeExpired opt curTime p).2.usedConns =
      p.usedConns - (takeExpired opt curTime p).1.length := rfl

/-- The first loop stops at once. -/
def NoneIdle (opt : ConnectOptions) (curTime : Int) (queue : List Connection) : Prop :=
  ∀ c ∈ queue.head?, opt.min < queue.length → ¬ expired opt curTime c

/-- The second loop stops at once. -/
def NoneExpired (opt : ConnectOptions) (curTime : Int) (queue : List Connection) : Prop :=
  ∀ c ∈ queue.head?, ¬ expired opt curTime c

theorem evictIdle_of_noneIdle {opt : ConnectOptions} {curTime : Int} {p : SingleDBPool}
    (h : NoneIdle opt curTime p.freeQueue) : evictIdle opt curTime p = ([], p) := by
  have hpop : popIdle opt curTime p.freeQueue = ([], p.freeQueue) := by
    cases hq : p.freeQueue with
    | nil => rfl
    | cons c rest =>
      rw [hq] at h
      refine if_neg ?_
      rintro ⟨hlen, hexp⟩
      exact h c rfl (by simpa using hlen) hexp
  simp [evictIdle, hpop]

theorem takeExpired_of_noneExpired {opt : ConnectOptions} {curTime : Int} {p : SingleDBPool}
    (h : NoneExpired opt curTime p.freeQueue) : takeExpired opt curTime p = ([], p) := by
  have htake : p.freeQueue.takeWhile (expired opt curTime) = [] ∧
      p.freeQueue.dropWhile (expired opt curTime) = p.freeQueue := by
    cases hq : p.freeQueue with
    | nil => exact ⟨rfl, rfl⟩
    | cons c rest =>
      rw [hq] at h
      have hnot : ¬ expired opt curTime c := h c rfl
      simp [hnot]
  simp [takeExpired, htake.1, htake.2]

end SingleDBPool

end DevTools.Pool
