import DevTools.Pool.SingleDBPool
import DevTools.Lib.Transition
import Mathlib.Data.Multiset.Basic
import Mathlib.Algebra.BigOperators.Group.Multiset.Basic

/-!
# Concurrent use of a pool

Any number of threads call `InitPool`, `GetConnection`, `ReleaseConnect` and `CheckConnection` on
one pool. What runs under the mutex is one step; between its steps an operation is an `Op` in
`busy`. `out` holds the connections that callers have been given, and a caller only releases
what is there.

`ReleaseConnect` is called by callers and, through `ProxStream` and `FreeConnection`, by
`CheckConnection` for every connection it has validated. Its `rest` says which: `none`, or the
connections that are still to be validated.

`evicted` and `taken` are ghosts that count what the two loops of `CheckConnection` have popped.

In `Sys` every `Connection::close()` succeeds. That is an assumption of what is stated about `Sys`
alone; `PoolProcess` adds the closes that throw. No such assumption is made of `setAutoCommit`:
behind `connect` an exception of it is a connect that throws, and `ReleaseConnect` calls it when the
queue and the counter are done.
-/

namespace DevTools.Pool

open SingleDBPool

/-- An operation between two of its steps. -/
inductive Op
  /-- `GetConnection` before the lock -/
  | get (time : Int)
  /-- `ReleaseConnect` of a good connection before the lock -/
  | push (c : Connection) (rest : Option (List Connection))
  /-- `ReleaseConnect` of another connection before `close` -/
  | close (c : Connection) (rest : Option (List Connection))
  /-- `ReleaseConnect` after `delete` -/
  | countDown (rest : Option (List Connection))
  /-- `CheckConnection` before its first loop -/
  | evict (curTime : Int)
  /-- `CheckConnection` closing what the first loop has popped -/
  | closing (tmpQueue : List Connection)
  /-- `CheckConnection` before its second loop -/
  | take (curTime : Int)
  /-- `CheckConnection` validating what the second loop has popped -/
  | validate (tmpQueue : List Connection)
  deriving DecidableEq

/-- A pool with its callers. -/
structure Sys where
  pool : SingleDBPool
  /-- the connections that are checked out -/
  out : Multiset Connection
  /-- the operations in progress -/
  busy : Multiset Op
  /-- ghost: popped by the first loop of `CheckConnection` -/
  evicted : Nat
  /-- ghost: popped by the second loop of `CheckConnection` -/
  taken : Nat

inductive Act
  | init (parsed : Bool) (answers : List Connect)
  | get (time : Int)
  | getLocked (time : Int) (answer : Connect)
  | release (c : Connection) (isErr : Bool) (now : Int)
  | push (c : Connection) (rest : Option (List Connection))
  | close (c : Connection) (rest : Option (List Connection))
  | countDown (rest : Option (List Connection))
  | check (curTime : Int)
  | evict (curTime : Int)
  | closeIdle (c : Connection) (tmpQueue : List Connection)
  | closed (curTime : Int)
  | take (curTime : Int)
  | validate (c : Connection) (tmpQueue : List Connection) (isErr : Bool) (now : Int)
  | checked

namespace Sys

/-- A pool as constructed. -/
def start : Sys := ⟨SingleDBPool.new, 0, 0, 0, 0⟩

/-- `ReleaseConnect` up to its test: a good connection of a running pool is stamped and goes
back, any other one is closed. -/
def startRelease (p : SingleDBPool) (c : Connection) (now : Int)
    (rest : Option (List Connection)) : Op :=
  if p.runing ∧ ¬ c.isErr then .push { c with lastTime := now } rest else .close c rest

/-- What follows a `ReleaseConnect`: nothing, or the next validation. -/
def afterRelease : Option (List Connection) → Multiset Op
  | none => 0
  | some tmpQueue => {.validate tmpQueue}

/-- A step of the pool. `isErr` says that the holder has found the connection broken. -/
inductive Step (opt : ConnectOptions) : Sys → Act → Sys → Prop
  | init {s : Sys} {parsed : Bool} {answers : List Connect} :
      Step opt s (.init parsed answers) { s with pool := (initPool opt parsed answers s.pool).2 }
  | get {s : Sys} {time : Int} : s.pool.runing →
      Step opt s (.get time) { s with busy := .get time ::ₘ s.busy }
  | getLocked {s : Sys} {time : Int} {answer : Connect} {B : Multiset Op} :
      s.busy = .get time ::ₘ B →
      Step opt s (.getLocked time answer)
        { s with pool := (getConnection opt time answer s.pool).2
                 out := (getConnection opt time answer s.pool).1.toList + s.out
                 busy := B }
  | release {s : Sys} {c : Connection} {isErr : Bool} {now : Int} {O : Multiset Connection} :
      s.out = c ::ₘ O →
      Step opt s (.release c isErr now)
        { s with out := O
                 busy := startRelease s.pool { c with isErr := c.isErr || isErr } now none ::ₘ
                   s.busy }
  | push {s : Sys} {c : Connection} {rest : Option (List Connection)} {B : Multiset Op} :
      s.busy = .push c rest ::ₘ B →
      Step opt s (.push c rest)
        { s with pool := s.pool.pushFree c, busy := afterRelease rest + B }
  | close {s : Sys} {c : Connection} {rest : Option (List Connection)} {B : Multiset Op} :
      s.busy = .close c rest ::ₘ B →
      Step opt s (.close c rest)
        { s with pool := s.pool.closeConn c, busy := .countDown rest ::ₘ B }
  | countDown {s : Sys} {rest : Option (List Connection)} {B : Multiset Op} :
      s.busy = .countDown rest ::ₘ B →
      Step opt s (.countDown rest)
        { s with pool := s.pool.countDown, busy := afterRelease rest + B }
  | check {s : Sys} {curTime : Int} :
      Step opt s (.check curTime) { s with busy := .evict curTime ::ₘ s.busy }
  | evict {s : Sys} {curTime : Int} {B : Multiset Op} : s.busy = .evict curTime ::ₘ B →
      Step opt s (.evict curTime)
        { s with pool := (evictIdle opt curTime s.pool).2
                 busy := .closing (evictIdle opt curTime s.pool).1 ::ₘ B
                 evicted := s.evicted + (evictIdle opt curTime s.pool).1.length }
  | closeIdle {s : Sys} {c : Connection} {tmpQueue : List Connection} {B : Multiset Op} :
      s.busy = .closing (c :: tmpQueue) ::ₘ B →
      Step opt s (.closeIdle c tmpQueue)
        { s with pool := s.pool.closeConn c, busy := .closing tmpQueue ::ₘ B }
  | closed {s : Sys} {curTime : Int} {B : Multiset Op} : s.busy = .closing [] ::ₘ B →
      Step opt s (.closed curTime) { s with busy := .take curTime ::ₘ B }
  | take {s : Sys} {curTime : Int} {B : Multiset Op} : s.busy = .take curTime ::ₘ B →
      Step opt s (.take curTime)
        { s with pool := (takeExpired opt curTime s.pool).2
                 busy := .validate (takeExpired opt curTime s.pool).1 ::ₘ B
                 taken := s.taken + (takeExpired opt curTime s.pool).1.length }
  | validate {s : Sys} {c : Connection} {tmpQueue : List Connection} {isErr : Bool} {now : Int}
      {B : Multiset Op} : s.busy = .validate (c :: tmpQueue) ::ₘ B →
      Step opt s (.validate c tmpQueue isErr now)
        { s with busy :=
            startRelease s.pool { c with isErr := c.isErr || isErr } now (some tmpQueue) ::ₘ B }
  | checked {s : Sys} {B : Multiset Op} : s.busy = .validate [] ::ₘ B →
      Step opt s .checked { s with busy := B }

def lts (opt : ConnectOptions) : LTS Sys Act where
  init s := s = start
  step := Step opt

end Sys

/-! ## When `close` throws -/

/-- A process with one pool. -/
inductive PoolProcess
  /-- `lost` is a ghost: the connections whose `close` has thrown, which nobody deletes -/
  | up (s : Sys) (lost : Multiset Connection)
  /-- ended by an exception that left the thread of `CheckConnection` -/
  | ended

inductive PoolEvent
  | act (a : Act)
  /-- `close` throws in the `ReleaseConnect` of a caller -/
  | releaseThrows (c : Connection)
  /-- `close` throws in `CheckConnection`, or in a `ReleaseConnect` that it has made -/
  | checkThrows (c : Connection)

namespace PoolProcess

/-- The exception skips `delete` and the count behind it; no handler is around `CheckConnection`. -/
inductive Step (opt : ConnectOptions) : PoolProcess → PoolEvent → PoolProcess → Prop
  | act {s s' : Sys} {lost : Multiset Connection} {a : Act} : Sys.Step opt s a s' →
      Step opt (.up s lost) (.act a) (.up s' lost)
  | releaseThrows {s : Sys} {lost : Multiset Connection} {c : Connection} {B : Multiset Op} :
      s.busy = .close c none ::ₘ B →
      Step opt (.up s lost) (.releaseThrows c) (.up { s with busy := B } (c ::ₘ lost))
  | validateThrows {s : Sys} {lost : Multiset Connection} {c : Connection}
      {tmpQueue : List Connection} {B : Multiset Op} :
      s.busy = .close c (some tmpQueue) ::ₘ B → Step opt (.up s lost) (.checkThrows c) .ended
  | idleThrows {s : Sys} {lost : Multiset Connection} {c : Connection}
      {tmpQueue : List Connection} {B : Multiset Op} :
      s.busy = .closing (c :: tmpQueue) ::ₘ B → Step opt (.up s lost) (.checkThrows c) .ended

def lts (opt : ConnectOptions) : LTS PoolProcess PoolEvent where
  init x := x = .up Sys.start 0
  step := Step opt

end PoolProcess

end DevTools.Pool
