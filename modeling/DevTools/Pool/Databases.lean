import DevTools.Pool.Exclusivity
import DevTools.Pool.Startup
import Mathlib.Data.List.Sort

/-!
# Several databases

`MySQLDBPool` finds the pool of a database in `poolMap`. A connection does not know its pool, only
the `connOpt` in it: `FreeConnection` reads the `dbid` there and asks `poolMap` again.

Pool objects are known by number, a number is not used twice. What a connection's `connOpt` points
to is the object that made it, so that `sys.out` of an object are the connections with that
`connOpt` that callers hold. A call that touches a deleted object leads to `World.dangling`.

**Theorem (`pools_apart`).** In every run of any number of callers, the pool that `FreeConnection`
finds is the one that has made the connection, and each database's pool behaves as one that is used
alone, so that each of its connections is in exactly one place. The branch for a connection whose
database is not registered is never reached: `ReleaseAll` is all that takes a database out of
`poolMap`, and it deletes the `connOpt` as well (`release_dangles`). Until it is called, no deleted
object is used (`alive_of_kept`).

As in `Sys`, every `close()` succeeds. What `MySQLDBPool` does without its mutex is not modelled as
such: `ReleaseAll` lowers `runing` once before it takes the lock, and `GetConnection` and
`FreeConnection` read `poolMap` while another thread may be writing it. Here each of them is a step.
-/

namespace DevTools.Pool

/-- A `MySQLSingleDBPool` with its callers. -/
structure PoolObject where
  dbid : Int
  connOpt : ConnectOptions
  connectstr : List Char
  sys : Sys
  /-- it is not deleted -/
  alive : Bool

/-- The `MySQLDBPool`. -/
structure Databases where
  objects : Nat → Option PoolObject
  /-- how many objects have been made -/
  made : Nat
  poolMap : List (Int × Nat)
  runing : Bool
  /-- the pools that a `Startup` in progress has still to initialise; it holds `pool_lock` -/
  starting : Option (List Nat)
  /-- `PoolCheckThFunc` has been started -/
  checking : Bool

/-- Where a run has come to. -/
inductive World
  | up (db : Databases)
  /-- a deleted object has been used -/
  | dangling
  /-- `FreeConnection` has given a connection of the first object to the second one -/
  | foreign (n n' : Nat)
  /-- `FreeConnection` has closed a connection of that object itself -/
  | unregistered (n : Nat)

namespace Databases

def new : Databases := ⟨fun _ => none, 0, [], false, none, false⟩

/-- `RegistDataBase`. -/
def registDataBase (dbid : Int) (connectstr : List Char) (min max : Int) (db : Databases) :
    Bool × Databases :=
  if (db.poolMap.lookup dbid).isSome then (false, db)
  else (true, { db with
    objects := Function.update db.objects db.made
      (some ⟨dbid, ⟨min, max, 240⟩, connectstr, Sys.start, true⟩)
    made := db.made + 1
    poolMap := db.poolMap.orderedInsert (fun e e' => e.1 ≤ e'.1) (dbid, db.made) })

/-- `Startup` up to its loop. -/
def startup (db : Databases) : Databases :=
  if db.runing then db
  else { db with runing := true, starting := some (db.poolMap.map Prod.snd) }

/-- Something has happened to an object. -/
def setSys (db : Databases) (n : Nat) (o : PoolObject) (sys : Sys) : Databases :=
  { db with objects := Function.update db.objects n (some { o with sys := sys }) }

/-- A turn of the loop of `Startup` for the object `n`. -/
def initNext (n : Nat) (o : PoolObject) (rest : List Nat) (answers : List Connect)
    (db : Databases) : Databases :=
  let res := o.sys.pool.initPool o.connOpt (spliteStr o.connectstr).1 answers
  { db.setSys n o { o.sys with pool := res.2 } with
    starting := if res.1 = .returned true then some rest else none }

/-- `ReleaseAll`. -/
def releaseAll (db : Databases) : Databases :=
  { db with
    runing := false
    poolMap := []
    objects := fun n => (db.objects n).map fun o =>
      if n ∈ db.poolMap.map Prod.snd then
        { o with sys := { o.sys with pool := o.sys.pool.releaseAll }, alive := false }
      else o }

/-- A method of an object goes on. -/
def inside (n : Nat) (o : PoolObject) (sys : Sys) (db : Databases) : World :=
  if o.alive then .up (db.setSys n o sys) else .dangling

/-- `FreeConnection` of a connection that the object `n` has made; `sys` is what becomes of that
object if it gets the connection. -/
def freeConnection (n : Nat) (o : PoolObject) (sys : Sys) (db : Databases) : World :=
  if o.alive then
    match db.poolMap.lookup o.dbid with
    | none => .unregistered n
    | some n' => if n' = n then .up (db.setSys n o sys) else .foreign n n'
  else .dangling

end Databases

/-- Is the step the beginning of a `FreeConnection`? In `CheckConnection` it is the `ProxStream`
that calls it. -/
def Act.Frees : Act → Prop
  | .release .. | .validate .. => True
  | _ => False

/-- Is the step inside a method of the object? -/
def Act.Inside : Act → Prop
  | .init .. | .get _ | .check _ | .release .. | .validate .. => False
  | _ => True

namespace World

inductive Call
  | regist (dbid : Int) (connectstr : List Char) (min max : Int)
  | startup
  | initNext (answers : List Connect)
  | started (thread : Bool)
  | get (dbid : Int) (time : Int)
  | check (dbid : Int) (curTime : Int)
  | act (n : Nat) (a : Act)
  | releaseAll

open Databases

/-- What takes `pool_lock` waits while `Startup` has it. `GetConnection` of a database that is not
registered returns NULL and is no step. -/
inductive Step : World → Call → World → Prop
  | regist {db : Databases} {dbid min max : Int} {connectstr : List Char} : db.starting = none →
      Step (.up db) (.regist dbid connectstr min max)
        (.up (db.registDataBase dbid connectstr min max).2)
  | startup {db : Databases} : db.starting = none → Step (.up db) .startup (.up db.startup)
  | initNext {db : Databases} {n : Nat} {o : PoolObject} {rest : List Nat}
      {answers : List Connect} : db.starting = some (n :: rest) → db.objects n = some o →
      Step (.up db) (.initNext answers) (.up (db.initNext n o rest answers))
  | started {db : Databases} {thread : Bool} : db.starting = some [] →
      Step (.up db) (.started thread)
        (.up { db with starting := none, checking := db.checking || thread })
  | get {db : Databases} {dbid time : Int} {n : Nat} {o : PoolObject} {sys : Sys} :
      db.poolMap.lookup dbid = some n → db.objects n = some o →
      Sys.Step o.connOpt o.sys (.get time) sys →
      Step (.up db) (.get dbid time) (db.inside n o sys)
  | check {db : Databases} {dbid curTime : Int} {n : Nat} {o : PoolObject} {sys : Sys} :
      db.checking = true → db.poolMap.lookup dbid = some n → db.objects n = some o →
      Sys.Step o.connOpt o.sys (.check curTime) sys →
      Step (.up db) (.check dbid curTime) (db.inside n o sys)
  | inside {db : Databases} {n : Nat} {a : Act} {o : PoolObject} {sys : Sys} : a.Inside →
      db.objects n = some o → Sys.Step o.connOpt o.sys a sys →
      Step (.up db) (.act n a) (db.inside n o sys)
  | free {db : Databases} {n : Nat} {a : Act} {o : PoolObject} {sys : Sys} : a.Frees →
      db.objects n = some o → Sys.Step o.connOpt o.sys a sys →
      Step (.up db) (.act n a) (db.freeConnection n o sys)
  | releaseAll {db : Databases} : db.starting = none →
      Step (.up db) .releaseAll (.up db.releaseAll)

def lts : LTS World Call where
  init w := w = .up Databases.new
  step := Step

end World

/-! ## One step -/

/-- The objects that are not deleted are those in `poolMap`, each under its own `dbid`. -/
structure Apart (db : Databases) : Prop where
  registered : ∀ dbid n, db.poolMap.lookup dbid = some n →
    ∃ o, db.objects n = some o ∧ o.alive = true ∧ o.dbid = dbid
  found : ∀ n o, db.objects n = some o → o.alive = true → db.poolMap.lookup o.dbid = some n
  alone : ∀ n o, db.objects n = some o → o.alive = true → (Sys.lts o.connOpt).Reach o.sys
  unmade : ∀ n, db.made ≤ n → db.objects n = none

variable {db : Databases} {n : Nat} {o : PoolObject} {sys : Sys} {a : Act}

theorem lookup_orderedInsert {l : List (Int × Nat)} {k : Int} {v : Nat} (h : l.lookup k = none)
    (k' : Int) : (l.orderedInsert (fun e e' => e.1 ≤ e'.1) (k, v)).lookup k' =
      if k' = k then some v else l.lookup k' := by
  induction l with
  | nil =>
    by_cases hk : k' = k
    · simp [hk]
    · simp [hk]
  | cons e l ih =>
    obtain ⟨k₁, v₁⟩ := e
    have hne : ¬ k = k₁ := by
      rintro rfl
      simp at h
    have hl : l.lookup k = none := by simpa [List.lookup_cons, beq_eq_false_iff_ne.2 hne] using h
    rw [List.orderedInsert_cons]
    split
    · by_cases hk : k' = k
      · simp [hk]
      · simp [List.lookup_cons, beq_eq_false_iff_ne.2 hk, hk]
    · by_cases hk : k' = k₁
      · have hk' : ¬ k' = k := fun h' => hne (h'.symm.trans hk)
        simp [hk, hk ▸ hk']
      · simp only [List.lookup_cons, beq_eq_false_iff_ne.2 hk, ih hl]

/-- A step of one object is all that its pool sees. -/
theorem apart_setSys (h : Apart db) (hn : db.objects n = some o)
    (hstep : Sys.Step o.connOpt o.sys a sys) : Apart (db.setSys n o sys) := by
  have hobj : ∀ m, (db.setSys n o sys).objects m =
      if m = n then some { o with sys := sys } else db.objects m := by
    intro m
    exact Function.update_apply _ _ _ _
  constructor
  case registered =>
    intro dbid m hm
    obtain ⟨o', ho', hlive, hid⟩ := h.registered dbid m hm
    rw [hobj]
    by_cases hmn : m = n
    · obtain rfl : o' = o := by simpa [hmn, hn] using ho'.symm
      exact ⟨_, if_pos hmn, hlive, hid⟩
    · exact ⟨o', by rw [if_neg hmn, ho'], hlive, hid⟩
  case found =>
    intro m o' hm hlive
    rw [hobj] at hm
    split_ifs at hm with hmn
    · cases hm
      exact hmn ▸ h.found n o hn hlive
    · exact h.found m o' hm hlive
  case alone =>
    intro m o' hm hlive
    rw [hobj] at hm
    split_ifs at hm with hmn
    · cases hm
      exact (h.alone n o hn hlive).step hstep
    · exact h.alone m o' hm hlive
  case unmade =>
    intro m hm
    rw [hobj]
    have hmn : m ≠ n := by
      rintro rfl
      cases hn.symm.trans (h.unmade _ hm)
    rw [if_neg hmn]
    exact h.unmade m hm

theorem apart_registDataBase (h : Apart db) (dbid : Int) (connectstr : List Char)
    (min max : Int) : Apart (db.registDataBase dbid connectstr min max).2 := by
  unfold Databases.registDataBase
  split
  · exact h
  · rename_i hfree
    have hnone := Option.not_isSome_iff_eq_none.1 hfree
    have hmade : ∀ {m o'}, db.objects m = some o' → m ≠ db.made := by
      rintro m o' hm rfl
      cases hm.symm.trans (h.unmade _ le_rfl)
    constructor
    case registered =>
      intro dbid' m hm
      simp only [lookup_orderedInsert hnone] at hm
      split_ifs at hm with hid
      · cases hm
        exact ⟨_, Function.update_self .., rfl, hid.symm⟩
      · obtain ⟨o', ho', hrest⟩ := h.registered dbid' m hm
        exact ⟨o', (Function.update_of_ne (hmade ho') ..).trans ho', hrest⟩
    case found =>
      intro m o' hm hlive
      simp only [lookup_orderedInsert hnone]
      by_cases hmn : m = db.made
      · simp only [hmn, Function.update_self, Option.some.injEq] at hm
        rw [← hm, if_pos rfl, hmn]
      · simp only [Function.update_of_ne hmn] at hm
        have hfound := h.found m o' hm hlive
        have hid : o'.dbid ≠ dbid := by
          intro hid
          rw [hid, hnone] at hfound
          cases hfound
        rw [if_neg hid, hfound]
    case alone =>
      intro m o' hm hlive
      by_cases hmn : m = db.made
      · simp only [hmn, Function.update_self, Option.some.injEq] at hm
        rw [← hm]
        exact .init rfl
      · simp only [Function.update_of_ne hmn] at hm
        exact h.alone m o' hm hlive
    case unmade =>
      intro m hm
      have hm : db.made + 1 ≤ m := hm
      simp only [Function.update_of_ne (show m ≠ db.made by omega)]
      exact h.unmade m (by omega)

/-- What only changes the flags. -/
theorem Apart.of_eq {db' : Databases} (h : Apart db) (hobjects : db'.objects = db.objects)
    (hmap : db'.poolMap = db.poolMap) (hmade : db'.made = db.made) : Apart db' := by
  constructor
  · rw [hobjects, hmap]
    exact h.registered
  · rw [hobjects, hmap]
    exact h.found
  · rw [hobjects]
    exact h.alone
  · rw [hobjects, hmade]
    exact h.unmade

theorem apart_releaseAll (h : Apart db) : Apart db.releaseAll := by
  have hdead : ∀ n o, db.releaseAll.objects n = some o → o.alive = true → False := by
    intro n o hn hlive
    obtain ⟨o', ho', rfl⟩ := Option.map_eq_some_iff.1 hn
    split at hlive
    · cases hlive
    · rename_i hout
      obtain ⟨l₁, l₂, hl, -⟩ := List.lookup_eq_some_iff.1 (h.found n o' ho' hlive)
      exact hout (by simp [hl])
  refine ⟨nofun, fun n o hn hlive => (hdead n o hn hlive).elim,
    fun n o hn hlive => (hdead n o hn hlive).elim, fun n hn => ?_⟩
  show (db.objects n).map _ = none
  rw [h.unmade n hn]
  rfl

/-- What runs may lead to. -/
def World.Good : World → Prop
  | .up db => Apart db
  | .dangling => True
  | .foreign _ _ | .unregistered _ => False

theorem good_inside (h : Apart db) (hn : db.objects n = some o)
    (hstep : Sys.Step o.connOpt o.sys a sys) : (db.inside n o sys).Good := by
  unfold Databases.inside
  split
  · exact apart_setSys h hn hstep
  · trivial

theorem good_freeConnection (h : Apart db) (hn : db.objects n = some o)
    (hstep : Sys.Step o.connOpt o.sys a sys) : (db.freeConnection n o sys).Good := by
  unfold Databases.freeConnection
  split
  · rename_i hlive
    rw [h.found n o hn hlive]
    simp only [if_true]
    exact apart_setSys h hn hstep
  · trivial

theorem good_step {w w' : World} {c : World.Call} (h : w.Good) (hstep : World.Step w c w') :
    w'.Good := by
  cases hstep with
  | regist _ => exact apart_registDataBase h _ _ _ _
  | startup _ =>
    unfold Databases.startup
    split
    · exact h
    · exact Apart.of_eq h rfl rfl rfl
  | initNext _ hn => exact Apart.of_eq (apart_setSys h hn .init) rfl rfl rfl
  | started _ => exact Apart.of_eq h rfl rfl rfl
  | get _ hn hact => exact good_inside h hn hact
  | check _ _ hn hact => exact good_inside h hn hact
  | inside _ hn hact => exact good_inside h hn hact
  | free _ hn hact => exact good_freeConnection h hn hact
  | releaseAll _ => exact apart_releaseAll h

/-! ## Every run -/

variable {w : World}

theorem good_reach (h : World.lts.Reach w) : w.Good := by
  refine LTS.Reach.invariant (I := World.Good) ?_ (fun _ _ _ => good_step) h
  rintro _ rfl
  exact ⟨nofun, nofun, nofun, fun _ _ => rfl⟩

/-- **Every connection goes back to the pool that made it.** -/
theorem pools_apart (h : World.lts.Reach w) : w = .dangling ∨ ∃ db, w = .up db ∧
    ∀ dbid n, db.poolMap.lookup dbid = some n → ∃ o, db.objects n = some o ∧ o.dbid = dbid ∧
      (Sys.lts o.connOpt).Reach o.sys ∧
      (∀ sys, db.freeConnection n o sys = .up (db.setSys n o sys)) ∧
      ∀ id, id < o.sys.pool.opened → (Sys.queued o.sys).count id + (Sys.held o.sys).count id +
        (Sys.working o.sys).count id + (Sys.closed o.sys).count id = 1 := by
  have hgood := good_reach h
  cases w with
  | dangling => exact .inl rfl
  | foreign n n' => exact hgood.elim
  | unregistered n => exact hgood.elim
  | up db =>
    refine .inr ⟨db, rfl, fun dbid n hn => ?_⟩
    obtain ⟨o, ho, hlive, hid⟩ := hgood.registered dbid n hn
    have hreach := hgood.alone n o ho hlive
    refine ⟨o, ho, hid, hreach, fun sys => ?_, fun id hmade => Sys.count_places hreach hmade⟩
    simp [Databases.freeConnection, hlive, hid, hn]

/-- `ReleaseAll` is not called. -/
def World.Kept (_ : World) (c : World.Call) : Prop := c ≠ .releaseAll

/-- No object has been deleted. -/
def World.Alive (w : World) : Prop :=
  ∃ db, w = .up db ∧ ∀ n o, db.objects n = some o → o.alive = true

theorem alive_setSys (h : ∀ n o, db.objects n = some o → o.alive = true)
    (hn : db.objects n = some o) (sys : Sys) :
    ∀ m o', (db.setSys n o sys).objects m = some o' → o'.alive = true := by
  intro m o' hm
  by_cases hmn : m = n
  · simp only [Databases.setSys, hmn, Function.update_self, Option.some.injEq] at hm
    rw [← hm]
    exact h n o hn
  · simp only [Databases.setSys, Function.update_of_ne hmn] at hm
    exact h m o' hm

theorem alive_inside (h : ∀ n o, db.objects n = some o → o.alive = true)
    (hn : db.objects n = some o) (sys : Sys) : (db.inside n o sys).Alive := by
  unfold Databases.inside
  rw [if_pos (h n o hn)]
  exact ⟨_, rfl, alive_setSys h hn sys⟩

/-- Without `ReleaseAll` no deleted object is used. -/
theorem alive_of_kept (h : (World.lts.restrict World.Kept).Reach w) : w.Alive := by
  suffices hboth : w.Good ∧ w.Alive from hboth.2
  refine LTS.Reach.invariant (I := fun w : World => w.Good ∧ w.Alive) ?_ ?_ h
  · rintro _ rfl
    exact ⟨good_reach (.init rfl), _, rfl, nofun⟩
  · rintro _ c w' ⟨hgood, db, rfl, halive⟩ ⟨hkept, hstep⟩
    refine ⟨good_step hgood hstep, ?_⟩
    cases hstep with
    | regist _ =>
      refine ⟨_, rfl, ?_⟩
      unfold Databases.registDataBase
      split
      · exact halive
      · intro m o' hm
        by_cases hmn : m = db.made
        · simp only [hmn, Function.update_self, Option.some.injEq] at hm
          rw [← hm]
        · simp only [Function.update_of_ne hmn] at hm
          exact halive m o' hm
    | startup _ =>
      refine ⟨_, rfl, ?_⟩
      unfold Databases.startup
      split
      · exact halive
      · exact halive
    | initNext _ hn => exact ⟨_, rfl, alive_setSys halive hn _⟩
    | started _ => exact ⟨_, rfl, halive⟩
    | get _ hn _ => exact alive_inside halive hn _
    | check _ _ hn _ => exact alive_inside halive hn _
    | inside _ hn _ => exact alive_inside halive hn _
    | free _ hn hact =>
      unfold Databases.freeConnection
      rw [if_pos (halive _ _ hn), hgood.found _ _ hn (halive _ _ hn)]
      simp only [if_true]
      exact ⟨_, rfl, alive_setSys halive hn _⟩
    | releaseAll _ => exact absurd rfl hkept

/-! ## `ReleaseAll` -/

def sampleRegistered : Databases :=
  (Databases.new.registDataBase 0 "root/1@127.0.0.1:3306/test".toList 1 1).2

/-- The pool of the only database. -/
def sampleObject (sys : Sys) : PoolObject where
  dbid := 0
  connOpt := ⟨1, 1, 240⟩
  connectstr := "root/1@127.0.0.1:3306/test".toList
  sys := sys
  alive := true

def sampleRuning (sys : Sys) : Databases :=
  { sampleRegistered with
    objects := Function.update sampleRegistered.objects 0 (some (sampleObject sys))
    runing := true
    checking := true }

theorem sampleObject_init : SingleDBPool.new.initPool ⟨1, 1, 240⟩
    (spliteStr "root/1@127.0.0.1:3306/test".toList).1 [.conn 0] =
      (.returned true, Sys.sampleStarted.pool) := by decide +kernel

theorem sampleRuning_reach : World.lts.Reach (.up (sampleRuning Sys.sampleStarted)) := by
  have hnew : World.lts.Reach (.up Databases.new) := .init rfl
  have hregist : World.lts.Reach (.up sampleRegistered) := hnew.step (.regist rfl)
  have hstartup := hregist.step (.startup rfl)
  have hinit : World.lts.Reach (.up (sampleRegistered.startup.initNext 0
    (sampleObject Sys.start) [] [.conn 0])) := hstartup.step (.initNext rfl rfl)
  have heq : sampleRegistered.startup.initNext 0 (sampleObject Sys.start) [] [.conn 0] =
      { sampleRuning Sys.sampleStarted with starting := some [], checking := false } := by
    unfold Databases.initNext
    rw [show (sampleObject Sys.start).sys.pool.initPool (sampleObject Sys.start).connOpt
      (spliteStr (sampleObject Sys.start).connectstr).1 [.conn 0] = _ from sampleObject_init]
    rfl
  rw [heq] at hinit
  have hstarted : World.Step (.up { sampleRuning Sys.sampleStarted with
    starting := some [], checking := false }) (.started true)
    (.up (sampleRuning Sys.sampleStarted)) := .started rfl
  exact hinit.step hstarted

/-- A caller has the connection. -/
theorem sampleOut_world : World.lts.Reach (.up (sampleRuning Sys.sampleOut)) := by
  have hset : ∀ sys sys', (sampleRuning sys).inside 0 (sampleObject sys) sys' =
      .up (sampleRuning sys') := by
    intro sys sys'
    simp [Databases.inside, Databases.setSys, sampleRuning, sampleObject]
  have hget : Sys.Step ⟨1, 1, 240⟩ Sys.sampleStarted (.get 500)
      { Sys.sampleStarted with busy := {.get 500} } := .get rfl
  have hlocked : Sys.Step ⟨1, 1, 240⟩ { Sys.sampleStarted with busy := {.get 500} }
      (.getLocked 500 .null) Sys.sampleOut := .getLocked rfl
  have hfirst : World.Step (.up (sampleRuning Sys.sampleStarted)) (.get 0 500)
      ((sampleRuning Sys.sampleStarted).inside 0 (sampleObject Sys.sampleStarted) _) :=
    .get rfl rfl hget
  have hsecond : ∀ sys, Sys.Step ⟨1, 1, 240⟩ sys (.getLocked 500 .null) Sys.sampleOut →
      World.Step (.up (sampleRuning sys)) (.act 0 (.getLocked 500 .null))
        ((sampleRuning sys).inside 0 (sampleObject sys) Sys.sampleOut) :=
    fun sys hsys => .inside trivial rfl hsys
  have hgot := (sampleRuning_reach.step (hset _ _ ▸ hfirst)).step (hsecond _ hlocked)
  rwa [hset] at hgot

theorem pools_apart_sample :
    ∃ o, (sampleRuning Sys.sampleOut).objects 0 = some o ∧
      ∀ sys, (sampleRuning Sys.sampleOut).freeConnection 0 o sys =
        .up ((sampleRuning Sys.sampleOut).setSys 0 o sys) := by
  obtain hdangling | ⟨db, hdb, hall⟩ := pools_apart sampleOut_world
  · cases hdangling
  · cases hdb
    obtain ⟨o, ho, -, -, hfree, -⟩ := hall 0 0 rfl
    exact ⟨o, ho, hfree⟩

/-- A connection that is given back after `ReleaseAll` is asked for a `dbid` that is gone. -/
theorem release_dangles : World.lts.Reach .dangling := by
  have hreleased := sampleOut_world.step (.releaseAll rfl)
  have hrelease : Sys.Step ⟨1, 1, 240⟩ { Sys.sampleOut with pool := Sys.sampleOut.pool.releaseAll }
      (.release ⟨0, 500, false⟩ false 501) _ := .release (O := 0) rfl
  have hfrees : (Act.release ⟨0, 500, false⟩ false 501).Frees := trivial
  have hdeleted : (sampleRuning Sys.sampleOut).releaseAll.objects 0 = some
      { sampleObject { Sys.sampleOut with pool := Sys.sampleOut.pool.releaseAll } with
        alive := false } := rfl
  exact hreleased.step (World.Step.free hfrees hdeleted hrelease)

end DevTools.Pool
