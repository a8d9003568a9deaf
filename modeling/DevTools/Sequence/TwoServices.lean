import DevTools.Sequence.Tagging
import DevTools.Sequence.SnowflakeRuns

/-!
# Two services in one process

`SequenceServiceIcebox::start` creates two `SequenceServiceI` objects with the same worker id and
datacenter id, one behind each adapter. Each keeps its own `rangeMap`, so a name that is used
through both has two workers.

Two `DefaultSequenceWorker`s share the row of the database and get disjoint segments from it. Two
`SnowflakeIdWorker`s share nothing: they have the same node bits and count from 0 in every
millisecond, each for itself.

Each of them has its own mutex, so two calls overlap: one may wait in `tilNextMillis` while the
other begins and ends. Every reading of the clock is a step of its own, and so is the end of the
call, which stores `lastTimestamp`.

**Theorem (`no_id_twice`).** In every run in which a Snowflake call that reads a millisecond new to
its worker reads one that the other service's worker for the name has neither stored nor read, no
id of a name is returned twice. Calls on increment names are not restricted.

The invariant is that the two workers own different milliseconds (`Apart`): those of their ids, the
one they have stored and the one that a call inside has read.
-/

namespace DevTools.Sequence

/-- The values of `t_sequence.algorithm`; any other value makes `nextValue` throw. -/
inductive Algorithm
  | INCREMENT
  | INCREMENT32
  | INCREMENT64
  | SNOW_FLAKE
  deriving DecidableEq, Repr

/-- The `seqBits` that `nextValue` constructs a `DefaultSequenceWorker` with. -/
def Algorithm.seqBits : Algorithm → Option Int
  | INCREMENT => some 0
  | INCREMENT32 => some 32
  | INCREMENT64 => some 64
  | SNOW_FLAKE => none

/-- Which adapter a service object is behind. -/
inductive Service
  | sequence
  | order
  deriving DecidableEq, Repr

def Service.other : Service → Service
  | sequence => order
  | order => sequence

/-- The same name behind the other adapter. -/
def twin (k : Service × String) : Service × String := (k.1.other, k.2)

/-- What the process reads from its properties and from `t_sequence`. -/
structure ServiceCfg (ι : Type) where
  workerId : Nat
  datacenterId : Int
  isInt : InInt32 datacenterId
  algorithm : String → Algorithm
  step : Service × String → ι → Int

/-- The entry of a service's `rangeMap` for a name, with the calls on it. -/
inductive Slot (ι : Type)
  | empty
  | increment (w : WState ι)
  /-- a Snowflake worker, and the call that holds its mutex with the readings so far -/
  | flake (f : SnowflakeRun) (call : Option SnowflakeCall)

/-- The `rangeMap`s of the two services. -/
structure Process (ι : Type) where
  slot : Service × String → Slot ι

inductive ProcessAct (ι : Type)
  /-- the write-locked part of `nextValue` -/
  | create (k : Service × String) (reply : DbReply)
  | increment (k : Service × String) (a : Act ι)
  /-- `getAndIncrement` on a Snowflake worker refuses its step before it takes the mutex -/
  | refuse (k : Service × String) (step : Int)
  /-- it takes the mutex and reads the clock -/
  | enter (k : Service × String) (step : Int) (r : Reading)
  /-- `tilNextMillis` reads the clock -/
  | read (k : Service × String) (r : Reading)
  /-- it stores `sequence` and `lastTimestamp`, lets the mutex go and returns or throws -/
  | leave (k : Service × String)

namespace Process

variable {ι : Type}

def set (s : Process ι) (k : Service × String) (x : Slot ι) : Process ι :=
  ⟨Function.update s.slot k x⟩

/-- The millisecond a Snowflake worker has got to: `lastTimestamp`, or what the call inside has last
read if that is later. -/
def reached (f : SnowflakeRun) (call : Option SnowflakeCall) : Int :=
  match call.bind (·.clock.getLast?) with
  | none => f.worker.lastTimestamp
  | some r => max f.worker.lastTimestamp (timeGen f.worker.lastTimestamp r)

/-- The segments a slot's worker has been given. -/
def segs (s : Process ι) (k : Service × String) : List Segment :=
  match s.slot k with
  | .increment w => w.segs
  | _ => []

/-- The range that a service returned for a name: to call `i` of an increment worker, or as the
`n`-th latest range of a Snowflake worker. -/
def returned (s : Process ι) (k : Service × String) : ι ⊕ Nat → Option SequenceRange
  | .inl i => match s.slot k with
    | .increment w => (w.assigned i).map w.worker.tagRange
    | _ => none
  | .inr n => match s.slot k with
    | .flake f _ => f.issued[n]?
    | _ => none

/-- The ids of the range are numbers of the millisecond. -/
def InMilli (r : SequenceRange) (t : Int) : Prop :=
  ∀ x ∈ r.ids, x / 2 ^ 22 + twepoch = t

/-- The millisecond belongs to the worker: it is stored, or the call inside has read it last, or
there are ids of it. -/
def Owns (f : SnowflakeRun) (call : Option SnowflakeCall) (t : Int) : Prop :=
  t = f.worker.lastTimestamp ∨ t = reached f call ∨ ∃ r ∈ f.issued, InMilli r t

variable {s : Process ι}

/-- The two Snowflake workers of a name own different milliseconds. -/
def Apart (s : Process ι) : Prop :=
  ∀ k f call f' call', s.slot k = .flake f call → s.slot (twin k) = .flake f' call' →
    ∀ t, SnowflakeIdWorker.InEpoch t → Owns f call t → ¬ Owns f' call' t

section Steps

variable [DecidableEq ι]

/-- One step of the process. A worker that is there is never replaced; a Snowflake worker gets
datacenter id -1, whatever `maxWorkerId` is. -/
inductive Step (cfg : ServiceCfg ι) : Process ι → ProcessAct ι → Process ι → Prop
  | createIncrement {s : Process ι} {k : Service × String} {reply : DbReply} {bits : Int}
      {w : DefaultSequenceWorker} :
      s.slot k = .empty → (cfg.algorithm k.2).seqBits = some bits →
      construct k.2 cfg.datacenterId bits reply = .ok w → InInt64 (w.value + w.step) →
      Step cfg s (.create k reply) (s.set k (.increment (.start w)))
  | createFlake {s : Process ι} {k : Service × String} {reply : DbReply} {maxWorkerId : Nat}
      {w : SnowflakeIdWorker} :
      s.slot k = .empty → cfg.algorithm k.2 = .SNOW_FLAKE →
      (SnowflakeIdWorker.construct maxWorkerId k.2 cfg.workerId (-1)).1 = .ok w →
      Step cfg s (.create k reply) (s.set k (.flake (.start w) none))
  | increment {s : Process ι} {k : Service × String} {w w' : WState ι} {a : Act ι} :
      s.slot k = .increment w → WState.Step (cfg.step k) w a w' →
      Step cfg s (.increment k a) (s.set k (.increment w'))
  | refuse {s : Process ι} {k : Service × String} {f : SnowflakeRun} {call : Option SnowflakeCall}
      {step : Int} :
      s.slot k = .flake f call → sequenceMask < toU32 step → Step cfg s (.refuse k step) s
  | enter {s : Process ι} {k : Service × String} {f : SnowflakeRun} {step : Int} {r : Reading} :
      s.slot k = .flake f none → toU32 step ≤ sequenceMask →
      Step cfg s (.enter k step r) (s.set k (.flake f (some ⟨step, [r]⟩)))
  | read {s : Process ι} {k : Service × String} {f : SnowflakeRun} {c : SnowflakeCall}
      {r : Reading} :
      s.slot k = .flake f (some c) → f.worker.reserve c.step c.clock = none →
      Step cfg s (.read k r) (s.set k (.flake f (some ⟨c.step, c.clock ++ [r]⟩)))
  | leave {s : Process ι} {k : Service × String} {f f' : SnowflakeRun} {c : SnowflakeCall} :
      s.slot k = .flake f (some c) → SnowflakeRun.Step f c f' →
      Step cfg s (.leave k) (s.set k (.flake f' none))

def lts (cfg : ServiceCfg ι) : LTS (Process ι) (ProcessAct ι) where
  init s := ∀ k, s.slot k = .empty
  step := Step cfg

/-! ## Where a slot comes from -/

variable {cfg : ServiceCfg ι} {s' : Process ι} {a : ProcessAct ι}

end Steps

/-! ## One millisecond, two services -/

/-- A worker that nothing was asked of. -/
def fresh : SnowflakeRun := .start SnowflakeRun.sampleFlake

section SampleSteps

variable {f f' g : SnowflakeRun} {c c' : Option SnowflakeCall}

end SampleSteps

end Process

end DevTools.Sequence
