import DevTools.Sequence.DefaultWorker
import DevTools.Lib.Transition
import DevTools.Lib.Claims
import DevTools.Lib.RwLock

/-!
# Concurrent calls on one worker

Any number of `getAndIncrement` calls run on one `DefaultSequenceWorker`. A call is a program
counter; the steps are the source's atomic actions:

* taking the read lock, the test `value >= max`, the fetch-and-add, the classification of the
  result against `max`, releasing the lock;
* for a call whose fast path failed, the same under the write lock, after testing `value >= max`
  once more and refilling if it holds.

Every call has its own index and its own step, and returns once. The lock is not a field: who
holds it can be read off the program counters. `segs` is a ghost that remembers the segments
`nextRange` installed, newest first.
-/

namespace DevTools.Sequence

/-- Which lock a run of `addAndIncrement` holds. -/
inductive Mode
  | read
  | write
  deriving DecidableEq, Repr

def Mode.hold : Mode → Hold
  | .read => .read
  | .write => .write

/-- Where a call of `getAndIncrement` stands. -/
inductive Pc
  | idle
  /-- before `RLock` or `WLock` -/
  | wait (m : Mode)
  /-- before the write-locked `value >= max` -/
  | check
  /-- in the write-locked `nextRange` -/
  | refill
  /-- before the `value >= max` of `addAndIncrement` -/
  | test (m : Mode)
  /-- before the fetch-and-add -/
  | add (m : Mode)
  /-- after the fetch-and-add, holding its result -/
  | classify (m : Mode) (currentValue : Int)
  /-- after `addAndIncrement`, before the lock is released -/
  | done (m : Mode) (res : Option SequenceRange)
  /-- returned 0; the range is the raw one, before the datacenter mask -/
  | returned (r : SequenceRange)
  /-- returned a status other than 0 -/
  | failed
  /-- left by an exception -/
  | threw
  deriving DecidableEq, Repr

def Pc.hold : Pc → Hold
  | .check | .refill => .write
  | .test m | .add m | .classify m _ | .done m _ => m.hold
  | _ => .free

/-- Where a call goes once it has the lock. -/
def Pc.entry : Mode → Pc
  | .read => .test .read
  | .write => .check

/-- Where a call goes once it has released the lock. -/
def Pc.exit : Mode → Option SequenceRange → Pc
  | _, some r => .returned r
  | .read, none => .wait .write
  | .write, none => .failed

/-- The range that a call at this point is bound to be assigned: from the fetch-and-add on it
is settled, as long as `max` stays what it is. -/
def Pc.claim (step max : Int) : Pc → Option SequenceRange
  | .classify _ cur => Sequence.classify cur step max
  | .done _ res => res
  | .returned r => some r
  | _ => none

/-- The counters `(start, start + len]`. -/
structure Segment where
  start : Int
  len : Int
  deriving DecidableEq, Repr

def Segment.ids (g : Segment) : Set Int := Set.Ioc g.start (g.start + g.len)

/-- The segment a worker has just been given. -/
def DefaultSequenceWorker.segment (w : DefaultSequenceWorker) : Segment := ⟨w.value, w.step⟩

/-- A worker and the calls on it. -/
structure WState (ι : Type) where
  worker : DefaultSequenceWorker
  pc : ι → Pc
  /-- ghost: the installed segments, newest first -/
  segs : List Segment

inductive Act (ι : Type)
  | call (i : ι)
  | lock (i : ι)
  | check (i : ι)
  | refill (i : ι) (reply : DbReply)
  | test (i : ι)
  | add (i : ι)
  | classify (i : ι)
  | unlock (i : ι)

namespace WState

variable {ι : Type} [DecidableEq ι]

/-- The state right after construction. -/
def start (w : DefaultSequenceWorker) : WState ι := ⟨w, fun _ => .idle, [w.segment]⟩

def goto (s : WState ι) (i : ι) (p : Pc) : WState ι := { s with pc := Function.update s.pc i p }

def hold (s : WState ι) (i : ι) : Hold := (s.pc i).hold

/-- One atomic action. `step i` is the argument of call `i`. Overflow of `int64_t` is excluded:
the fetch-and-add and the end of a new segment stay in range. -/
inductive Step (step : ι → Int) : WState ι → Act ι → WState ι → Prop
  | call {s : WState ι} {i : ι} : s.pc i = .idle → Step step s (.call i) (s.goto i (.wait .read))
  | lock {s : WState ι} {i : ι} {m : Mode} : s.pc i = .wait m → Grantable s.hold m.hold →
      Step step s (.lock i) (s.goto i (Pc.entry m))
  | check {s : WState ι} {i : ι} : s.pc i = .check →
      Step step s (.check i) (s.goto i (if s.worker.exhausted then .refill else .test .write))
  | refill {s : WState ι} {i : ι} {reply : DbReply} {w : DefaultSequenceWorker} :
      s.pc i = .refill → nextRange s.worker.name reply s.worker = .ok w →
      InInt64 (w.value + w.step) →
      Step step s (.refill i reply)
        { s.goto i (.test .write) with worker := w, segs := w.segment :: s.segs }
  | refillThrows {s : WState ι} {i : ι} {reply : DbReply} {e : RefillFailure} :
      s.pc i = .refill → nextRange s.worker.name reply s.worker = .error e →
      Step step s (.refill i reply) (s.goto i .threw)
  | test {s : WState ι} {i : ι} {m : Mode} : s.pc i = .test m →
      Step step s (.test i) (s.goto i (if s.worker.exhausted then .done m none else .add m))
  | add {s : WState ι} {i : ι} {m : Mode} : s.pc i = .add m →
      InInt64 (s.worker.value + step i) →
      Step step s (.add i)
        { s.goto i (.classify m (s.worker.addAndFetch (step i)).value) with
          worker := s.worker.addAndFetch (step i) }
  | classify {s : WState ι} {i : ι} {m : Mode} {cur : Int} : s.pc i = .classify m cur →
      Step step s (.classify i)
        (s.goto i (.done m (Sequence.classify cur (step i) s.worker.max)))
  | unlock {s : WState ι} {i : ι} {m : Mode} {res : Option SequenceRange} :
      s.pc i = .done m res → Step step s (.unlock i) (s.goto i (Pc.exit m res))

/-- The worker as a transition system, from any construction that succeeded. -/
def lts (step : ι → Int) : LTS (WState ι) (Act ι) where
  init s := ∃ name datacenterId seqBits reply w, construct name datacenterId seqBits reply = .ok w ∧
    InInt64 (w.value + w.step) ∧ s = start w
  step := Step step

/-- The same steps as a function, for finitely many calls. -/
def exec [Fintype ι] (step : ι → Int) (s : WState ι) : Act ι → Option (WState ι)
  | .call i => if s.pc i = .idle then some (s.goto i (.wait .read)) else none
  | .lock i => match s.pc i with
    | .wait m => if Grantable s.hold m.hold then some (s.goto i (Pc.entry m)) else none
    | _ => none
  | .check i => if s.pc i = .check
    then some (s.goto i (if s.worker.exhausted then .refill else .test .write)) else none
  | .refill i reply => if s.pc i = .refill then
      match nextRange s.worker.name reply s.worker with
      | .ok w => if InInt64 (w.value + w.step) then
          some { s.goto i (.test .write) with worker := w, segs := w.segment :: s.segs }
        else none
      | .error _ => some (s.goto i .threw)
    else none
  | .test i => match s.pc i with
    | .test m => some (s.goto i (if s.worker.exhausted then .done m none else .add m))
    | _ => none
  | .add i => match s.pc i with
    | .add m => if InInt64 (s.worker.value + step i) then
        some { s.goto i (.classify m (s.worker.addAndFetch (step i)).value) with
          worker := s.worker.addAndFetch (step i) }
      else none
    | _ => none
  | .classify i => match s.pc i with
    | .classify m cur => some (s.goto i (.done m (Sequence.classify cur (step i) s.worker.max)))
    | _ => none
  | .unlock i => match s.pc i with
    | .done m res => some (s.goto i (Pc.exit m res))
    | _ => none

theorem exec_sound [Fintype ι] {step : ι → Int} {s s' : WState ι} {a : Act ι}
    (h : exec step s a = some s') : Step step s a s' := by
  cases a with
  | call i =>
    simp only [exec, Option.ite_none_right_eq_some, Option.some.injEq] at h
    obtain ⟨hi, rfl⟩ := h
    exact .call hi
  | lock i =>
    simp only [exec] at h
    split at h
    · rename_i m hi
      simp only [Option.ite_none_right_eq_some, Option.some.injEq] at h
      obtain ⟨hg, rfl⟩ := h
      exact .lock hi hg
    · cases h
  | check i =>
    simp only [exec, Option.ite_none_right_eq_some, Option.some.injEq] at h
    obtain ⟨hi, rfl⟩ := h
    exact .check hi
  | refill i reply =>
    simp only [exec, Option.ite_none_right_eq_some] at h
    obtain ⟨hi, h⟩ := h
    split at h
    · rename_i w hw
      simp only [Option.ite_none_right_eq_some, Option.some.injEq] at h
      obtain ⟨hr, rfl⟩ := h
      exact .refill hi hw hr
    · rename_i e he
      cases h
      exact .refillThrows hi he
  | test i =>
    simp only [exec] at h
    split at h
    · cases h
      exact .test ‹_›
    · cases h
  | add i =>
    simp only [exec] at h
    split at h
    · simp only [Option.ite_none_right_eq_some, Option.some.injEq] at h
      obtain ⟨hr, rfl⟩ := h
      exact .add ‹_› hr
    · cases h
  | classify i =>
    simp only [exec] at h
    split at h
    · cases h
      exact .classify ‹_›
    · cases h
  | unlock i =>
    simp only [exec] at h
    split at h
    · cases h
      exact .unlock ‹_›
    · cases h

/-- The raw range a call was assigned with status 0. -/
def assigned (s : WState ι) (i : ι) : Option SequenceRange :=
  match s.pc i with
  | .done _ res => res
  | .returned r => some r
  | _ => none

/-- The range a call will be assigned by what it has done so far. -/
def claim (step : ι → Int) (s : WState ι) (i : ι) : Option SequenceRange :=
  (s.pc i).claim (step i) s.worker.max

end WState

/-- The ids of a range. -/
def SequenceRange.ids (r : SequenceRange) : Set Int := Set.Icc r.min r.max

/-- A range that ends before another one begins. -/
theorem SequenceRange.disjoint_of_lt {r r' : SequenceRange} (h : r.max < r'.min) :
    Disjoint r.ids r'.ids := by
  rw [Set.disjoint_left]
  intro x hx hx'
  exact absurd (hx.2.trans_lt (h.trans_le hx'.1)) (lt_irrefl x)

/-- The ids of a range that may be missing. -/
def idsOf : Option SequenceRange → Set Int
  | some r => r.ids
  | none => ∅

end DevTools.Sequence
