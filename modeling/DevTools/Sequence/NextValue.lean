import DevTools.Sequence.TwoServices

/-!
# One worker per name

`SequenceServiceI::nextValue` finds the worker of a name in `rangeMap` under a read lock. If there
is none it takes the write lock, looks again, reads the algorithm, constructs a worker and inserts
it. Any number of calls do this at once, and reading the algorithm and the construction may throw.

**Theorem (`one_worker_per_name`).** In every run a name gets at most one worker, which is never
replaced or removed; every call that goes on to `getAndIncrement` uses it; and a call that fails
before has inserted nothing and holds no lock, so that a later call can initialise the name.

`log` is a ghost that remembers which call has inserted which worker.
-/

namespace DevTools.Sequence

/-! ## `getAlgorithmCfg` and the constructors -/

/-- How the query of `getAlgorithmCfg` comes out. -/
inductive CfgReply
  /-- `GetConnection(0)` is NULL -/
  | noConnection
  | row (algorithm : Int)
  /-- `m_res->next()` is false -/
  | noRow
  | sqlException
  /-- any other exception -/
  | unknown
  deriving DecidableEq, Repr

/-- `getAlgorithmCfg(name)` inside the `try` of `nextValue`. -/
def getAlgorithmCfg (name : String) : CfgReply → Except SequenceException Int
  | .noConnection => .error ⟨"can't get connection"⟩
  | .row algorithm => .ok algorithm
  | .noRow => .error ⟨"Sequence(" ++ name ++ ") not exists, please check table t_sequence"⟩
  | .sqlException => .error ⟨"System Error"⟩
  | .unknown => .error ⟨"UnknownError"⟩

/-- The `case` labels of the `switch`. -/
def algorithmOf : Int → Option Algorithm
  | 0 => some .INCREMENT
  | 1 => some .INCREMENT32
  | 2 => some .INCREMENT64
  | 3 => some .SNOW_FLAKE
  | _ => none

inductive SequenceWorker
  | increment (w : DefaultSequenceWorker)
  | flake (w : SnowflakeIdWorker)

/-- The `switch` on the algorithm; also `maxWorkerId` afterwards. -/
def newWorker (workerId : Nat) (datacenterId : Int) (maxWorkerId : Nat) (name : String)
    (algorithm : Int) (reply : DbReply) : Except RefillFailure SequenceWorker × Nat :=
  match algorithmOf algorithm with
  | none => (.error (.throws ⟨"Unknown Sequence Algorithm config"⟩), maxWorkerId)
  | some a => match a.seqBits with
    | some bits => ((construct name datacenterId bits reply).map .increment, maxWorkerId)
    | none => match SnowflakeIdWorker.construct maxWorkerId name workerId (-1) with
      | (.ok w, m) => (.ok (.flake w), m)
      | (.error e, m) => (.error (.throws e), m)

/-! ## Concurrent calls -/

/-- A worker object: a pointer, and what was constructed there. -/
structure WorkerPtr where
  id : Nat
  worker : SequenceWorker

/-- What a service object is constructed with, and the names of the calls on it. -/
structure NextValueCfg (ι : Type) where
  workerId : Nat
  datacenterId : Int
  name : ι → String

def retryTimes : Int := 5

/-- Where a call of `nextValue` is. -/
inductive CallPc
  | idle
  | waitRead
  /-- read-locked, before `find` -/
  | find
  /-- read-locked, after `find` -/
  | found (currentRange : Option WorkerPtr)
  | waitWrite
  /-- write-locked, before the second `find` -/
  | findAgain
  /-- write-locked, before `getAlgorithmCfg` -/
  | readCfg
  /-- write-locked, before `new` -/
  | new (algorithm : Int)
  /-- write-locked, before `insert` -/
  | insert (currentRange : WorkerPtr)
  /-- write-locked, at the end of the block -/
  | ready (currentRange : WorkerPtr)
  /-- before `getAndIncrement` -/
  | calling (currentRange : WorkerPtr) (i : Int)
  | returned (currentRange : WorkerPtr)
  /-- an exception during the initialisation -/
  | failed (e : RefillFailure)
  /-- an exception from `getAndIncrement` or after the retries -/
  | gaveUp (currentRange : WorkerPtr)

/-- How the call holds `rangeLock`. -/
def CallPc.hold : CallPc → Hold
  | find | found _ => .read
  | findAgain | readCfg | new _ | insert _ | ready _ => .write
  | _ => .free

/-- The call may have inserted a worker. -/
def CallPc.Past : CallPc → Prop
  | ready _ | calling _ _ | returned _ | gaveUp _ => True
  | _ => False

/-- How one `getAndIncrement` comes out. -/
inductive Outcome
  | zero
  | nonzero
  | throws

structure ServiceState (ι : Type) where
  rangeMap : String → Option WorkerPtr
  maxWorkerId : Nat
  /-- the number of worker objects made so far -/
  made : Nat
  pc : ι → CallPc
  /-- ghost: the insertions, newest first -/
  log : List (ι × WorkerPtr)

inductive ServiceAct (ι : Type)
  | call (i : ι)
  | lockRead (i : ι)
  | lockWrite (i : ι)
  /-- `pthread_rwlock_rdlock` fails -/
  | lockReadFails (i : ι)
  /-- `pthread_rwlock_wrlock` fails -/
  | lockWriteFails (i : ι)
  | find (i : ι)
  | unlockRead (i : ι)
  | findAgain (i : ι)
  | readCfg (i : ι) (reply : CfgReply)
  | new (i : ι) (reply : DbReply)
  | insert (i : ι)
  | unlockWrite (i : ι)
  | getAndIncrement (i : ι) (o : Outcome)

namespace ServiceState

variable {ι : Type} [DecidableEq ι]

def goto (s : ServiceState ι) (i : ι) (p : CallPc) : ServiceState ι :=
  { s with pc := Function.update s.pc i p }

def hold (s : ServiceState ι) (i : ι) : Hold := (s.pc i).hold

/-- After the read-locked block. -/
def afterFind : Option WorkerPtr → CallPc
  | some p => .calling p retryTimes
  | none => .waitWrite

/-- After the second `find`. -/
def afterFindAgain : Option WorkerPtr → CallPc
  | some p => .ready p
  | none => .readCfg

/-- After one turn of the retry loop. -/
def afterCall (p : WorkerPtr) (i : Int) : Outcome → CallPc
  | .zero => .returned p
  | .nonzero => if 0 ≤ i - 1 then .calling p (i - 1) else .gaveUp p
  | .throws => .gaveUp p

/-- One step of a call. An exception leaves the block and lets go of its lock. -/
inductive Step (cfg : NextValueCfg ι) : ServiceState ι → ServiceAct ι → ServiceState ι → Prop
  | call {s : ServiceState ι} {i : ι} : s.pc i = .idle → Step cfg s (.call i) (s.goto i .waitRead)
  | lockRead {s : ServiceState ι} {i : ι} : s.pc i = .waitRead → Grantable s.hold .read →
      Step cfg s (.lockRead i) (s.goto i .find)
  | lockWrite {s : ServiceState ι} {i : ι} : s.pc i = .waitWrite → Grantable s.hold .write →
      Step cfg s (.lockWrite i) (s.goto i .findAgain)
  | lockReadFails {s : ServiceState ι} {i : ι} : s.pc i = .waitRead →
      Step cfg s (.lockReadFails i)
        (s.goto i (.failed (.throws ⟨"SystemError: can't get rdlock"⟩)))
  | lockWriteFails {s : ServiceState ι} {i : ι} : s.pc i = .waitWrite →
      Step cfg s (.lockWriteFails i)
        (s.goto i (.failed (.throws ⟨"SystemError: can't get rwlock"⟩)))
  | find {s : ServiceState ι} {i : ι} : s.pc i = .find →
      Step cfg s (.find i) (s.goto i (.found (s.rangeMap (cfg.name i))))
  | unlockRead {s : ServiceState ι} {i : ι} {cur : Option WorkerPtr} : s.pc i = .found cur →
      Step cfg s (.unlockRead i) (s.goto i (afterFind cur))
  | findAgain {s : ServiceState ι} {i : ι} : s.pc i = .findAgain →
      Step cfg s (.findAgain i) (s.goto i (afterFindAgain (s.rangeMap (cfg.name i))))
  | readCfg {s : ServiceState ι} {i : ι} {reply : CfgReply} {algorithm : Int} :
      s.pc i = .readCfg → getAlgorithmCfg (cfg.name i) reply = .ok algorithm →
      Step cfg s (.readCfg i reply) (s.goto i (.new algorithm))
  | readCfgThrows {s : ServiceState ι} {i : ι} {reply : CfgReply} {e : SequenceException} :
      s.pc i = .readCfg → getAlgorithmCfg (cfg.name i) reply = .error e →
      Step cfg s (.readCfg i reply) (s.goto i (.failed (.throws e)))
  | new {s : ServiceState ι} {i : ι} {algorithm : Int} {reply : DbReply} {w : SequenceWorker}
      {m : Nat} : s.pc i = .new algorithm →
      newWorker cfg.workerId cfg.datacenterId s.maxWorkerId (cfg.name i) algorithm reply =
        (.ok w, m) →
      Step cfg s (.new i reply)
        { s.goto i (.insert ⟨s.made, w⟩) with maxWorkerId := m, made := s.made + 1 }
  | newThrows {s : ServiceState ι} {i : ι} {algorithm : Int} {reply : DbReply} {e : RefillFailure}
      {m : Nat} : s.pc i = .new algorithm →
      newWorker cfg.workerId cfg.datacenterId s.maxWorkerId (cfg.name i) algorithm reply =
        (.error e, m) →
      Step cfg s (.new i reply) { s.goto i (.failed e) with maxWorkerId := m }
  /-- `std::map::insert` keeps an entry that is there -/
  | insert {s : ServiceState ι} {i : ι} {p : WorkerPtr} : s.pc i = .insert p →
      Step cfg s (.insert i)
        { s.goto i (.ready p) with
          rangeMap := Function.update s.rangeMap (cfg.name i)
            (some ((s.rangeMap (cfg.name i)).getD p))
          log := (i, p) :: s.log }
  | unlockWrite {s : ServiceState ι} {i : ι} {p : WorkerPtr} : s.pc i = .ready p →
      Step cfg s (.unlockWrite i) (s.goto i (.calling p retryTimes))
  | getAndIncrement {s : ServiceState ι} {i : ι} {p : WorkerPtr} {n : Int} {o : Outcome} :
      s.pc i = .calling p n → Step cfg s (.getAndIncrement i o) (s.goto i (afterCall p n o))

/-- A service object as constructed, and its calls. -/
def lts (cfg : NextValueCfg ι) : LTS (ServiceState ι) (ServiceAct ι) where
  init s := (∀ n, s.rangeMap n = none) ∧ s.made = 0 ∧ (∀ i, s.pc i = .idle) ∧ s.log = []
  step := Step cfg

/-! ## The invariant -/

variable {cfg : NextValueCfg ι} {s s' : ServiceState ι} {a : ServiceAct ι}

/-- What a call knows about the entry of its name. Only the holder of the write lock knows that
there is none. -/
def Fact (cfg : NextValueCfg ι) (s : ServiceState ι) (i : ι) : CallPc → Prop
  | .found (some p) | .ready p | .calling p _ | .returned p | .gaveUp p =>
    s.rangeMap (cfg.name i) = some p
  | .readCfg | .new _ | .insert _ => s.rangeMap (cfg.name i) = none
  | _ => True

structure Inv (cfg : NextValueCfg ι) (s : ServiceState ι) : Prop where
  excl : Excl s.hold
  fact : ∀ i, Fact cfg s i (s.pc i)
  names : (s.log.map fun e => cfg.name e.1).Nodup
  logged : ∀ n p, s.rangeMap n = some p ↔ ∃ i, (i, p) ∈ s.log ∧ cfg.name i = n
  past : ∀ i p, (i, p) ∈ s.log → (s.pc i).Past

/-- Call `i` moves on and the map stays as it is. -/
structure Quiet (cfg : NextValueCfg ι) (s : ServiceState ι) (i : ι) (q : CallPc) : Prop where
  hold : q.hold = s.hold i ∨ q.hold = .free ∨ Grantable s.hold q.hold
  fact : Fact cfg s i q
  past : (s.pc i).Past → q.Past

theorem inv_quiet (h : Inv cfg s) {i : ι} {q : CallPc} (hq : Quiet cfg s i q)
    (hmap : s'.rangeMap = s.rangeMap) (hlog : s'.log = s.log)
    (hpc : s'.pc = Function.update s.pc i q) : Inv cfg s' := by
  have hself : s'.pc i = q := by rw [hpc, Function.update_self]
  have hother {j : ι} (hj : j ≠ i) : s'.pc j = s.pc j := by rw [hpc, Function.update_of_ne hj]
  have hfact (j : ι) (p : CallPc) : Fact cfg s' j p ↔ Fact cfg s j p := by
    unfold Fact
    rw [hmap]
  refine ⟨?_, ?_, ?_, ?_, ?_⟩
  · have hhold {j : ι} (hj : j ≠ i) : s'.hold j = s.hold j := by
      rw [ServiceState.hold, hother hj, ServiceState.hold]
    have hholdi : s'.hold i = q.hold := by rw [ServiceState.hold, hself]
    rcases hq.hold with hp | hp | hp
    · exact h.excl.keep (.inl (hholdi.trans hp)) fun j hj => hhold hj
    · exact h.excl.keep (.inr (hholdi.trans hp)) fun j hj => hhold hj
    · exact h.excl.grant hp hholdi fun j hj => hhold hj
  · intro j
    rw [hfact]
    rcases eq_or_ne j i with rfl | hj
    · rw [hself]
      exact hq.fact
    · rw [hother hj]
      exact h.fact j
  · rw [hlog]
    exact h.names
  · rw [hmap, hlog]
    exact h.logged
  · intro j p hin
    rw [hlog] at hin
    have hpast := h.past j p hin
    rcases eq_or_ne j i with rfl | hj
    · rw [hself]
      exact hq.past hpast
    · rwa [hother hj]

/-- The insertion. The other calls hold no lock, so that what they know is an entry, and not the
new one. -/
theorem inv_insert (h : Inv cfg s) {i : ι} {p : WorkerPtr} (hi : s.pc i = .insert p)
    (hmap : s'.rangeMap = Function.update s.rangeMap (cfg.name i)
      (some ((s.rangeMap (cfg.name i)).getD p)))
    (hlog : s'.log = (i, p) :: s.log) (hpc : s'.pc = Function.update s.pc i (.ready p)) :
    Inv cfg s' := by
  have hnone : s.rangeMap (cfg.name i) = none := by
    have hfact := h.fact i
    rwa [hi] at hfact
  rw [hnone, Option.getD_none] at hmap
  have hself : s'.pc i = .ready p := by rw [hpc, Function.update_self]
  have hother {j : ι} (hj : j ≠ i) : s'.pc j = s.pc j := by rw [hpc, Function.update_of_ne hj]
  have hwrite : s.hold i = .write := by
    rw [ServiceState.hold, hi]
    rfl
  have hkeep {n : String} {x : WorkerPtr} (hx : s.rangeMap n = some x) :
      s'.rangeMap n = some x := by
    rw [hmap, Function.update_of_ne, hx]
    rintro rfl
    rw [hnone] at hx
    cases hx
  refine ⟨?_, ?_, ?_, ?_, ?_⟩
  · refine h.excl.keep (i := i) (.inl ?_) ?_
    · rw [hwrite, ServiceState.hold, hself]
      rfl
    · intro j hj
      rw [ServiceState.hold, hother hj, ServiceState.hold]
  · intro j
    rcases eq_or_ne j i with rfl | hj
    · rw [hself]
      show s'.rangeMap (cfg.name j) = some p
      rw [hmap, Function.update_self]
    · have hfree : (s.pc j).hold = .free := h.excl i j hj.symm hwrite
      have hfact := h.fact j
      rw [hother hj]
      generalize s.pc j = pc at hfree hfact ⊢
      cases pc with
      | calling q n => exact hkeep hfact
      | returned q => exact hkeep hfact
      | gaveUp q => exact hkeep hfact
      | found cur => cases hfree
      | readCfg => cases hfree
      | new algorithm => cases hfree
      | insert q => cases hfree
      | ready q => cases hfree
      | _ => trivial
  · rw [hlog, List.map_cons, List.nodup_cons]
    refine ⟨?_, h.names⟩
    intro hin
    obtain ⟨⟨j, q⟩, hjq, hname⟩ := List.mem_map.mp hin
    have hsome := (h.logged (cfg.name i) q).mpr ⟨j, hjq, hname⟩
    rw [hnone] at hsome
    cases hsome
  · intro n q
    rw [hlog]
    constructor
    · intro hq
      by_cases hn : n = cfg.name i
      · rw [hmap, hn, Function.update_self] at hq
        cases hq
        exact ⟨i, List.mem_cons_self, hn.symm⟩
      · rw [hmap, Function.update_of_ne hn] at hq
        obtain ⟨j, hjq, hname⟩ := (h.logged n q).mp hq
        exact ⟨j, List.mem_cons_of_mem _ hjq, hname⟩
    · rintro ⟨j, hjq, hname⟩
      rcases List.mem_cons.mp hjq with heq | hjq
      · cases heq
        rw [hmap, ← hname, Function.update_self]
      · exact hkeep ((h.logged n q).mpr ⟨j, hjq, hname⟩)
  · intro j q hin
    rcases eq_or_ne j i with rfl | hj
    · rw [hself]
      trivial
    · rw [hlog] at hin
      rcases List.mem_cons.mp hin with heq | hin
      · cases heq
        exact absurd rfl hj
      · rw [hother hj]
        exact h.past j q hin

/-! ## Steps and runs -/

/-- **What a step can do.** It moves one call and leaves the map alone, or it inserts. -/
theorem Step.cases (h : Inv cfg s) (ha : Step cfg s a s') :
    (∃ i q, Quiet cfg s i q ∧ s'.rangeMap = s.rangeMap ∧ s'.log = s.log ∧
      s'.pc = Function.update s.pc i q) ∨
    (∃ i p, s.pc i = .insert p ∧
      s'.rangeMap = Function.update s.rangeMap (cfg.name i)
        (some ((s.rangeMap (cfg.name i)).getD p)) ∧
      s'.log = (i, p) :: s.log ∧ s'.pc = Function.update s.pc i (.ready p)) := by
  -- nothing has been inserted before `ready`
  have hnot {i : ι} {q : CallPc} (hpc : s.pc i = q) (hq : ¬ q.Past) {P : Prop} :
      (s.pc i).Past → P := by
    intro hpast
    rw [hpc] at hpast
    exact absurd hpast hq
  have hhold {i : ι} {q q' : CallPc} (hpc : s.pc i = q) (hq : q'.hold = q.hold) :
      q'.hold = s.hold i := by
    rw [ServiceState.hold, hpc, hq]
  have hfact {i : ι} {q : CallPc} (hpc : s.pc i = q) : Fact cfg s i q := hpc ▸ h.fact i
  cases ha with
  | call hpc =>
    exact .inl ⟨_, .waitRead, ⟨.inr (.inl rfl), trivial, hnot hpc (by simp [CallPc.Past])⟩,
      rfl, rfl, rfl⟩
  | lockRead hpc hgrant =>
    exact .inl ⟨_, .find, ⟨.inr (.inr hgrant), trivial, hnot hpc (by simp [CallPc.Past])⟩,
      rfl, rfl, rfl⟩
  | lockWrite hpc hgrant =>
    exact .inl ⟨_, .findAgain, ⟨.inr (.inr hgrant), trivial, hnot hpc (by simp [CallPc.Past])⟩,
      rfl, rfl, rfl⟩
  | lockReadFails hpc =>
    exact .inl ⟨_, .failed _, ⟨.inr (.inl rfl), trivial, hnot hpc (by simp [CallPc.Past])⟩,
      rfl, rfl, rfl⟩
  | lockWriteFails hpc =>
    exact .inl ⟨_, .failed _, ⟨.inr (.inl rfl), trivial, hnot hpc (by simp [CallPc.Past])⟩,
      rfl, rfl, rfl⟩
  | find hpc =>
    rename_i i
    refine .inl ⟨i, .found (s.rangeMap (cfg.name i)),
      ⟨.inl ?_, ?_, hnot hpc (by simp [CallPc.Past])⟩, rfl, rfl, rfl⟩
    · exact hhold hpc rfl
    · cases hm : s.rangeMap (cfg.name i) with
      | none => trivial
      | some p => exact hm
  | unlockRead hpc =>
    rename_i i cur
    cases cur with
    | none =>
      exact .inl ⟨i, .waitWrite, ⟨.inr (.inl rfl), trivial, hnot hpc (by simp [CallPc.Past])⟩,
        rfl, rfl, rfl⟩
    | some p =>
      exact .inl ⟨i, .calling p retryTimes, ⟨.inr (.inl rfl), (hfact hpc :), fun _ => trivial⟩,
        rfl, rfl, rfl⟩
  | findAgain hpc =>
    rename_i i
    refine .inl ⟨i, afterFindAgain (s.rangeMap (cfg.name i)),
      ⟨.inl ?_, ?_, hnot hpc (by simp [CallPc.Past])⟩, rfl, rfl, rfl⟩
    · cases s.rangeMap (cfg.name i) with
      | none => exact hhold hpc rfl
      | some p => exact hhold hpc rfl
    · cases hm : s.rangeMap (cfg.name i) with
      | none => exact hm
      | some p => exact hm
  | readCfg hpc _ =>
    exact .inl ⟨_, .new _, ⟨.inl (hhold hpc rfl), (hfact hpc :), hnot hpc (by simp [CallPc.Past])⟩,
      rfl, rfl, rfl⟩
  | readCfgThrows hpc _ =>
    exact .inl ⟨_, .failed _, ⟨.inr (.inl rfl), trivial, hnot hpc (by simp [CallPc.Past])⟩,
      rfl, rfl, rfl⟩
  | new hpc _ =>
    exact .inl ⟨_, .insert _,
      ⟨.inl (hhold hpc rfl), (hfact hpc :), hnot hpc (by simp [CallPc.Past])⟩, rfl, rfl, rfl⟩
  | newThrows hpc _ =>
    exact .inl ⟨_, .failed _, ⟨.inr (.inl rfl), trivial, hnot hpc (by simp [CallPc.Past])⟩,
      rfl, rfl, rfl⟩
  | insert hpc => exact .inr ⟨_, _, hpc, rfl, rfl, rfl⟩
  | unlockWrite hpc =>
    exact .inl ⟨_, .calling _ retryTimes, ⟨.inr (.inl rfl), (hfact hpc :), fun _ => trivial⟩,
      rfl, rfl, rfl⟩
  | getAndIncrement hpc =>
    rename_i i p n o
    refine .inl ⟨_, afterCall p n o, ?_, rfl, rfl, rfl⟩
    have hentry : s.rangeMap (cfg.name i) = some p := (hfact hpc :)
    cases o with
    | zero => exact ⟨.inr (.inl rfl), hentry, fun _ => trivial⟩
    | nonzero =>
      by_cases hn : 0 ≤ n - 1
      · rw [afterCall, if_pos hn]
        exact ⟨.inr (.inl rfl), hentry, fun _ => trivial⟩
      · rw [afterCall, if_neg hn]
        exact ⟨.inr (.inl rfl), hentry, fun _ => trivial⟩
    | throws => exact ⟨.inr (.inl rfl), hentry, fun _ => trivial⟩

theorem inv_step (h : Inv cfg s) (ha : Step cfg s a s') : Inv cfg s' := by
  rcases Step.cases h ha with ⟨i, q, hq, hmap, hlog, hpc⟩ | ⟨i, p, hi, hmap, hlog, hpc⟩
  · exact inv_quiet h hq hmap hlog hpc
  · exact inv_insert h hi hmap hlog hpc

theorem inv_reach (h : (lts cfg).Reach s) : Inv cfg s := by
  refine LTS.Reach.invariant (I := Inv cfg) ?_ (fun _ _ _ hi ha => inv_step hi ha) h
  intro s hs
  obtain ⟨hmap, -, hpc, hlog⟩ := hs
  refine ⟨?_, ?_, ?_, ?_, ?_⟩
  · intro i j _ hi
    rw [ServiceState.hold, hpc] at hi
    cases hi
  · intro i
    rw [hpc]
    trivial
  · simp [hlog]
  · simp [hlog, hmap]
  · simp [hlog]

/-- An entry is never replaced or removed. -/
theorem rangeMap_run (h : (lts cfg).Reach s) (hr : (lts cfg).Run s s') {n : String}
    {p : WorkerPtr} (hp : s.rangeMap n = some p) : s'.rangeMap n = some p := by
  refine LTS.Run.invariant (I := fun t => t.rangeMap n = some p) hp ?_ hr
  intro t a u hrt ht ha
  have hinv := inv_reach (h.run hrt)
  rcases Step.cases hinv ha with ⟨i, q, -, hmap, -, -⟩ | ⟨i, q, hi, hmap, -, -⟩
  · rw [hmap]
    exact ht
  · rw [hmap]
    by_cases hn : n = cfg.name i
    · rw [hn, Function.update_self, ← hn, ht]
      rfl
    · rw [Function.update_of_ne hn]
      exact ht

/-- Call `j` has come from `s` to `q` alone, and no one else holds the lock. -/
structure Alone (cfg : NextValueCfg ι) (s : ServiceState ι) (j : ι) (q : CallPc)
    (t : ServiceState ι) : Prop where
  run : (lts cfg).Run s t
  pc : t.pc j = q
  others : ∀ i, i ≠ j → t.hold i = .free
  rangeMap : t.rangeMap = s.rangeMap
  made : t.made = s.made
  maxWorkerId : t.maxWorkerId = s.maxWorkerId

theorem Alone.goto {j : ι} {q q' : CallPc} {t : ServiceState ι} (h : Alone cfg s j q t)
    (ha : Step cfg t a (t.goto j q')) : Alone cfg s j q' (t.goto j q') where
  run := h.run.step ha
  pc := Function.update_self ..
  others i hi := by
    have hsame : (t.goto j q').pc i = t.pc i := Function.update_of_ne hi ..
    rw [ServiceState.hold, hsame]
    exact h.others i hi
  rangeMap := h.rangeMap
  made := h.made
  maxWorkerId := h.maxWorkerId

theorem Alone.grantable {j : ι} {q : CallPc} {t : ServiceState ι} (h : Alone cfg s j q t)
    (hq : q.hold = .free) : ∀ i, t.hold i = .free := by
  intro i
  rcases eq_or_ne i j with rfl | hi
  · rw [ServiceState.hold, h.pc, hq]
  · exact h.others i hi

/-- A call that nobody disturbs comes to the construction. -/
theorem alone_new {j : ι} (hidle : s.pc j = .idle) (hfree : ∀ i, s.hold i = .free)
    (hnone : s.rangeMap (cfg.name j) = none) (algorithm : Int) :
    ∃ t, Alone cfg s j (.new algorithm) t := by
  have h0 : Alone cfg s j .idle s := ⟨.refl, hidle, fun i _ => hfree i, rfl, rfl, rfl⟩
  have h1 := h0.goto (.call h0.pc)
  have h2 := h1.goto (.lockRead h1.pc fun i hi => by rw [h1.grantable rfl i] at hi; cases hi)
  have h3 := h2.goto (.find h2.pc)
  rw [h2.rangeMap, hnone] at h3
  have h4 := h3.goto (.unlockRead h3.pc)
  have h5 := h4.goto (.lockWrite h4.pc (h4.grantable rfl))
  have h6 := h5.goto (.findAgain h5.pc)
  rw [h5.rangeMap, hnone] at h6
  have hcfg : getAlgorithmCfg (cfg.name j) (.row algorithm) = .ok algorithm := rfl
  exact ⟨_, h6.goto (.readCfg h6.pc hcfg)⟩

/-- A name without a worker can be initialised by any call that is yet to come. -/
theorem can_initialise {j : ι} (hidle : s.pc j = .idle) (hfree : ∀ i, s.hold i = .free)
    (hnone : s.rangeMap (cfg.name j) = none) {algorithm : Int} {reply : DbReply}
    {w : SequenceWorker} {m : Nat}
    (hnew : newWorker cfg.workerId cfg.datacenterId s.maxWorkerId (cfg.name j) algorithm reply =
      (.ok w, m)) :
    ∃ s', (lts cfg).Run s s' ∧ s'.rangeMap (cfg.name j) = some ⟨s.made, w⟩ ∧
      s'.pc j = .calling ⟨s.made, w⟩ retryTimes := by
  obtain ⟨t, ht⟩ : ∃ t, Alone cfg s j (.new algorithm) t := alone_new hidle hfree hnone algorithm
  rw [← ht.maxWorkerId] at hnew
  rw [← ht.made]
  obtain ⟨t₁, hrun₁, hpc₁, hmap₁⟩ : ∃ t₁, (lts cfg).Run s t₁ ∧
      t₁.pc j = .insert ⟨t.made, w⟩ ∧ t₁.rangeMap (cfg.name j) = none := by
    refine ⟨_, ht.run.step (.new ht.pc hnew), Function.update_self .., ?_⟩
    show t.rangeMap (cfg.name j) = none
    rw [ht.rangeMap, hnone]
  obtain ⟨t₂, hrun₂, hpc₂, hmap₂⟩ : ∃ t₂, (lts cfg).Run s t₂ ∧
      t₂.pc j = .ready ⟨t.made, w⟩ ∧ t₂.rangeMap (cfg.name j) = some ⟨t.made, w⟩ := by
    refine ⟨_, hrun₁.step (.insert hpc₁), Function.update_self .., ?_⟩
    show Function.update _ _ _ _ = _
    rw [Function.update_self, hmap₁]
    rfl
  exact ⟨_, hrun₂.step (.unlockWrite hpc₂), hmap₂, Function.update_self ..⟩

/-- **One worker per name.** -/
theorem one_worker_per_name (h : (lts cfg).Reach s) :
    (s.log.map fun e => cfg.name e.1).Nodup ∧
    (∀ n p, s.rangeMap n = some p ↔ ∃ i, (i, p) ∈ s.log ∧ cfg.name i = n) ∧
    (∀ s' n p, (lts cfg).Run s s' → s.rangeMap n = some p → s'.rangeMap n = some p) ∧
    (∀ i p n, s.pc i = .calling p n → s.rangeMap (cfg.name i) = some p) ∧
    (∀ i e, s.pc i = .failed e → s.hold i = .free ∧ ∀ p, (i, p) ∉ s.log) ∧
    (∀ j algorithm reply w m, s.pc j = .idle → (∀ i, s.hold i = .free) →
      s.rangeMap (cfg.name j) = none →
      newWorker cfg.workerId cfg.datacenterId s.maxWorkerId (cfg.name j) algorithm reply =
        (.ok w, m) →
      ∃ s', (lts cfg).Run s s' ∧ s'.rangeMap (cfg.name j) = some ⟨s.made, w⟩ ∧
        s'.pc j = .calling ⟨s.made, w⟩ retryTimes) := by
  have hinv := inv_reach h
  refine ⟨hinv.names, hinv.logged, fun s' n p hr hp => rangeMap_run h hr hp, ?_, ?_, ?_⟩
  · intro i p n hpc
    have hfact := hinv.fact i
    rwa [hpc] at hfact
  · intro i e hpc
    refine ⟨?_, ?_⟩
    · rw [ServiceState.hold, hpc]
      rfl
    · intro p hin
      have hpast := hinv.past i p hin
      rw [hpc] at hpast
      exact hpast
  · intro j algorithm reply w m hidle hfree hnone hnew
    exact can_initialise hidle hfree hnone hnew

/-- Two calls of one name. -/
def sampleCfg : NextValueCfg Bool := ⟨5, 0, fun _ => "ORDER"⟩

def sampleStart : ServiceState Bool := ⟨fun _ => none, initialMaxWorkerId, 0, fun _ => .idle, []⟩

theorem one_worker_per_name_sample :
    (lts sampleCfg).Reach sampleStart ∧
      ∃ s', (lts sampleCfg).Run sampleStart s' ∧
        s'.rangeMap "ORDER" = some ⟨0, .flake ⟨"ORDER", 5, -1, 0, 0⟩⟩ := by
  have hreach : (lts sampleCfg).Reach sampleStart :=
    .init ⟨fun _ => rfl, rfl, fun _ => rfl, rfl⟩
  have hlast := (one_worker_per_name hreach).2.2.2.2.2
  obtain ⟨s', hrun, hmap, -⟩ :=
    hlast true 3 .noRow (.flake ⟨"ORDER", 5, -1, 0, 0⟩) 1023 rfl (fun _ => rfl) rfl rfl
  exact ⟨hreach, s', hrun, hmap⟩

end ServiceState

end DevTools.Sequence
