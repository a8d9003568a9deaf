import DevTools.Sequence.NextValue

/-!
# The slow path delivers

A call whose fast path fails competes for the write lock. When it gets it, the segment may have
been refilled, partly used or used up by others; it tests `value >= max` again, refills if it
holds, and runs `addAndIncrement` a second time.

**Theorem (`slow_path_delivers`).** Let every refill that succeeds install a segment with
`value < max`. In any interleaving of calls no `getAndIncrement` returns a status other than 0; a
range that a call with a step `≥ 1` returns has between 1 and `step` ids, and fewer than `step` only
at the end of its segment, whatever the steps of the other calls. The retry loop of `nextValue`
never turns twice and never gives up by itself. A call takes at most `Pc.rank .idle` actions, and
while a call has not finished some action is possible, unless a fetch-and-add is about to overflow.

The invariant (`AllSure`) is about the holder of the write lock: from its re-test on there are
counters left, and nobody else can take them.
-/

namespace DevTools.Sequence

/-! ## Counters left under the write lock -/

/-- What a call relies on at this point. -/
def Pc.Sure (step : Int) (w : DefaultSequenceWorker) : Pc → Prop
  | .test .write | .add .write => w.value < w.max
  | .classify .write cur => cur - step < w.max
  | .done .write none | .failed => False
  | _ => True

/-- A range that takes at most `n` ids up to the end of a segment, and fewer only if it ends
there. -/
structure SequenceRange.Fits (r : SequenceRange) (n : Int) (g : Segment) : Prop where
  nonempty : 1 ≤ r.max - r.min + 1
  atMost : r.max - r.min + 1 ≤ n
  inside : r.max ≤ g.start + g.len
  short : r.max - r.min + 1 < n → r.max = g.start + g.len

namespace WState

variable {ι : Type} [DecidableEq ι] {step : ι → Int} {s s' : WState ι} {a : Act ι}

/-- A refill that succeeds installs a segment with something in it. -/
def Delivers (s : WState ι) : Act ι → Prop
  | .refill _ reply => ∀ w, nextRange s.worker.name reply s.worker = .ok w → w.value < w.max
  | _ => True

def AllSure (step : ι → Int) (s : WState ι) : Prop := ∀ i, (s.pc i).Sure (step i) s.worker

/-- Call `i` moves on and the worker stays as it is. -/
theorem allSure_goto (h : AllSure step s) {i : ι} {p : Pc} (hp : p.Sure (step i) s.worker) :
    AllSure step (s.goto i p) := by
  intro j
  by_cases hj : j = i
  · subst hj
    rwa [goto_pc_self]
  · rw [goto_pc_ne s p hj]
    exact h j

/-- A call outside the write lock relies on nothing. -/
theorem sure_of_hold {p : Pc} {n : Int} {w w' : DefaultSequenceWorker} (hw : p.hold ≠ .write)
    (h : p.Sure n w) : p.Sure n w' := by
  match p with
  | .test .write | .add .write | .classify .write _ | .done .write none => exact absurd rfl hw
  | .failed => exact h
  | .idle | .wait _ | .check | .refill | .returned _ | .threw => trivial
  | .test .read | .add .read | .classify .read _ | .done .read _ | .done .write (some _) => trivial

/-- The worker changes under the hands of call `i`, which is inside the lock. -/
theorem allSure_change (hexcl : Excl s.hold) (h : AllSure step s) {i : ι}
    (hi : s.hold i ≠ .free) (hpc : ∀ j, j ≠ i → s'.pc j = s.pc j)
    (hself : (s'.pc i).Sure (step i) s'.worker) : AllSure step s' := by
  intro j
  by_cases hj : j = i
  · subst hj
    exact hself
  · rw [hpc j hj]
    refine sure_of_hold (fun hw => ?_) (h j)
    exact hi (hexcl j i hj hw)

/-! ## What holds for steps of any sign -/

structure Locked (step : ι → Int) (s : WState ι) : Prop where
  excl : Excl s.hold
  range : InInt64 s.worker.value
  current : ∃ g older, s.segs = g :: older ∧ s.worker.max = g.start + g.len
  pending : ∀ i m cur, s.pc i = .classify m cur → InInt64 (cur - step i)

omit [DecidableEq ι] in
theorem locked_start {w : DefaultSequenceWorker} (hmax : w.max = wrap64 (w.value + w.step))
    (hr : InInt64 (w.value + w.step)) (hv : InInt64 w.value) :
    Locked step (start w : WState ι) where
  excl i j _ hi := by cases hi
  range := hv
  current := ⟨w.segment, [], rfl, hmax.trans (wrap64_of_inInt64 hr)⟩
  pending i m cur hi := by cases hi

theorem locked_quiet (h : Locked step s) {i : ι} {p : Pc} (hp : Quiet step s i p) :
    Locked step (s.goto i p) where
  excl := excl_goto h.excl hp.hold
  range := h.range
  current := h.current
  pending j m cur hj := by
    by_cases hji : j = i
    · subst hji
      rw [goto_pc_self] at hj
      exact absurd hj (hp.notPending m cur)
    · rw [goto_pc_ne s p hji] at hj
      exact h.pending j m cur hj

theorem locked_add (h : Locked step s) {i : ι} {m : Mode} (hi : s.pc i = .add m)
    (hr : InInt64 (s.worker.value + step i)) :
    Locked step { s.goto i (.classify m (s.worker.addAndFetch (step i)).value) with
      worker := s.worker.addAndFetch (step i) } where
  excl := excl_goto h.excl (.inl (by simp [hold, hi, Pc.hold]))
  range := by simpa only [addAndFetch_value hr] using hr
  current := h.current
  pending j m' cur hj := by
    by_cases hji : j = i
    · subst hji
      simp only [goto_pc_self, Pc.classify.injEq, addAndFetch_value hr] at hj
      obtain ⟨rfl, rfl⟩ := hj
      simpa using h.range
    · simp only [goto_pc_ne s _ hji] at hj
      exact h.pending j m' cur hj

theorem locked_refill (h : Locked step s) {i : ι} {w : DefaultSequenceWorker}
    (hi : s.pc i = .refill) (hmax : w.max = wrap64 (w.value + w.step))
    (hr : InInt64 (w.value + w.step)) (hv : InInt64 w.value) :
    Locked step { s.goto i (.test .write) with worker := w, segs := w.segment :: s.segs } where
  excl := excl_goto h.excl (.inl (by simp [hold, hi, Pc.hold, Mode.hold]))
  range := hv
  current := ⟨w.segment, s.segs, rfl, hmax.trans (wrap64_of_inInt64 hr)⟩
  pending j m cur hj := by
    by_cases hji : j = i
    · subst hji
      simp at hj
    · simp only [goto_pc_ne s _ hji] at hj
      exact h.pending j m cur hj

theorem locked_reach (h : (lts step).Reach s) : Locked step s := by
  induction h with
  | init h =>
    obtain ⟨name, dc, bits, reply, w, hw, hr, rfl⟩ := h
    obtain ⟨hmax, hv, -⟩ := construct_fields hw
    exact locked_start hmax hr hv
  | step _ ha ih =>
    obtain ⟨i, p, hp, rfl⟩ | ⟨i, m, hi, hr, -, rfl⟩ | ⟨i, reply, w, hi, hw, hr, -, rfl⟩ :=
      Step.cases ha
    · exact locked_quiet ih hp
    · exact locked_add ih hi hr
    · obtain ⟨hmax, hv, -⟩ := nextRange_fields hw
      exact locked_refill ih hi hmax hr hv

/-! ## The write lock's holder gets a range -/

theorem classify_ne_none {cur n max : Int} (hprev : InInt64 (cur - n)) (hlt : cur - n < max) :
    Sequence.classify cur n max ≠ none := by
  simp only [Sequence.classify, wrap64_of_inInt64 hprev, if_pos hlt]
  split_ifs <;> simp

theorem allSure_step (hs : Locked step s) (h : AllSure step s) (hok : Delivers s a)
    (ha : Step step s a s') : AllSure step s' := by
  cases ha with
  | call => exact allSure_goto h trivial
  | @lock i m => exact allSure_goto h (by cases m <;> trivial)
  | @check i =>
    refine allSure_goto h ?_
    split_ifs with hexh
    · trivial
    · exact not_le.1 hexh
  | @refill i reply w hi hw hr =>
    refine allSure_change hs.excl h (i := i) (by simp [hold, hi, Pc.hold]) ?_ ?_
    · intro j hj
      exact goto_pc_ne s _ hj
    · simpa [Pc.Sure] using hok w hw
  | refillThrows => exact allSure_goto h trivial
  | @test i m hi =>
    have hsure := h i
    rw [hi] at hsure
    refine allSure_goto h ?_
    split_ifs with hexh
    · cases m with
      | read => trivial
      | write => exact absurd hexh (not_le.2 hsure)
    · cases m with
      | read => trivial
      | write => exact hsure
  | @add i m hi hr =>
    have hsure := h i
    rw [hi] at hsure
    have hin : s.hold i ≠ .free := by cases m <;> simp [hold, hi, Pc.hold, Mode.hold]
    refine allSure_change hs.excl h hin ?_ ?_
    · intro j hj
      exact goto_pc_ne s _ hj
    · cases m with
      | read => simp [Pc.Sure]
      | write =>
        simp only [goto_pc_self, Pc.Sure, addAndFetch_value hr]
        simp only [Pc.Sure] at hsure
        simpa using hsure
  | @classify i m cur hi =>
    refine allSure_goto h ?_
    cases m with
    | read => trivial
    | write =>
      have hsure := h i
      rw [hi] at hsure
      have hsome := classify_ne_none (hs.pending i _ cur hi) hsure
      cases hres : Sequence.classify cur (step i) s.worker.max with
      | none => exact absurd hres hsome
      | some r => trivial
  | @unlock i m res hi =>
    have hsure := h i
    rw [hi] at hsure
    refine allSure_goto h ?_
    cases m <;> cases res <;> trivial

theorem allSure_reach (h : ((lts step).restrict Delivers).Reach s) : AllSure step s := by
  induction h with
  | init h =>
    obtain ⟨name, dc, bits, reply, w, -, -, rfl⟩ := h
    exact fun _ => trivial
  | step hr ha ih => exact allSure_step (locked_reach hr.of_restrict) ih ha.1 ha.2

/-! ## The size of a range -/

/-- Every claim with a positive step fits its segment, and lies in it if no call has gone back. -/
def Sized (step : ι → Int) (s : WState ι) : Prop :=
  ∀ i r, 1 ≤ step i → s.claim step i = some r →
    ∃ g ∈ s.segs, r.Fits (step i) g ∧ ((∀ j, 1 ≤ step j) → r.ids ⊆ g.ids)

theorem sized_step (hreach : (lts step).Reach s) (h : Sized step s) (ha : Step step s a s') :
    Sized step s' := by
  have hs := locked_reach hreach
  intro j r hpos hj
  rcases ha.cases with ⟨i, p, hp, rfl⟩ | ⟨i, m, hi, hr, -, rfl⟩ | ⟨i, reply, w, hi, -, -, -, rfl⟩
  · rw [claim_quiet hp] at hj
    exact h j r hpos hj
  · by_cases hji : j = i
    · subst hji
      obtain ⟨g, older, hsegs, hmax⟩ := hs.current
      simp only [claim, goto_pc_self, Pc.claim, addAndFetch_value hr,
        DefaultSequenceWorker.addAndFetch_max] at hj
      rw [classify_of_noOverflow hs.range hr hpos] at hj
      split_ifs at hj with hlt
      cases hj
      refine ⟨g, by simp [hsegs], ⟨?_, ?_, ?_, ?_⟩, ?_⟩
      · simp only
        omega
      · simp only
        omega
      · simp only
        omega
      · simp only
        omega
      · intro hall x hx
        -- with positive steps `value` has not left the segment at its lower end
        obtain ⟨g', older', hsegs', -, hlow⟩ := (shape_reach hall hreach).current
        rw [hsegs, List.cons.injEq] at hsegs'
        obtain ⟨rfl, -⟩ := hsegs'
        simp only [SequenceRange.ids, Set.mem_Icc] at hx
        exact ⟨by omega, by omega⟩
    · rw [claim_add_ne hji] at hj
      exact h j r hpos hj
  · rw [claim_refill hs.excl hi] at hj
    obtain ⟨g, hg, hfits⟩ := h j r hpos hj
    exact ⟨g, List.mem_cons_of_mem _ hg, hfits⟩

theorem sized_reach (h : (lts step).Reach s) : Sized step s := by
  induction h with
  | init h =>
    obtain ⟨name, dc, bits, reply, w, -, -, rfl⟩ := h
    intro i r _ hi
    simp [claim, start, Pc.claim] at hi
  | step hr ha ih => exact sized_step hr ih ha

end WState

/-! ## Every call comes to an end -/

/-- An upper bound on the actions that a call has left. -/
def Pc.rank : Pc → Nat
  | .idle => 13
  | .wait .read => 12
  | .test .read => 11
  | .add .read => 10
  | .classify .read _ => 9
  | .done .read _ => 8
  | .wait .write => 7
  | .check => 6
  | .refill => 5
  | .test .write => 4
  | .add .write => 3
  | .classify .write _ => 2
  | .done .write _ => 1
  | .returned _ | .failed | .threw => 0

namespace WState

variable {ι : Type} [DecidableEq ι] {step : ι → Int} {s s' : WState ι} {a : Act ι}

/-- Every action is one of one call, and brings that call closer to its end. -/
theorem rank_step (ha : Step step s a s') :
    ∃ i, (s'.pc i).rank < (s.pc i).rank ∧ ∀ j, j ≠ i → s'.pc j = s.pc j := by
  have hgoto {i : ι} {p : Pc} {w : DefaultSequenceWorker} {segs : List Segment}
      (hp : p.rank < (s.pc i).rank) :
      ∃ i', ((({ s.goto i p with worker := w, segs := segs } : WState ι)).pc i').rank <
        (s.pc i').rank ∧
        ∀ j, j ≠ i' → ({ s.goto i p with worker := w, segs := segs } : WState ι).pc j = s.pc j :=
    ⟨i, by simpa using hp, fun j hj => goto_pc_ne s p hj⟩
  cases ha with
  | call hi => exact hgoto (by simp [hi, Pc.rank])
  | @lock i m hi => exact hgoto (by cases m <;> simp [hi, Pc.rank, Pc.entry])
  | check hi => exact hgoto (by rw [hi]; split_ifs <;> simp [Pc.rank])
  | refill hi => exact hgoto (by simp [hi, Pc.rank])
  | refillThrows hi => exact hgoto (by simp [hi, Pc.rank])
  | @test i m hi => exact hgoto (by rw [hi]; split_ifs <;> cases m <;> simp [Pc.rank])
  | @add i m hi => exact hgoto (by cases m <;> simp [hi, Pc.rank])
  | @classify i m cur hi => exact hgoto (by cases m <;> simp [hi, Pc.rank])
  | @unlock i m res hi =>
    exact hgoto (by cases m <;> cases res <;> simp [hi, Pc.rank, Pc.exit])

/-- A call that is inside the lock can always act. -/
theorem enabled_of_hold (hadd : ∀ j m, s.pc j = .add m → InInt64 (s.worker.value + step j))
    {i : ι} (hi : s.hold i ≠ .free) : ∃ a s', Step step s a s' := by
  cases hpc : s.pc i with
  | check => exact ⟨_, _, .check hpc⟩
  | refill =>
    -- the database may always refuse
    have hno : ∃ e, nextRange s.worker.name .noConnection s.worker = .error e := by
      unfold nextRange
      split_ifs <;> exact ⟨_, rfl⟩
    obtain ⟨e, he⟩ := hno
    exact ⟨_, _, .refillThrows hpc he⟩
  | test m => exact ⟨_, _, .test hpc⟩
  | add m => exact ⟨_, _, .add hpc (hadd i m hpc)⟩
  | classify m cur => exact ⟨_, _, .classify hpc⟩
  | done m res => exact ⟨_, _, .unlock hpc⟩
  | _ => simp [hold, hpc, Pc.hold] at hi

/-- While a call has not finished, some action is possible. -/
theorem enabled_of_rank (hadd : ∀ j m, s.pc j = .add m → InInt64 (s.worker.value + step j))
    {i : ι} (hi : 0 < (s.pc i).rank) : ∃ a s', Step step s a s' := by
  by_cases hlock : ∃ j, s.hold j ≠ .free
  · obtain ⟨j, hj⟩ := hlock
    exact enabled_of_hold hadd hj
  · have hfree : ∀ j, s.hold j = .free := fun j => by
      by_contra hj
      exact hlock ⟨j, hj⟩
    cases hpc : s.pc i with
    | idle => exact ⟨_, _, .call hpc⟩
    | wait m =>
      refine ⟨_, _, .lock hpc ?_⟩
      cases m with
      | read => exact fun j hj => by rw [hfree j] at hj; cases hj
      | write => exact hfree
    | returned r => simp [hpc, Pc.rank] at hi
    | failed => simp [hpc, Pc.rank] at hi
    | threw => simp [hpc, Pc.rank] at hi
    | check | refill => simpa [hold, hpc, Pc.hold] using hfree i
    | test m | add m | classify m _ | done m _ =>
      have := hfree i
      rw [hold, hpc] at this
      cases m <;> cases this

end WState

/-! ## The retry loop of `nextValue` -/

/-- How a `getAndIncrement` that has ended came out. -/
def Pc.outcome : Pc → Option Outcome
  | .returned _ => some .zero
  | .failed => some .nonzero
  | .threw => some .throws
  | _ => none

/-- Calls of `nextValue` that have found their worker: where each stands in its loop, and in the
`getAndIncrement` of the current turn. -/
structure RetryState (ι : Type) where
  calls : WState ι
  turn : ι → CallPc

inductive RetryAct (ι : Type)
  | inner (a : Act ι)
  | result (i : ι)

namespace RetryState

variable {ι : Type} [DecidableEq ι] {step : ι → Int} {t t' : RetryState ι}

/-- The status is looked at: the loop ends, or another `getAndIncrement` begins. -/
def finishTurn (t : RetryState ι) (i : ι) (next : CallPc) : RetryState ι where
  calls := match next with
    | .calling _ _ => t.calls.goto i .idle
    | _ => t.calls
  turn := Function.update t.turn i next

inductive Step (step : ι → Int) : RetryState ι → RetryAct ι → RetryState ι → Prop
  | inner {t : RetryState ι} {a : Act ι} {s : WState ι} : WState.Step step t.calls a s →
      Step step t (.inner a) { t with calls := s }
  | result {t : RetryState ι} {i : ι} {p : WorkerPtr} {n : Int} {o : Outcome} :
      t.turn i = .calling p n → (t.calls.pc i).outcome = some o →
      Step step t (.result i) (t.finishTurn i (ServiceState.afterCall p n o))

def lts (p : WorkerPtr) (step : ι → Int) : LTS (RetryState ι) (RetryAct ι) where
  init t := (WState.lts step).init t.calls ∧ ∀ i, t.turn i = .calling p retryTimes
  step := Step step

/-- Every refill that succeeds installs a segment with something in it. -/
def Delivers (t : RetryState ι) : RetryAct ι → Prop
  | .inner a => t.calls.Delivers a
  | .result _ => True

/-- The loop is in its first turn or over, and it is over without a range only by an exception of
`getAndIncrement`. -/
def FirstTurn (p : WorkerPtr) (pc : Pc) : CallPc → Prop
  | .calling q n => q = p ∧ n = retryTimes
  | .returned q => q = p ∧ ∃ r, pc = .returned r
  | .gaveUp q => q = p ∧ pc = .threw
  | _ => False

/-- A call that still acts has not ended, so its loop is in the first turn. -/
theorem firstTurn_inner {p : WorkerPtr} {pc pc' : Pc} {turn : CallPc} (h : FirstTurn p pc turn)
    (hrank : pc'.rank < pc.rank) : FirstTurn p pc' turn := by
  cases turn with
  | calling q n => exact h
  | returned q =>
    obtain ⟨-, r, rfl⟩ := h
    simp [Pc.rank] at hrank
  | gaveUp q =>
    obtain ⟨-, rfl⟩ := h
    simp [Pc.rank] at hrank
  | _ => exact h.elim

/-- The status is 0 or an exception came: there is no second turn. -/
theorem firstTurn_result {p q : WorkerPtr} {pc : Pc} {n m : Int} {w : DefaultSequenceWorker}
    {o : Outcome} (h : FirstTurn p pc (.calling q n)) (hsure : pc.Sure m w)
    (ho : pc.outcome = some o) :
    FirstTurn p pc (ServiceState.afterCall q n o) ∧
      ∀ q' n', ServiceState.afterCall q n o ≠ .calling q' n' := by
  obtain ⟨rfl, rfl⟩ := h
  cases pc with
  | returned r =>
    cases ho
    exact ⟨⟨rfl, r, rfl⟩, by nofun⟩
  | threw =>
    cases ho
    exact ⟨⟨rfl, rfl⟩, by nofun⟩
  | failed => exact hsure.elim
  | _ => cases ho

theorem finishTurn_calls {i : ι} {next : CallPc} (h : ∀ q n, next ≠ .calling q n) :
    (t.finishTurn i next).calls = t.calls := by
  cases next with
  | calling q n => exact absurd rfl (h q n)
  | _ => rfl

theorem firstTurn_reach {p : WorkerPtr}
    (h : ((lts p step).restrict Delivers).Reach t) :
    ((WState.lts step).restrict WState.Delivers).Reach t.calls ∧
      ∀ i, FirstTurn p (t.calls.pc i) (t.turn i) := by
  induction h with
  | init h =>
    refine ⟨.init h.1, fun i => ?_⟩
    rw [h.2 i]
    exact ⟨rfl, rfl⟩
  | step hr ha ih =>
    obtain ⟨hcalls, hturn⟩ := ih
    obtain ⟨hok, ha⟩ := ha
    cases ha with
    | inner hs =>
      refine ⟨hcalls.step ⟨hok, hs⟩, fun j => ?_⟩
      obtain ⟨i, hrank, hother⟩ := WState.rank_step hs
      by_cases hj : j = i
      · subst hj
        exact firstTurn_inner (hturn j) hrank
      · rw [hother j hj]
        exact hturn j
    | @result i q n o hi ho =>
      have hfirst := hturn i
      rw [hi] at hfirst
      obtain ⟨hnext, hover⟩ := firstTurn_result hfirst (WState.allSure_reach hcalls i) ho
      rw [finishTurn_calls hover]
      refine ⟨hcalls, fun j => ?_⟩
      by_cases hj : j = i
      · subst hj
        simp only [finishTurn, Function.update_self]
        exact hnext
      · simp only [finishTurn, Function.update_of_ne hj]
        exact hturn j

/-- **The slow path delivers.** -/
theorem slow_path_delivers {p : WorkerPtr} (h : ((lts p step).restrict Delivers).Reach t) :
    (∀ i, t.calls.pc i ≠ .failed) ∧
    (∀ i r, 1 ≤ step i → t.calls.pc i = .returned r →
      1 ≤ r.max - r.min + 1 ∧ r.max - r.min + 1 ≤ step i ∧
      ∃ g ∈ t.calls.segs, r.max ≤ g.start + g.len ∧
        (r.max - r.min + 1 < step i → r.max = g.start + g.len) ∧
        ((∀ j, 1 ≤ step j) → r.ids ⊆ g.ids)) ∧
    (∀ i n, t.turn i = .calling p n → n = retryTimes) ∧
    (∀ i, t.turn i = .gaveUp p → t.calls.pc i = .threw) ∧
    (∀ a s', WState.Step step t.calls a s' →
      ∃ i, (s'.pc i).rank < (t.calls.pc i).rank ∧ ∀ j, j ≠ i → s'.pc j = t.calls.pc j) ∧
    ((∀ j m, t.calls.pc j = .add m → InInt64 (t.calls.worker.value + step j)) →
      ∀ i, 0 < (t.calls.pc i).rank → ∃ a s', WState.Step step t.calls a s') := by
  obtain ⟨hcalls, hturn⟩ := firstTurn_reach h
  have hsure := WState.allSure_reach hcalls
  refine ⟨fun i hi => ?_, fun i r hpos hi => ?_, fun i n hi => ?_, fun i hi => ?_,
    fun a s' ha => WState.rank_step ha, fun hadd i hi => WState.enabled_of_rank hadd hi⟩
  · have hbad := hsure i
    rw [hi] at hbad
    exact hbad
  · have hclaim : t.calls.claim step i = some r := by simp [WState.claim, hi, Pc.claim]
    obtain ⟨g, hg, hfits, hin⟩ := WState.sized_reach hcalls.of_restrict i r hpos hclaim
    exact ⟨hfits.nonempty, hfits.atMost, g, hg, hfits.inside, hfits.short, hin⟩
  · have hfirst := hturn i
    rw [hi] at hfirst
    exact hfirst.2
  · have hfirst := hturn i
    rw [hi] at hfirst
    exact hfirst.2

/-- The actions of `getAndIncrement` are actions of the loop. -/
theorem inner_reach {p : WorkerPtr} {s : WState ι}
    (h : ((WState.lts step).restrict WState.Delivers).Reach s) :
    ((lts p step).restrict Delivers).Reach ⟨s, fun _ => .calling p retryTimes⟩ := by
  induction h with
  | init h => exact .init ⟨h, fun _ => rfl⟩
  | @step s s' a _ ha ih => exact ih.step (a := .inner a) ⟨ha.1, .inner ha.2⟩

/-- The run of the exactly-once allocation, in which call 1 takes the slow path. -/
theorem slow_path_delivers_sample :
    ∃ t : RetryState (Fin 2), t.calls.pc 0 = .returned ⟨6, 7⟩ ∧
      t.calls.pc 1 = .returned ⟨8, 9⟩ ∧ (9 : Int) - 8 + 1 ≤ WState.sampleSteps 1 := by
  obtain ⟨s, hrun, hs⟩ := Option.map_eq_some_iff.1 WState.sampleRun_result
  simp only [Prod.mk.injEq] at hs
  obtain ⟨-, h0, h1⟩ := hs
  have hseven : ∀ s : WState (Fin 2), s.Delivers (.refill 1 (.row ['7', ',', '9'])) := by
    intro s w hw
    have hparse : parseReply ['7', ',', '9'] = some (7, 9) := by decide
    rw [nextRange_of_parse (nextRange_eq_ok hw).1 hparse] at hw
    obtain ⟨-, -, -, rfl⟩ := install_eq_ok hw
    show (7 : Int) < wrap64 (7 + 9)
    decide
  have hok : ∀ a ∈ WState.sampleRun, ∀ s, WState.Delivers s a := by
    intro a ha s
    cases a with
    | refill i reply =>
      simp only [WState.sampleRun, List.mem_cons, reduceCtorEq, Act.refill.injEq, false_or,
        or_false, List.not_mem_nil] at ha
      obtain ⟨rfl, rfl⟩ := ha
      exact hseven s
    | _ => trivial
  have hinit : ((WState.lts WState.sampleSteps).restrict WState.Delivers).Reach
      (WState.start WState.sampleWorker) :=
    .init ⟨"SEQ", 1, 0, .row ['5', ',', '2'], WState.sampleWorker, by decide, by decide, rfl⟩
  have hreach := hinit.exec_restrict (fun _ _ _ => WState.exec_sound) hok hrun
  let p : WorkerPtr := ⟨0, .increment WState.sampleWorker⟩
  have hall := slow_path_delivers (inner_reach (p := p) hreach)
  exact ⟨⟨s, fun _ => .calling p retryTimes⟩, h0, h1, (hall.2.1 1 ⟨8, 9⟩ (by decide) h1).2.1⟩

end RetryState

end DevTools.Sequence
