import DevTools.Pool.Interleaving

/-!
# What `usedConns` counts

**Theorem (`drift_reach`).** In every state `usedConns` is the number of connections that are
checked out or being released, plus one for each connection whose `close` has thrown in the hands of
a caller, less one for each connection that the first loop of `CheckConnection` has popped and less
two for each that the second loop has: both loops count a connection down that nobody has counted
up, and a validated one is counted down again when it is released.

**Theorem (`usedConns_accurate`).** If no loop of `CheckConnection` finds anything to pop and no
`close` throws, then `usedConns` is the number of checked out connections whenever no operation is
in progress.

**Theorem (`size_limit`).** If moreover no `GetConnection` is given a connection by the driver
while `usedConns` equals `max` (the test is `usedConns <= max`), and no `InitPool` leaves
connections behind when it fails, then never more than `max` connections are checked out.
-/

namespace DevTools.Pool

open SingleDBPool

/-- How often an operation will still count down. -/
def Op.weight : Op → Nat
  | .push _ rest | .close _ rest | .countDown rest => 1 + (rest.getD []).length
  | .validate tmpQueue => tmpQueue.length
  | _ => 0

@[simp] theorem weight_get (time : Int) : (Op.get time).weight = 0 := rfl

@[simp] theorem weight_push (c : Connection) (rest : Option (List Connection)) :
    (Op.push c rest).weight = 1 + (rest.getD []).length := rfl

@[simp] theorem weight_close (c : Connection) (rest : Option (List Connection)) :
    (Op.close c rest).weight = 1 + (rest.getD []).length := rfl

@[simp] theorem weight_countDown (rest : Option (List Connection)) :
    (Op.countDown rest).weight = 1 + (rest.getD []).length := rfl

@[simp] theorem weight_evict (curTime : Int) : (Op.evict curTime).weight = 0 := rfl

@[simp] theorem weight_closing (tmpQueue : List Connection) :
    (Op.closing tmpQueue).weight = 0 := rfl

@[simp] theorem weight_take (curTime : Int) : (Op.take curTime).weight = 0 := rfl

@[simp] theorem weight_validate (tmpQueue : List Connection) :
    (Op.validate tmpQueue).weight = tmpQueue.length := rfl

namespace Sys

variable {opt : ConnectOptions} {s s' : Sys} {a : Act}

/-- The decrements that the operations in progress will still make. -/
def pending (busy : Multiset Op) : Nat := (busy.map Op.weight).sum

@[simp] theorem pending_zero : pending 0 = 0 := rfl

@[simp] theorem pending_cons (op : Op) (B : Multiset Op) :
    pending (op ::ₘ B) = op.weight + pending B := by
  simp [pending]

@[simp] theorem pending_add (A B : Multiset Op) : pending (A + B) = pending A + pending B := by
  unfold pending
  rw [Multiset.map_add, Multiset.sum_add]

@[simp] theorem pending_afterRelease (rest : Option (List Connection)) :
    pending (afterRelease rest) = (rest.getD []).length := by
  cases rest with
  | none => rfl
  | some tmpQueue => simp [afterRelease, pending]

@[simp] theorem weight_startRelease (p : SingleDBPool) (c : Connection) (now : Int)
    (rest : Option (List Connection)) :
    (startRelease p c now rest).weight = 1 + (rest.getD []).length := by
  unfold startRelease
  split
  · rfl
  · rfl

/-- How far the counter is from what is checked out or being released. -/
def drift (s : Sys) : Int :=
  s.pool.usedConns - (s.out.card + pending s.busy - s.evicted - 2 * s.taken)

/-- No step moves the counter against the rest. -/
theorem drift_step (ha : Step opt s a s') : s'.drift = s.drift := by
  unfold drift
  cases ha with
  | init => rw [(initPool_cases opt _ _ s.pool).1]
  | get => simp
  | getLocked hB =>
    rename_i time answer B
    rw [hB]
    obtain ⟨c, rest, -, hget⟩ | ⟨lastTime, -, -, -, hget⟩ | ⟨-, hget⟩ :=
      getConnection_cases opt time answer s.pool
    · simp [hget]
      omega
    · simp [hget]
      omega
    · simp [hget]
  | release hO =>
    rw [hO]
    simp
    omega
  | push hB =>
    rw [hB]
    simp [pushFree]
    omega
  | close hB =>
    rw [hB]
    simp [closeConn]
  | countDown hB =>
    rw [hB]
    simp [SingleDBPool.countDown]
    omega
  | check => simp
  | evict hB =>
    rw [hB]
    simp [evictIdle_usedConns]
    omega
  | closeIdle hB =>
    rw [hB]
    simp [closeConn]
  | closed hB =>
    rw [hB]
    simp
  | take hB =>
    rw [hB]
    simp [takeExpired_usedConns]
    omega
  | validate hB =>
    rw [hB]
    simp
    omega
  | checked hB =>
    rw [hB]
    simp

/-- What the counter holds. -/
def Counted (s : Sys) : Prop :=
  s.pool.usedConns = (s.out.card : Int) + pending s.busy - s.evicted - 2 * s.taken

theorem counted_reach (h : (lts opt).Reach s) : Counted s := by
  have hdrift : s.drift = 0 := by
    refine LTS.Reach.invariant (I := fun s => s.drift = 0) ?_
      (fun _ _ _ hi ha => (drift_step ha).trans hi) h
    intro s hs
    rw [hs]
    rfl
  unfold drift at hdrift
  unfold Counted
  omega

/-- **The drift of the counter.** -/
theorem drift_reach {lost : Multiset Connection}
    (h : (PoolProcess.lts opt).Reach (.up s lost)) : s.drift = lost.card := by
  have hall : ∀ x, (PoolProcess.lts opt).Reach x →
      ∀ s lost, x = .up s lost → s.drift = Multiset.card lost := by
    intro x hx
    induction hx with
    | init h =>
      intro s lost hs
      rw [h] at hs
      cases hs
      rfl
    | step _ ha ih =>
      intro t lost' ht
      cases ha with
      | act hstep =>
        cases ht
        exact (drift_step hstep).trans (ih _ _ rfl)
      | releaseThrows hB =>
        cases ht
        have hdrift := ih _ _ rfl
        unfold drift at hdrift ⊢
        rw [hB] at hdrift
        simp at hdrift ⊢
        omega
      | validateThrows hB => cases ht
      | idleThrows hB => cases ht
  exact hall _ h s lost rfl

/-! ## Without eviction -/

/-- The loops of `CheckConnection` stop at once. -/
def NoPops (opt : ConnectOptions) (s : Sys) : Act → Prop
  | .evict curTime => NoneIdle opt curTime s.pool.freeQueue
  | .take curTime => NoneExpired opt curTime s.pool.freeQueue
  | _ => True

theorem noPops_step (h : s.evicted = 0 ∧ s.taken = 0) (hok : NoPops opt s a)
    (ha : Step opt s a s') : s'.evicted = 0 ∧ s'.taken = 0 := by
  cases ha with
  | evict => simpa [evictIdle_of_noneIdle hok] using h
  | take => simpa [takeExpired_of_noneExpired hok] using h
  | _ => exact h

theorem noPops_reach {ok : Sys → Act → Prop} (hok : ∀ s a, ok s a → NoPops opt s a)
    (h : ((lts opt).restrict ok).Reach s) : s.evicted = 0 ∧ s.taken = 0 := by
  induction h with
  | init h =>
    rw [h]
    exact ⟨rfl, rfl⟩
  | step _ ha ih => exact noPops_step ih (hok _ _ ha.1) ha.2

/-- The loops of `CheckConnection` stop at once, and no `close` throws. -/
def Undisturbed (opt : ConnectOptions) : PoolProcess → PoolEvent → Prop
  | .up s _, .act a => NoPops opt s a
  | _, _ => False

/-- Such a run is one of the pool alone. -/
theorem reach_of_undisturbed {lost : Multiset Connection}
    (h : ((PoolProcess.lts opt).restrict (Undisturbed opt)).Reach (.up s lost)) :
    ((lts opt).restrict (NoPops opt)).Reach s := by
  have hall : ∀ x, ((PoolProcess.lts opt).restrict (Undisturbed opt)).Reach x →
      ∀ s lost, x = .up s lost → ((lts opt).restrict (NoPops opt)).Reach s := by
    intro x hx
    induction hx with
    | init h =>
      intro s lost hs
      rw [h] at hs
      cases hs
      exact .init rfl
    | step _ ha ih =>
      intro t lost' ht
      obtain ⟨hok, ha⟩ := ha
      cases ha with
      | act hstep =>
        cases ht
        exact (ih _ _ rfl).step ⟨hok, hstep⟩
      | releaseThrows => exact hok.elim
      | validateThrows => exact hok.elim
      | idleThrows => exact hok.elim
  exact hall _ h s lost rfl

theorem up_reach (h : ((lts opt).restrict (NoPops opt)).Reach s) :
    ((PoolProcess.lts opt).restrict (Undisturbed opt)).Reach (.up s 0) := by
  induction h with
  | init h =>
    rw [h]
    exact .init rfl
  | @step s s' a _ ha ih =>
    have hok : Undisturbed opt (.up s 0) (.act a) := ha.1
    exact ih.step ⟨hok, .act ha.2⟩

/-- **Counter accuracy.** -/
theorem usedConns_accurate {lost : Multiset Connection}
    (h : ((PoolProcess.lts opt).restrict (Undisturbed opt)).Reach (.up s lost))
    (hidle : s.busy = 0) : s.pool.usedConns = s.out.card := by
  have hreach := reach_of_undisturbed h
  have hcount := counted_reach hreach.of_restrict
  obtain ⟨he, ht⟩ := noPops_reach (fun _ _ hok => hok) hreach
  unfold Counted at hcount
  rw [hidle, he, ht] at hcount
  simpa using hcount

/-- A pool for one connection. -/
def sampleOptions : ConnectOptions := ⟨1, 1, 240⟩

/-- The pool has opened its connection, whose `lastTime` happened to be 0. -/
def sampleStarted : Sys := { start with pool := ⟨[⟨0, 0, false⟩], 0, true, 1, []⟩ }

/-- The connection is checked out. -/
def sampleOut : Sys := ⟨⟨[], 1, true, 1, []⟩, {⟨0, 500, false⟩}, 0, 0, 0⟩

/-- Steps that no condition speaks about, up to the first checkout. -/
theorem sampleOut_reach (ok : Sys → Act → Prop) (hinit : ok start (.init true [.conn 0]))
    (hget : ∀ s, ok s (.get 500)) (hlocked : ∀ s, s.pool = sampleStarted.pool →
      ok s (.getLocked 500 .null)) :
    ((lts sampleOptions).restrict ok).Reach sampleStarted ∧
      ((lts sampleOptions).restrict ok).Reach sampleOut := by
  have h0 : ((lts sampleOptions).restrict ok).Reach start := .init rfl
  have hs1 : Step sampleOptions start (.init true [.conn 0]) sampleStarted := .init
  have hs2 : Step sampleOptions sampleStarted (.get 500) _ := .get rfl
  have hs3 : Step sampleOptions { sampleStarted with busy := {.get 500} }
      (.getLocked 500 .null) sampleOut := .getLocked rfl
  have h1 := h0.step ⟨hinit, hs1⟩
  exact ⟨h1, (h1.step ⟨hget _, hs2⟩).step ⟨hlocked _ rfl, hs3⟩⟩

/-- The second loop of `CheckConnection` has popped the idle connection. -/
def sampleTaken : Sys := ⟨⟨[], -1, true, 1, []⟩, 0, {.validate [⟨0, 0, false⟩]}, 0, 1⟩

/-- It was healthy and has been released again. -/
def sampleChecked : Sys := ⟨⟨[⟨0, 501, false⟩], -2, true, 1, []⟩, 0, {.validate []}, 0, 1⟩

theorem sampleTaken_step :
    Step sampleOptions { sampleStarted with busy := {.take 500} } (.take 500) sampleTaken := by
  have htake : takeExpired sampleOptions 500 sampleStarted.pool =
      ([⟨0, 0, false⟩], sampleTaken.pool) := by decide +kernel
  have hstep : Step sampleOptions { sampleStarted with busy := {.take 500} } (.take 500) _ :=
    .take (B := 0) rfl
  simp only [htake] at hstep
  exact hstep

/-- One run of `CheckConnection` leaves the counter at -2. -/
theorem not_accurate :
    ∃ s, (lts sampleOptions).Reach s ∧ s.busy = 0 ∧ s.pool.usedConns = -2 ∧
      s.pool.usedConns ≠ s.out.card := by
  have h0 := (sampleOut_reach (fun _ _ => True) trivial (fun _ => trivial)
    (fun _ _ => trivial)).1.of_restrict
  have hs1 : Step sampleOptions sampleStarted (.check 500)
      { sampleStarted with busy := {.evict 500} } := .check
  have hs2 : Step sampleOptions { sampleStarted with busy := {.evict 500} } (.evict 500)
      { sampleStarted with busy := {.closing []} } := .evict (B := 0) rfl
  have hs3 : Step sampleOptions { sampleStarted with busy := {.closing []} } (.closed 500)
      { sampleStarted with busy := {.take 500} } := .closed (B := 0) rfl
  have hs4 : Step sampleOptions sampleTaken (.validate ⟨0, 0, false⟩ [] false 501)
      { sampleTaken with busy := {.push ⟨0, 501, false⟩ (some [])} } := .validate (B := 0) rfl
  have hs5 : Step sampleOptions { sampleTaken with busy := {.push ⟨0, 501, false⟩ (some [])} }
      (.push ⟨0, 501, false⟩ (some [])) sampleChecked := .push (B := 0) rfl
  have hs6 : Step sampleOptions sampleChecked .checked { sampleChecked with busy := 0 } :=
    .checked rfl
  refine ⟨_, (((((((h0.step hs1).step hs2).step hs3).step sampleTaken_step).step hs4).step
    hs5).step hs6), rfl, rfl, ?_⟩
  show (-2 : Int) ≠ 0
  decide

theorem usedConns_accurate_sample :
    ((PoolProcess.lts sampleOptions).restrict (Undisturbed sampleOptions)).Reach
        (.up sampleOut 0) ∧
      sampleOut.pool.usedConns = sampleOut.out.card := by
  have hreach := up_reach (sampleOut_reach (NoPops sampleOptions) trivial (fun _ => trivial)
    (fun _ _ => trivial)).2
  exact ⟨hreach, usedConns_accurate hreach rfl⟩

/-! ## The size limit -/

/-- Nothing is popped by `CheckConnection`; the driver gives no connection to a `GetConnection`
that finds the queue empty and `usedConns` at `max`; and an `InitPool` that gets a connection in
the first turn of its loop gets one in every turn. -/
def WithinLimit (opt : ConnectOptions) (s : Sys) (a : Act) : Prop :=
  NoPops opt s a ∧
    match a with
    | .getLocked _ answer => s.pool.freeQueue = [] → s.pool.usedConns = opt.max →
        ∀ lastTime, answer ≠ .conn lastTime
    | .init parsed answers => s.pool.runing = false → parsed = true →
        AllOrNone opt.min.toNat answers
    | _ => True

/-- A pool that was not started has nothing; a running one has no more connections than it
may. -/
structure Limited (opt : ConnectOptions) (s : Sys) : Prop where
  stopped : s.pool.runing = false →
    s.pool.freeQueue = [] ∧ s.pool.usedConns = 0 ∧ ∀ time, .get time ∉ s.busy
  running : s.pool.runing = true → s.pool.freeQueue.length + s.pool.usedConns ≤ opt.max

theorem Limited.of_running (hrun : s.pool.runing = true)
    (hle : s.pool.freeQueue.length + s.pool.usedConns ≤ opt.max) : Limited opt s where
  stopped := by
    intro hstop
    rw [hrun] at hstop
    cases hstop
  running := fun _ => hle

theorem Limited.of_pool (h : Limited opt s) (hpool : s'.pool.freeQueue = s.pool.freeQueue ∧
      s'.pool.usedConns = s.pool.usedConns ∧ s'.pool.runing = s.pool.runing)
    (hbusy : ∀ time, .get time ∈ s'.busy → .get time ∈ s.busy ∨ s.pool.runing = true) :
    Limited opt s' where
  stopped := by
    intro hrun
    rw [hpool.2.2] at hrun
    obtain ⟨hq, hused, hget⟩ := h.stopped hrun
    refine ⟨hpool.1.trans hq, hpool.2.1.trans hused, fun time hin => ?_⟩
    rcases hbusy time hin with hin | hrun'
    · exact hget time hin
    · rw [hrun] at hrun'
      cases hrun'
  running := by
    intro hrun
    rw [hpool.2.2] at hrun
    rw [hpool.1, hpool.2.1]
    exact h.running hrun

theorem startRelease_ne_get (p : SingleDBPool) (c : Connection) (now : Int)
    (rest : Option (List Connection)) (time : Int) : startRelease p c now rest ≠ .get time := by
  unfold startRelease
  split
  · nofun
  · nofun

/-- An operation that goes on as something else than `GetConnection`. -/
theorem get_mem_of_replaced {op op' : Op} {B : Multiset Op} (hB : s.busy = op ::ₘ B) {time : Int}
    (hin : .get time ∈ op' ::ₘ B) (hop : op' ≠ .get time) : .get time ∈ s.busy := by
  rcases Multiset.mem_cons.mp hin with hin | hin
  · exact absurd hin.symm hop
  · rw [hB]
    exact Multiset.mem_cons_of_mem hin

/-- Something that will count down is in progress, so the pool was started. -/
theorem runing_of_pending (h : Limited opt s) (hc : Counted s) (hpops : s.evicted = 0 ∧ s.taken = 0)
    (hpos : 0 < pending s.busy) : s.pool.runing = true := by
  by_contra hrun
  rw [Bool.not_eq_true] at hrun
  obtain ⟨-, hused, -⟩ := h.stopped hrun
  unfold Counted at hc
  rw [hpops.1, hpops.2, hused] at hc
  omega

theorem limited_init (h : Limited opt s) {parsed : Bool} {answers : List Connect}
    (hok : WithinLimit opt s (.init parsed answers)) :
    Limited opt { s with pool := (initPool opt parsed answers s.pool).2 } := by
  obtain ⟨hused, hcase⟩ := initPool_cases opt parsed answers s.pool
  rcases hcase with heq | ⟨hrun, hmin, hmax, hcase⟩
  · rw [heq]
    exact h
  · obtain ⟨hq, hzero, hget⟩ := h.stopped hrun
    rcases hcase with ⟨-, hrun', hlen⟩ | ⟨hfail, hrun'⟩
    · apply Limited.of_running hrun'
      simp only [hlen, hused, hq, hzero, List.length_nil]
      omega
    · refine ⟨?_, ?_⟩
      · intro _
        exact ⟨(initPool_freeQueue hok.2 hfail).trans hq, hused.trans hzero, hget⟩
      · intro hstart
        simp only [hrun'] at hstart
        cases hstart

theorem limited_getLocked (h : Limited opt s) {time : Int} {answer : Connect} {B : Multiset Op}
    (hB : s.busy = .get time ::ₘ B) (hok : WithinLimit opt s (.getLocked time answer)) :
    Limited opt { s with
      pool := (getConnection opt time answer s.pool).2
      out := (getConnection opt time answer s.pool).1.toList + s.out
      busy := B } := by
  have hrun : s.pool.runing = true := by
    by_contra hnot
    rw [Bool.not_eq_true] at hnot
    exact (h.stopped hnot).2.2 time (by simp [hB])
  have hlimit := h.running hrun
  obtain ⟨c, rest, hq, hget⟩ | ⟨lastTime, hq, hle, hans, hget⟩ | ⟨hq, hget⟩ :=
    getConnection_cases opt time answer s.pool
  · rw [hget]
    refine Limited.of_running (by exact hrun) ?_
    rw [hq, List.length_cons] at hlimit
    simp only
    omega
  · -- the boundary case is the one that the condition excludes
    have hne : s.pool.usedConns ≠ opt.max := fun heq => hok.2 hq heq lastTime hans
    rw [hget]
    refine Limited.of_running (by exact hrun) ?_
    simp only [hq, List.length_nil]
    omega
  · rw [hget]
    exact h.of_pool ⟨rfl, rfl, rfl⟩ fun _ _ => .inr hrun

theorem limited_step (h : Limited opt s) (hc : Counted s) (hpops : s.evicted = 0 ∧ s.taken = 0)
    (hok : WithinLimit opt s a) (ha : Step opt s a s') : Limited opt s' := by
  cases ha with
  | init => exact limited_init h hok
  | get hrun => exact h.of_pool ⟨rfl, rfl, rfl⟩ fun _ _ => .inr hrun
  | getLocked hB => exact limited_getLocked h hB hok
  | release hO =>
    refine h.of_pool ⟨rfl, rfl, rfl⟩ fun time hin => .inl ?_
    rcases Multiset.mem_cons.mp hin with hin | hin
    · exact absurd hin.symm (startRelease_ne_get _ _ _ _ time)
    · exact hin
  | push hB =>
    have hrun := runing_of_pending h hc hpops (by rw [hB]; simp)
    have hlimit := h.running hrun
    refine Limited.of_running (by exact hrun) ?_
    simp only [pushFree, List.length_append, List.length_singleton]
    omega
  | close hB =>
    exact h.of_pool ⟨rfl, rfl, rfl⟩ fun _ hin => .inl (get_mem_of_replaced hB hin nofun)
  | countDown hB =>
    have hrun := runing_of_pending h hc hpops (by rw [hB]; simp)
    have hlimit := h.running hrun
    refine Limited.of_running (by exact hrun) ?_
    simp only [SingleDBPool.countDown]
    omega
  | check =>
    refine h.of_pool ⟨rfl, rfl, rfl⟩ fun _ hin => .inl ?_
    simpa using hin
  | evict hB =>
    rw [evictIdle_of_noneIdle hok.1]
    exact h.of_pool ⟨rfl, rfl, rfl⟩ fun _ hin => .inl (get_mem_of_replaced hB hin nofun)
  | closeIdle hB =>
    exact h.of_pool ⟨rfl, rfl, rfl⟩ fun _ hin => .inl (get_mem_of_replaced hB hin nofun)
  | closed hB =>
    exact h.of_pool ⟨rfl, rfl, rfl⟩ fun _ hin => .inl (get_mem_of_replaced hB hin nofun)
  | take hB =>
    rw [takeExpired_of_noneExpired hok.1]
    exact h.of_pool ⟨rfl, rfl, rfl⟩ fun _ hin => .inl (get_mem_of_replaced hB hin nofun)
  | validate hB =>
    exact h.of_pool ⟨rfl, rfl, rfl⟩ fun time hin =>
      .inl (get_mem_of_replaced hB hin (startRelease_ne_get _ _ _ _ time))
  | checked hB =>
    refine h.of_pool ⟨rfl, rfl, rfl⟩ fun _ hin => .inl ?_
    rw [hB]
    exact Multiset.mem_cons_of_mem hin

theorem limited_reach (h : ((lts opt).restrict (WithinLimit opt)).Reach s) : Limited opt s := by
  induction h with
  | init h =>
    rw [h]
    exact ⟨fun _ => ⟨rfl, rfl, by simp [start]⟩, nofun⟩
  | step hr ha ih =>
    have hpops := noPops_reach (fun _ _ hok => hok.1) hr
    exact limited_step ih (counted_reach hr.of_restrict) hpops ha.1 ha.2

/-- **The size limit.** Never more than `max` connections are checked out, and at `max` no further
one is. -/
theorem size_limit (h : ((lts opt).restrict (WithinLimit opt)).Reach s)
    (hrun : s.pool.runing = true) :
    s.out.card ≤ opt.max ∧
      ∀ time answer, s.out.card = opt.max → WithinLimit opt s (.getLocked time answer) →
        (getConnection opt time answer s.pool).1 = none := by
  have hlimit := (limited_reach h).running hrun
  have hcount := counted_reach h.of_restrict
  obtain ⟨he, ht⟩ := noPops_reach (fun _ _ hok => hok.1) h
  unfold Counted at hcount
  rw [he, ht] at hcount
  refine ⟨by omega, ?_⟩
  intro time answer hfull hok
  obtain ⟨c, rest, hq, -⟩ | ⟨lastTime, hq, hle, hans, -⟩ | ⟨-, hget⟩ :=
    getConnection_cases opt time answer s.pool
  · rw [hq, List.length_cons] at hlimit
    omega
  · exact absurd hans (hok.2 hq (by omega) lastTime)
  · rw [hget]

/-- Two connections of a pool for one. -/
theorem not_size_limit :
    ∃ s, (lts sampleOptions).Reach s ∧ s.pool.runing = true ∧
      sampleOptions.max < s.out.card := by
  have h0 := (sampleOut_reach (fun _ _ => True) trivial (fun _ => trivial)
    (fun _ _ => trivial)).2.of_restrict
  have hs1 : Step sampleOptions sampleOut (.get 500) { sampleOut with busy := {.get 500} } :=
    .get rfl
  have hs2 : Step sampleOptions { sampleOut with busy := {.get 500} } (.getLocked 500 (.conn 0))
      ⟨⟨[], 2, true, 2, []⟩, {⟨1, 0, false⟩, ⟨0, 500, false⟩}, 0, 0, 0⟩ := .getLocked rfl
  exact ⟨_, (h0.step hs1).step hs2, rfl, by decide⟩

theorem size_limit_sample :
    ((lts sampleOptions).restrict (WithinLimit sampleOptions)).Reach sampleOut ∧
      sampleOut.out.card ≤ sampleOptions.max := by
  have hreach := (sampleOut_reach (WithinLimit sampleOptions)
    ⟨trivial, fun _ _ => .inl ⟨by decide, by simp [sampleOptions]⟩⟩
    (fun _ => ⟨trivial, trivial⟩) (fun s hs => ?_)).2
  · exact ⟨hreach, (size_limit hreach rfl).1⟩
  · refine ⟨trivial, fun hq => ?_⟩
    rw [hs] at hq
    cases hq

end Sys

end DevTools.Pool
