import DevTools.Daemon.Supervisor
import DevTools.Lib.Monitor

/-!
# Starting and stopping

Before it forks a master the daemon sets `shm->dp.status` to 1, and it forks no worker until
somebody has written another value there: the JVM of the master by `notifydp`, or the child itself
when `callExtJVM` returns.

**Theorem (`worker_after_notify`).** In every run, whenever a worker is about to be forked,
`shm->dp.status` has been written with a value other than 1 since the last master was prepared.

**Theorem (`silent_master`).** Nothing but that notification or a `SIGTERM` ends the wait. In
particular a master that is killed before it notifies is not restarted: the handler resets `mpid`,
which is only looked at before the wait. After that the handler goes on to `kill(0,15)`, as if the
worker had died too, and so signals the daemon itself; a run without `SIGTERM` is one in which that
signal is not handled.

**Theorem (`one_fork_after_shutdown`).** Once `shutdown` is set, the main loop forks at most one
more process, master or worker, wherever the signal has come in.
-/

namespace DevTools.Daemon.DaemonState

variable {conf : Conf} {s s' : DaemonState} {a : Act}

/-! ## What a step leaves alone -/

theorem Step.shutdown_mono (h : Step conf s a s') (hs : s.shutdown = true) :
    s'.shutdown = true := by
  cases h with
  | env h => cases h <;> exact hs
  | main _ h => cases h <;> exact hs
  | chld _ h => cases h <;> exact hs
  | term _ h => cases h <;> first | exact hs | rfl

/-! ## The notification -/

/-- The step is `shm->dp.status=1` in `forkMaster`. -/
def Prepares (s s' : DaemonState) : Prop := s.main = .setStatus ∧ s'.main = .clearMp

instance (s s' : DaemonState) : Decidable (Prepares s s') := inferInstanceAs (Decidable (_ ∧ _))

/-- Has a value other than 1 been written since the last master was prepared? -/
def told (s : DaemonState) (a : Act) (s' : DaemonState) (t : Bool) : Bool :=
  if Prepares s s' then false
  else match a with
    | .notify status => t || status != 1
    | _ => t

/-- Between the wait and the next test of `shutdown`. -/
def AfterWait : MainPc → Prop
  | .readWp | .test | .clearWp | .forkW | .storeWp _ | .assignW _ | .testForked | .rereadWp
  | .checkJVM | .pclose _ | .checked | .killTest | .kill | .spin => True
  | _ => False

structure Told (s : DaemonState) (t : Bool) : Prop where
  status : s.status ≠ 1 → t = true
  check : s.main = .checkShutdown → s.shutdown = true ∨ t = true
  after : AfterWait s.main → t = true

/-- The way into this part is the test of `shutdown` after the wait. -/
theorem MainStep.afterWait (h : MainStep conf s a s') (ha : AfterWait s'.main) :
    AfterWait s.main ∨ s.main = .checkShutdown ∧ s.shutdown = false := by
  cases h with
  | checkShutdown hm =>
    refine .inr ⟨hm, ?_⟩
    by_contra hs
    rw [Bool.not_eq_false] at hs
    simp only [hs, if_true] at ha
    exact ha
  | readWp hm | test hm | clearWp hm | forkW hm | storeWp hm | assignW hm | testForked hm
  | rereadWp hm | noChecks hm | popen hm | popenFails hm | pclose hm | pcloseNone hm | checked hm
  | killTest hm | kill hm | spin hm | forkWFails hm =>
    refine .inl ?_
    rw [hm]
    trivial
  | setStatus | clearMp | forkM | forkMFails | storeMp | assignM | finishKill => exact ha.elim
  | top hm | testM hm | wait hm | loopTest hm | finish hm =>
    dsimp only at ha
    split_ifs at ha
    all_goals exact ha.elim

theorem told_of_main (h : MainStep conf s a s') (hne : s.main ≠ .setStatus) (t : Bool) :
    told s a s' t = t ∧ s'.status = s.status := by
  unfold told
  rw [if_neg (fun hp => hne hp.1)]
  cases h with
  | setStatus hm => exact absurd hm hne
  | _ => exact ⟨rfl, rfl⟩

/-- The wait ends with a notification or with `shutdown`. -/
theorem MainStep.checkShutdown_inv (h : MainStep conf s a s') (hc : s'.main = .checkShutdown) :
    s.status ≠ 1 ∨ s.shutdown = true := by
  cases h with
  | wait hm =>
    dsimp only at hc
    split_ifs at hc with hwait
    rw [Decidable.not_and_iff_or_not, Bool.not_eq_false] at hwait
    exact hwait
  | top | testM | checkShutdown | test | testForked | checked | killTest | spin | loopTest
  | finish =>
    dsimp only at hc
    split_ifs at hc
  | _ => cases hc

theorem told_main {t : Bool} (ht : Told s t) (h : MainStep conf s a s') :
    Told s' (told s a s' t) := by
  by_cases hset : s.main = .setStatus
  · cases h with
    | setStatus =>
      refine ⟨?_, nofun, False.elim⟩
      intro hstatus
      exact absurd rfl hstatus
    | _ => simp_all
  · obtain ⟨heq, hstatus⟩ := told_of_main h hset t
    rw [heq]
    refine ⟨?_, ?_, ?_⟩
    · rw [hstatus]
      exact ht.status
    · intro hcheck
      rcases h.checkShutdown_inv hcheck with hs | hs
      · exact .inr (ht.status hs)
      · refine .inl ?_
        cases h <;> exact hs
    · intro hafter
      rcases h.afterWait hafter with hafter | ⟨hcheck, hs⟩
      · exact ht.after hafter
      · rcases ht.check hcheck with hs' | ht
        · rw [hs] at hs'
          cases hs'
        · exact ht

theorem not_prepares (hmain : s'.main = s.main) : ¬ Prepares s s' := by
  rintro ⟨hset, hclear⟩
  rw [hmain, hset] at hclear
  cases hclear

/-- A step of somebody else, with the label `a`. -/
theorem told_other {t : Bool} (ht : Told s t) (hmain : s'.main = s.main)
    (hshutdown : s.shutdown = true → s'.shutdown = true)
    (hstatus : s'.status ≠ 1 → told s a s' t = true) : Told s' (told s a s' t) := by
  have hle : t = true → told s a s' t = true := by
    intro h
    subst h
    unfold told
    rw [if_neg (not_prepares hmain)]
    cases a <;> rfl
  refine ⟨hstatus, ?_, ?_⟩
  · intro hcheck
    rw [hmain] at hcheck
    exact (ht.check hcheck).imp hshutdown hle
  · intro hafter
    rw [hmain] at hafter
    exact hle (ht.after hafter)

theorem told_step {t : Bool} (ht : Told s t) (h : Step conf s a s') : Told s' (told s a s' t) := by
  have hkept : ∀ {s' : DaemonState}, s'.main = s.main → s'.status = s.status →
      (∀ status, a ≠ .notify status) → s'.status ≠ 1 → told s a s' t = true := by
    intro s' hmain hstatus hne hs
    have heq : told s a s' t = t := by
      unfold told
      rw [if_neg (not_prepares hmain)]
      cases a with
      | notify status => exact absurd rfl (hne status)
      | _ => rfl
    rw [heq]
    exact ht.status (hstatus ▸ hs)
  have hmono := h.shutdown_mono
  cases h with
  | env h =>
    cases h with
    | @notify status =>
      refine told_other ht rfl hmono ?_
      intro hs
      unfold told
      rw [if_neg (@not_prepares s { s with status := status } rfl)]
      simpa using Or.inr hs
    | _ => exact told_other ht rfl hmono (hkept rfl rfl nofun)
  | main _ h => exact told_main ht h
  | chld _ h => cases h <;> exact told_other ht rfl hmono (hkept rfl rfl nofun)
  | term _ h => cases h <;> exact told_other ht rfl hmono (hkept rfl rfl nofun)

/-- **A worker is forked after the notification**, in every run. -/
theorem worker_after_notify (s : DaemonState) :
    ((lts conf).Reach s → ∃ t, ((lts conf).monitor true told).Reach (s, t)) ∧
      ∀ t, ((lts conf).monitor true told).Reach (s, t) → s.main = .forkW → t = true := by
  refine ⟨LTS.Reach.exists_monitor, ?_⟩
  intro t h hfork
  have ht : Told s t := by
    refine LTS.Reach.monitor_invariant (I := Told) ?_ ?_ h
    · rintro s rfl
      exact ⟨fun _ => rfl, nofun, fun _ => rfl⟩
    · intro s a s' t ht ha
      exact told_step ht ha
  exact ht.after (hfork ▸ trivial)

/-- The master 100 has been forked, and the main loop waits for it. -/
def sampleWaiting : DaemonState :=
  { new with
    children := [⟨100, .master, true⟩], mp := 100, status := 1, mpid := 100, main := .wait }

/-- It has notified, and the worker is next. -/
def sampleNotified : DaemonState := { sampleWaiting with status := 0, wpid := 0, main := .forkW }

/-- The runs of a daemon with a master, and what it has been told. -/
def sampleMonitor : LTS (DaemonState × Bool) Act := (lts ⟨true, false⟩).monitor true told

theorem sampleWaiting_reach : sampleMonitor.Reach (sampleWaiting, false) := by
  have hstart : sampleMonitor.Reach (new, true) := .init ⟨rfl, rfl⟩
  have htop : sampleMonitor.Reach ({ new with main := .setStatus }, true) :=
    hstart.step (a := .next) ⟨.main rfl (.top rfl), rfl⟩
  have hset : sampleMonitor.Reach ({ new with status := 1, main := .clearMp }, false) :=
    htop.step (a := .next) ⟨.main rfl (.setStatus rfl), rfl⟩
  have hclear : sampleMonitor.Reach ({ new with status := 1, main := .forkM }, false) :=
    hset.step (a := .next) ⟨.main rfl (.clearMp rfl), rfl⟩
  have hfork : sampleMonitor.Reach
      ({ sampleWaiting with mp := 0, mpid := -1, main := .storeMp 100 }, false) :=
    hclear.step (a := .fork 100) ⟨.main rfl (.forkM rfl (by decide)), rfl⟩
  have hstore : sampleMonitor.Reach
      ({ sampleWaiting with mpid := -1, main := .assignM 100 }, false) :=
    hfork.step (a := .next) ⟨.main rfl (.storeMp rfl), rfl⟩
  have hassign : sampleMonitor.Reach ({ sampleWaiting with main := .testM }, false) :=
    hstore.step (a := .next) ⟨.main rfl (.assignM rfl), rfl⟩
  exact hassign.step (a := .next) ⟨.main rfl (.testM rfl), rfl⟩

theorem worker_after_notify_sample : ∃ t, sampleMonitor.Reach (sampleNotified, t) ∧ t = true := by
  have hnotify : sampleMonitor.Reach ({ sampleWaiting with status := 0 }, true) :=
    sampleWaiting_reach.step (a := .notify 0) ⟨.env .notify, rfl⟩
  have hwait : sampleMonitor.Reach
      ({ sampleWaiting with status := 0, main := .checkShutdown }, true) :=
    hnotify.step (a := .next) ⟨.main rfl (.wait rfl), rfl⟩
  have hcheck : sampleMonitor.Reach ({ sampleWaiting with status := 0, main := .readWp }, true) :=
    hwait.step (a := .next) ⟨.main rfl (.checkShutdown rfl), rfl⟩
  have hread : sampleMonitor.Reach ({ sampleNotified with main := .test }, true) :=
    hcheck.step (a := .next) ⟨.main rfl (.readWp rfl), rfl⟩
  have htest : sampleMonitor.Reach ({ sampleNotified with main := .clearWp }, true) :=
    hread.step (a := .next) ⟨.main rfl (.test rfl), rfl⟩
  have hforkw : sampleMonitor.Reach (sampleNotified, true) :=
    htest.step (a := .next) ⟨.main rfl (.clearWp rfl), rfl⟩
  exact ⟨true, hforkw, (worker_after_notify sampleNotified).2 true hforkw rfl⟩

/-! ## A master that says nothing -/

/-- Neither a notification nor a `SIGTERM`. -/
def Silent (_ : DaemonState) : Act → Prop
  | .notify _ | .sigterm => False
  | _ => True

/-- The main loop waits, and no handler is about to end that. -/
structure Waiting (pids : List Int) (s : DaemonState) : Prop where
  main : s.main = .wait
  status : s.status = 1
  shutdown : s.shutdown = false
  frames : ∀ f ∈ s.frames, f.isChld = true
  pids : s.children.pids ⊆ pids

theorem pids_reap_subset (children : Children Kind) (pid : Int) :
    (children.reap pid).pids ⊆ children.pids := by
  intro p hp
  obtain ⟨c, hc, rfl⟩ := List.mem_map.1 hp
  exact List.mem_map_of_mem (List.mem_of_mem_filter hc)

/-- `sigchld_handler` reaps children, and returns or goes on. -/
theorem waiting_chld {pids : List Int} {pc : ChldPc} {rest : List Frame} (hw : Waiting pids s)
    (hframes : s.frames = .chld pc :: rest) (h : ChldStep s rest pc a s') : Waiting pids s' := by
  have hrest : ∀ f ∈ rest, f.isChld = true := by
    intro f hf
    exact hw.frames f (hframes ▸ List.mem_cons_of_mem _ hf)
  have hgo : ∀ pc' : ChldPc, ∀ f ∈ Frame.chld pc' :: rest, f.isChld = true := by
    intro pc' f hf
    rcases List.mem_cons.1 hf with rfl | hf
    · rfl
    · exact hrest f hf
  have hreap : ∀ pid, (s.children.reap pid).pids ⊆ pids := by
    intro pid
    exact List.Subset.trans (pids_reap_subset s.children pid) hw.pids
  cases h with
  | ret => exact ⟨hw.main, hw.status, hw.shutdown, hrest, hw.pids⟩
  | wait | waitM | waitW => exact ⟨hw.main, hw.status, hw.shutdown, hgo _, hreap _⟩
  | _ => exact ⟨hw.main, hw.status, hw.shutdown, hgo _, hw.pids⟩

theorem waiting_step {pids : List Int} (hw : Waiting pids s) (hsilent : Silent s a)
    (h : Step conf s a s') : Waiting pids s' := by
  cases h with
  | env h =>
    cases h with
    | @die c _ _ =>
      refine ⟨hw.main, hw.status, hw.shutdown, hw.frames, ?_⟩
      show (s.children.die c.pid).pids ⊆ pids
      rw [Children.pids_die]
      exact hw.pids
    | raise => exact ⟨hw.main, hw.status, hw.shutdown, hw.frames, hw.pids⟩
    | sigchld =>
      refine ⟨hw.main, hw.status, hw.shutdown, ?_, hw.pids⟩
      intro f hf
      rcases List.mem_cons.1 hf with rfl | hf
      · rfl
      · exact hw.frames f hf
    | sigterm => exact hsilent.elim
    | notify => exact hsilent.elim
  | main hframes h =>
    have hmain := hw.main
    cases h with
    | wait =>
      refine ⟨?_, hw.status, hw.shutdown, hw.frames, hw.pids⟩
      exact if_pos ⟨hw.status, hw.shutdown⟩
    | _ => simp_all
  | chld hframes h => exact waiting_chld hw hframes h
  | @term pc _ hframes h =>
    have hterm := hw.frames (.term pc) (hframes ▸ List.mem_cons_self)
    cases hterm

/-- **Nothing else ends the wait**, and nothing is forked meanwhile. -/
theorem silent_master (hmain : s.main = .wait) (hstatus : s.status = 1)
    (hshutdown : s.shutdown = false) (hframes : ∀ f ∈ s.frames, f.isChld = true)
    (hrun : ((lts conf).restrict Silent).Run s s') :
    s'.main = .wait ∧ s'.children.pids ⊆ s.children.pids := by
  have hw : Waiting s.children.pids s' := by
    refine LTS.Run.invariant ⟨hmain, hstatus, hshutdown, hframes, List.Subset.refl _⟩ ?_ hrun
    intro t a u _ ht ha
    exact waiting_step ht ha.1 ha.2
  exact ⟨hw.main, hw.pids⟩

/-- The master has been killed before it has notified. -/
def sampleKilled : DaemonState :=
  { sampleWaiting with children := [⟨100, .master, false⟩], pending := true }

theorem silent_master_sample :
    ((lts ⟨true, false⟩).restrict Silent).Run sampleWaiting sampleKilled ∧
      sampleKilled.main = .wait := by
  have hstep : (lts ⟨true, false⟩).step sampleWaiting (.die 100) sampleKilled :=
    .env (.die (c := ⟨100, .master, true⟩) List.mem_cons_self rfl)
  have hdie : ((lts ⟨true, false⟩).restrict Silent).Run sampleWaiting sampleKilled :=
    .step (a := .die 100) .refl ⟨trivial, hstep⟩
  have hframes : ∀ f ∈ sampleWaiting.frames, f.isChld = true := by
    intro f hf
    cases hf
  exact ⟨hdie, (silent_master rfl rfl rfl hframes hdie).1⟩

/-! ## After `SIGTERM` -/

/-- How many masters and workers the step forks. -/
def forks (s : DaemonState) (a : Act) (_ : DaemonState) (n : Nat) : Nat :=
  match a with
  | .fork _ => if s.main = .forkM ∨ s.main = .forkW then n + 1 else n
  | _ => n

/-- How many of them can still be forked when `shutdown` is set. -/
def forksLeft : MainPc → Nat
  | .top | .setStatus | .clearMp | .forkM | .readWp | .test | .clearWp | .forkW => 1
  | _ => 0

theorem forks_step {n : Nat} (hs : s.shutdown = true) (h : Step conf s a s') :
    forks s a s' n + forksLeft s'.main ≤ n + forksLeft s.main := by
  cases h with
  | env h => cases h <;> exact Nat.le_refl _
  | chld _ h => cases h <;> exact Nat.le_refl _
  | term _ h => cases h <;> exact Nat.le_refl _
  | main _ h =>
    cases h with
    | checkShutdown hm => simp [forks, forksLeft, hm, hs]
    | loopTest hm => simp [forks, forksLeft, hm, hs]
    | top hm | testM hm | wait hm | test hm | testForked hm | checked hm | killTest hm | spin hm
    | finish hm =>
      rw [hm]
      dsimp only [forks]
      split_ifs <;> simp [forksLeft]
    | _ => simp_all [forks, forksLeft]

/-- **At most one more process.** -/
theorem one_fork_after_shutdown {n : Nat} (hs : s.shutdown = true)
    (hrun : ((lts conf).monitor 0 forks).Run (s, 0) (s', n)) : n ≤ 1 := by
  have hinv : s'.shutdown = true ∧ n + forksLeft s'.main ≤ forksLeft s.main := by
    refine LTS.Run.monitor_invariant
      (I := fun t m => t.shutdown = true ∧ m + forksLeft t.main ≤ forksLeft s.main)
      ⟨hs, Nat.le_of_eq (Nat.zero_add _)⟩ ?_ hrun
    intro t a u m ht ha
    exact ⟨Step.shutdown_mono ha ht.1, Nat.le_trans (forks_step ht.1 ha) ht.2⟩
  have hle : forksLeft s.main ≤ 1 := by
    unfold forksLeft
    split <;> decide
  omega

/-- The signal has come in just before the worker is forked. -/
theorem one_fork_after_shutdown_sample :
    ∃ s' n, ((lts ⟨true, false⟩).monitor 0 forks).Run ({ sampleNotified with shutdown := true }, 0)
      (s', n) ∧ n = 1 ∧ n ≤ 1 := by
  have hrun : ((lts ⟨true, false⟩).monitor 0 forks).Run
      ({ sampleNotified with shutdown := true }, 0)
      ({ sampleNotified with
          shutdown := true
          children := ⟨200, .worker, true⟩ :: sampleNotified.children
          main := .storeWp 200 }, 1) :=
    .step (a := .fork 200) .refl ⟨.main rfl (.forkW rfl (by decide)), rfl⟩
  exact ⟨_, _, hrun, rfl, one_fork_after_shutdown rfl hrun⟩

end DevTools.Daemon.DaemonState
