import DevTools.Daemon.OneWorker

/-!
# Restarting a dead worker

`sigchld_handler` compares the pid that it has reaped with `shm->wp.pid`. Between `fork` and the
store in `forkWork` that is still 0, so a worker that dies and is reaped there is not noticed, and
its pid is stored afterwards for good (`not_recorded`).

**Theorem (`recorded_or_restarted`).** In every run in which no worker is reaped between `fork` and
the store, a pid that the restart test finds in `shm->wp.pid` is the one of a child that has not
been reaped, and a worker that has died and has been taken care of by `sigchld_handler` is replaced
in the next pass of the loop.

The invariant is that the worker in `shm->wp.pid` is a child, unless `sigchld_handler` has reaped it
and is on its way to clear `shm->wp.pid` (`Resets`).
-/

namespace DevTools.Daemon

namespace DaemonState

variable {conf : Conf} {s s' : DaemonState} {a : Act} {rest : List Frame} {pc : ChldPc}

/-- The step does not reap the worker that `forkWork` has just forked. -/
def Unreaped (s : DaemonState) (a : Act) : Prop := ∀ pid, a = .reap pid → s.main ≠ .storeWp pid

/-- From here `sigchld_handler` comes to `shm->wp.pid=0`. -/
def Resets (s : DaemonState) : ChldPc → Prop
  | .reaped pid | .readWp pid | .test pid => pid = s.wp ∨ pid = s.mpid
  | .killM | .waitM | .clearMp _ | .clearMpid _ | .killW | .waitW | .clearWp => True
  | .loop | .clearWpid => False

/-- The pid is the one of a worker that has not been reaped. -/
def IsWorker (s : DaemonState) (pid : Int) : Prop :=
  ∃ c ∈ s.children, c.pid = pid ∧ c.kind = .worker

structure Recorded (s : DaemonState) : Prop where
  recorded : 0 < s.wp → s.IsWorker s.wp ∨ ∃ pc, .chld pc ∈ s.frames ∧ Resets s pc
  window : ∀ pid, s.main = .storeWp pid → s.IsWorker pid
  zombies : s.frames.countP Frame.isChld = 0 → s.pending = false → ∀ c ∈ s.children, c.alive

theorem recorded_new : Recorded new where
  recorded h := absurd h (by decide)
  window := nofun
  zombies := nofun

theorem IsWorker.of_subset {pid : Int} (h : s.IsWorker pid)
    (hsub : ∀ c ∈ s.children, c ∈ s'.children) : s'.IsWorker pid := by
  obtain ⟨c, hc, hpid⟩ := h
  exact ⟨c, hsub c hc, hpid⟩

/-- Reaping another child. -/
theorem IsWorker.reap {pid pid' : Int} (h : s.IsWorker pid) (hne : pid ≠ pid')
    (hs' : s'.children = s.children.reap pid') : s'.IsWorker pid := by
  obtain ⟨c, hc, hpid, hkind⟩ := h
  refine ⟨c, ?_, hpid, hkind⟩
  rw [hs', Children.mem_reap, hpid]
  exact ⟨hc, hne⟩

/-- The worker in `forkWork` is not the one that is reaped. -/
theorem IsWorker.reap_of_unreaped {pid pid' : Int} (h : s.IsWorker pid)
    (hmain : s.main = .storeWp pid) (hsafe : Unreaped s (.reap pid'))
    (hs' : s'.children = s.children.reap pid') : s'.IsWorker pid := by
  refine h.reap ?_ hs'
  rintro rfl
  exact hsafe pid rfl hmain

/-- A handler that is interrupted still comes to the reset. -/
theorem resets_cons {frame : Frame} (h : ∃ pc, .chld pc ∈ rest ∧ Resets s pc) :
    ∃ pc, .chld pc ∈ frame :: rest ∧ Resets s pc := by
  obtain ⟨pc, hpc, hresets⟩ := h
  exact ⟨pc, List.mem_cons_of_mem frame hpc, hresets⟩

/-! ## The environment and `sigterm_handler` -/

theorem recorded_env (h : Recorded s) (ha : EnvStep s a s') : Recorded s' := by
  cases ha with
  | die =>
    have hkeep : ∀ {pid p : Int}, s.IsWorker pid →
        IsWorker { s with children := s.children.die p, pending := true } pid := by
      intro pid p hworker
      obtain ⟨c, hc, hpid, hkind⟩ := hworker
      obtain ⟨c', hc', hsame, hkind'⟩ := Children.exists_mem_die hc
      exact ⟨c', hc', hsame.trans hpid, hkind'.trans hkind⟩
    exact ⟨fun hpos => (h.recorded hpos).imp_left hkeep, fun pid hpid => hkeep (h.window pid hpid),
      fun _ => nofun⟩
  | raise => exact ⟨h.recorded, h.window, fun _ => nofun⟩
  | sigchld =>
    refine ⟨fun hpos => (h.recorded hpos).imp_right resets_cons, h.window, fun hnone => ?_⟩
    rw [List.countP_cons_of_pos rfl] at hnone
    cases hnone
  | sigterm =>
    refine ⟨fun hpos => (h.recorded hpos).imp_right resets_cons, h.window, fun hnone => ?_⟩
    rw [List.countP_cons_of_neg (by simp [Frame.isChld])] at hnone
    exact h.zombies hnone
  | notify => exact ⟨h.recorded, h.window, h.zombies⟩

theorem recorded_term {pc : TermPc} (h : Recorded s) (hframes : s.frames = .term pc :: rest)
    (ha : TermStep s rest pc a s') : Recorded s' := by
  have hsame : s.frames.countP Frame.isChld = rest.countP Frame.isChld := by
    rw [hframes, List.countP_cons_of_neg (by simp [Frame.isChld])]
  have hrest : 0 < s.wp → s.IsWorker s.wp ∨ ∃ pc, .chld pc ∈ rest ∧ Resets s pc := by
    intro hpos
    refine (h.recorded hpos).imp_right ?_
    intro hw
    rcases hw with ⟨pc, hpc, hresets⟩
    rw [hframes] at hpc
    rcases List.mem_cons.mp hpc with heq | hpc
    · cases heq
    · exact ⟨pc, hpc, hresets⟩
  cases ha with
  | first | later | timeout | inTime | setShutdown | testWp =>
    refine ⟨fun hpos => (hrest hpos).imp_right resets_cons, h.window, fun hnone => h.zombies ?_⟩
    rw [List.countP_cons_of_neg (by simp [Frame.isChld])] at hnone
    rwa [hsame]
  | killTimeout | testWpNone | killWp =>
    exact ⟨hrest, h.window, fun hnone => h.zombies (hsame.trans hnone)⟩

/-! ## The main loop -/

theorem Recorded.isWorker (h : Recorded s) (hframes : s.frames = []) (hpos : 0 < s.wp) :
    s.IsWorker s.wp := by
  refine (h.recorded hpos).resolve_right ?_
  intro hw
  rcases hw with ⟨pc, hpc, -⟩
  rw [hframes] at hpc
  cases hpc

/-- Main goes on, and neither the children nor `shm->wp.pid` change. -/
theorem Recorded.goto (h : Recorded s) (hmain : ∀ p, s'.main ≠ .storeWp p)
    (hchildren : s'.children = s.children) (hwp : s'.wp = s.wp) (hframes : s'.frames = s.frames)
    (hempty : s.frames = []) (hpending : s'.pending = s.pending) : Recorded s' where
  recorded hpos := by
    rw [hwp] at hpos ⊢
    exact .inl ((h.isWorker hempty hpos).of_subset fun c hc => hchildren ▸ hc)
  window pid hpid := absurd hpid (hmain pid)
  zombies hnone hp := by
    rw [hframes] at hnone
    rw [hpending] at hp
    rw [hchildren]
    exact h.zombies hnone hp

/-- Main forks a child. -/
theorem Recorded.fork {pid : Int} {kind : Kind} (h : Recorded s) (hempty : s.frames = [])
    (hchildren : s'.children = ⟨pid, kind, true⟩ :: s.children) (hwp : s'.wp = s.wp)
    (hframes : s'.frames = s.frames) (hpending : s'.pending = s.pending)
    (hwindow : ∀ p, s'.main = .storeWp p → s'.IsWorker p) : Recorded s' where
  recorded hpos := by
    rw [hwp] at hpos ⊢
    refine .inl ((h.isWorker hempty hpos).of_subset fun c hc => ?_)
    rw [hchildren]
    exact List.mem_cons_of_mem _ hc
  window := hwindow
  zombies hnone hp c hc := by
    rw [hframes] at hnone
    rw [hpending] at hp
    rw [hchildren] at hc
    rcases List.mem_cons.mp hc with rfl | hc
    · rfl
    · exact h.zombies hnone hp c hc

theorem ite_ne_storeWp {p : Prop} [Decidable p] {mpc mpc' : MainPc}
    (h : ∀ q, mpc ≠ .storeWp q) (h' : ∀ q, mpc' ≠ .storeWp q) :
    ∀ q, (if p then mpc else mpc') ≠ .storeWp q := by
  split_ifs
  · exact h
  · exact h'

theorem recorded_main (hinv : Inv s) (h : Recorded s) (hframes : s.frames = [])
    (ha : MainStep conf s a s') : Recorded s' := by
  cases ha with
  | setStatus | clearMp | forkMFails | storeMp | assignM | forkWFails | assignW | rereadWp | kill
  | finishKill | noChecks | popenFails | pcloseNone | readWp =>
    exact h.goto nofun rfl rfl rfl hframes rfl
  | testM | wait | checkShutdown | testForked | checked | killTest | spin | loopTest | test
  | finish =>
    exact h.goto (ite_ne_storeWp nofun nofun) rfl rfl rfl hframes rfl
  | top =>
    exact h.goto (ite_ne_storeWp (ite_ne_storeWp nofun nofun) nofun) rfl rfl rfl hframes rfl
  | clearWp => exact ⟨fun hpos => absurd hpos (Int.lt_irrefl 0), nofun, h.zombies⟩
  | forkM => exact h.fork hframes rfl rfl rfl rfl nofun
  | popen => exact h.fork hframes rfl rfl rfl rfl nofun
  | forkW =>
    refine h.fork hframes rfl rfl rfl rfl fun p hp => ?_
    cases hp
    exact ⟨_, List.mem_cons_self, rfl, rfl⟩
  | storeWp hpc => exact ⟨fun _ => .inl (h.window _ hpc), nofun, h.zombies⟩
  | @pclose pid hpc =>
    refine ⟨fun hpos => .inl ?_, nofun, fun hnone hp c hc => ?_⟩
    · -- the child of `popen` is not the worker
      have hworker := h.isWorker hframes hpos
      refine hworker.reap ?_ rfl
      intro hpid
      obtain ⟨c, hc, hcpid, hkind⟩ := hworker
      have hmain := hinv.main
      rw [hpc] at hmain
      rw [hmain c hc (hcpid.trans hpid)] at hkind
      cases hkind
    · exact h.zombies hnone hp c (Children.mem_reap.mp hc).1

/-! ## `sigchld_handler` -/

theorem Recorded.top (hinv : Inv s) (h : Recorded s) (hframes : s.frames = .chld pc :: rest)
    (hpos : 0 < s.wp) : s.IsWorker s.wp ∨ Resets s pc := by
  refine (h.recorded hpos).imp_right ?_
  intro hw
  rcases hw with ⟨pc', hpc', hresets⟩
  rw [hframes] at hpc'
  rcases List.mem_cons.mp hpc' with heq | hpc'
  · cases heq
    exact hresets
  · exact absurd hpc' (not_mem_of_countP (hinv.no_chld hframes))

/-- The handler goes on. -/
theorem Recorded.handler {pc' : ChldPc} (h : Recorded s) (hmain : s'.main = s.main)
    (hframes' : s'.frames = .chld pc' :: rest)
    (hwindow : ∀ pid, s.main = .storeWp pid → s.IsWorker pid → s'.IsWorker pid)
    (hrec : 0 < s'.wp → s'.IsWorker s'.wp ∨ Resets s' pc') : Recorded s' where
  recorded hpos := by
    refine (hrec hpos).imp_right fun hresets => ⟨pc', ?_, hresets⟩
    rw [hframes']
    exact List.mem_cons_self
  window pid hpid := by
    rw [hmain] at hpid
    exact hwindow pid hpid (h.window pid hpid)
  zombies hnone := by
    rw [hframes', List.countP_cons_of_pos rfl] at hnone
    cases hnone

theorem recorded_chld (hinv : Inv s) (h : Recorded s) (hsafe : Unreaped s a)
    (hframes : s.frames = .chld pc :: rest) (ha : ChldStep s rest pc a s') : Recorded s' := by
  have hok := hinv.chld pc (hframes ▸ List.mem_cons_self)
  have htop := h.top hinv hframes
  cases ha with
  | @wait pid _ =>
    refine h.handler rfl rfl (fun p hp hworker => hworker.reap_of_unreaped hp hsafe rfl) ?_
    intro hpos
    have hworker := (htop hpos).resolve_right id
    by_cases hpid : pid = s.wp
    · exact .inr (.inl hpid)
    · exact .inl (hworker.reap (Ne.symm hpid) rfl)
  | ret hnone =>
    refine ⟨fun hpos => .inl ((htop hpos).resolve_right id), h.window, fun _ _ c hc => ?_⟩
    by_contra hdead
    exact hnone c.pid ⟨c, hc, rfl, by simpa using hdead⟩
  | @reaped pid =>
    refine h.handler rfl rfl (fun _ _ => id) fun hpos => (htop hpos).imp_right fun hresets => ?_
    show Resets _ (if pid = s.mpid then _ else _)
    split_ifs
    · trivial
    · exact hresets
  | killM | waitMNone | clearMp | killW | waitWNone =>
    exact h.handler rfl rfl (fun _ _ => id) fun _ => .inr trivial
  | waitM | waitW =>
    exact h.handler rfl rfl (fun p hp hworker => hworker.reap_of_unreaped hp hsafe rfl)
      fun _ => .inr trivial
  | clearMpid => exact h.handler rfl rfl (fun _ _ => id) fun _ => .inr (.inr hok)
  | readWp => exact h.handler rfl rfl (fun _ _ => id) htop
  | @test pid =>
    have hsame : s.wpid = s.wp := hok
    refine h.handler rfl rfl (fun _ _ => id) fun hpos => ?_
    show _ ∨ Resets _ (if pid = s.wpid ∨ pid = s.mpid then _ else _)
    split_ifs with hreset
    · exact .inr trivial
    · rw [hsame] at hreset
      exact .inl ((htop hpos).resolve_right hreset)
  | clearWp => exact h.handler rfl rfl (fun _ _ => id) fun hpos => absurd hpos (Int.lt_irrefl 0)
  | clearWpid =>
    refine h.handler rfl rfl (fun _ _ => id) fun hpos => ?_
    have hzero : s.wp = 0 := hok
    have hpos : 0 < s.wp := hpos
    omega

theorem recorded_reach (h : ((lts conf).restrict Unreaped).Reach s) : Inv s ∧ Recorded s := by
  refine LTS.Reach.invariant (T := (lts conf).restrict Unreaped)
    (I := fun s => Inv s ∧ Recorded s) ?_ ?_ h
  · intro s hs
    obtain rfl : s = new := hs
    exact ⟨inv_new, recorded_new⟩
  · intro s a s' hs ha
    obtain ⟨hinv, hrec⟩ := hs
    obtain ⟨hsafe, hstep⟩ := ha
    refine ⟨inv_step hinv hstep, ?_⟩
    cases hstep with
    | env ha => exact recorded_env hrec ha
    | main hframes ha => exact recorded_main hinv hrec hframes ha
    | chld hframes ha => exact recorded_chld hinv hrec hsafe hframes ha
    | term hframes ha => exact recorded_term hrec hframes ha

/-! ## The restart test -/

/-- No worker is alive, and no signal is left to be handled. -/
theorem Recorded.wp_eq_zero (hinv : Inv s) (h : Recorded s) (hframes : s.frames = [])
    (hnone : s.workers = []) (hpending : s.pending = false) : s.wp = 0 := by
  by_contra hwp
  have hnonneg := hinv.wp_nonneg
  obtain ⟨c, hc, -, hkind⟩ := h.isWorker hframes (show 0 < s.wp by omega)
  have halive := h.zombies (by rw [hframes]; rfl) hpending c hc
  have hmem : c ∈ s.workers := List.mem_filter.mpr ⟨hc, by simp [hkind, halive]⟩
  rw [hnone] at hmem
  cases hmem

/-- Without a handler, the next instruction is one of the main loop. -/
theorem mainStep_of_next (hframes : s.frames = []) (h : Step conf s .next s') :
    MainStep conf s .next s' := by
  cases h with
  | env ha => cases ha
  | main _ ha => exact ha
  | chld hchld _ =>
    rw [hframes] at hchld
    cases hchld
  | term hterm _ =>
    rw [hframes] at hterm
    cases hterm

/-- With `shm->wp.pid` clear, the pass goes to `forkWork`. -/
theorem forks_of_clear {s₁ s₂ : DaemonState} (hframes : s.frames = []) (hmain : s.main = .readWp)
    (hwp : s.wp = 0) (h₁ : Step conf s .next s₁) (h₂ : Step conf s₁ .next s₂) :
    s₂.main = .clearWp := by
  have hs₁ : s₁ = { s with wpid := s.wp, main := .test } := by
    have hstep := mainStep_of_next hframes h₁
    cases hstep
    case readWp => rfl
    all_goals simp_all
  have hframes₁ : s₁.frames = [] := by
    rw [hs₁]
    exact hframes
  have hstep := mainStep_of_next hframes₁ h₂
  subst hs₁
  cases hstep
  case test => exact if_pos (Int.le_of_eq hwp)
  all_goals simp_all

/-- **A dead worker is not mistaken for a live one, and is replaced.** -/
theorem recorded_or_restarted (h : ((lts conf).restrict Unreaped).Reach s)
    (hframes : s.frames = []) :
    (s.main = .test → 0 < s.wp → s.wp ∈ s.children.pids) ∧
      (s.workers = [] → s.pending = false → s.wp = 0 ∧
        (s.main = .readWp → ∀ s₁ s₂, (lts conf).step s .next s₁ → (lts conf).step s₁ .next s₂ →
          s₂.main = .clearWp)) := by
  obtain ⟨hinv, hrec⟩ := recorded_reach h
  constructor
  · intro _ hpos
    obtain ⟨c, hc, hpid, -⟩ := hrec.isWorker hframes hpos
    exact hpid ▸ Children.mem_pids_of_mem hc
  · intro hnone hpending
    have hzero := hrec.wp_eq_zero hinv hframes hnone hpending
    exact ⟨hzero, fun hmain s₁ s₂ => forks_of_clear hframes hmain hzero⟩

/-! ## The second pass -/

/-- The worker dies before its pid is stored, and is reaped. -/
theorem sampleForked_reaped :
    ((lts ⟨false, false⟩).restrict fun _ _ => True).Reach (sampleForked [] 0 100) := by
  have hzombie : Children.Zombie [⟨100, Kind.worker, false⟩] 100 := by decide
  have h0 : ((lts ⟨false, false⟩).restrict fun _ _ => True).Reach
      (sampleForked [⟨100, .worker, true⟩] 0 100) :=
    sampleForked_reach (fun _ => trivial) fun _ _ => trivial
  have h1 := h0.step ⟨trivial, Step.env (.die List.mem_cons_self rfl)⟩
  have h2 := h1.step ⟨trivial, Step.env (.sigchld rfl rfl)⟩
  have h3 := h2.step ⟨trivial, Step.chld rfl (.wait hzombie)⟩
  have h4 := h3.step ⟨trivial, Step.chld rfl .reaped⟩
  have h5 := h4.step ⟨trivial, Step.chld rfl .readWp⟩
  have h6 := h5.step ⟨trivial, Step.chld rfl .test⟩
  exact h6.step ⟨trivial, Step.chld rfl (.ret nofun)⟩

/-- In the second pass, the test finds the pid of a worker that has long been reaped. -/
theorem not_recorded :
    ∃ s, (lts ⟨false, false⟩).Reach s ∧ s.frames = [] ∧ s.main = .test ∧ 0 < s.wp ∧
      s.wp ∉ s.children.pids :=
  ⟨samplePass [] 100,
    (samplePass_reach (fun _ => trivial) (by decide) sampleForked_reaped).of_restrict, rfl, rfl,
    by decide, by decide⟩

/-- The second worker, after the first one has died. -/
theorem recorded_or_restarted_sample :
    ((lts ⟨false, false⟩).restrict Unreaped).Reach (samplePass [⟨101, .worker, true⟩] 101) ∧
      (101 : Int) ∈ Children.pids [⟨101, Kind.worker, true⟩] := by
  have htest : ∀ s a, s.main = .test → Unreaped s a := by
    intro s a hmain pid _ hstore
    rw [hmain] at hstore
    cases hstore
  have hreach : ((lts ⟨false, false⟩).restrict Unreaped).Reach
      (samplePass [⟨101, .worker, true⟩] 101) :=
    samplePass_reach (fun _ _ => nofun) (by decide)
      (sampleReplaced_reach (fun _ _ => nofun) (fun _ _ _ => nofun) htest)
  exact ⟨hreach, (recorded_or_restarted hreach rfl).1 rfl (by decide)⟩

end DaemonState

end DevTools.Daemon
