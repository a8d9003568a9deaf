import DevTools.Daemon.OneWorker

/-!
# The pids that the daemon kills

`kill` of the pid 0 goes to the daemon's own process group, and of -1 to every process.
`shm->wp.pid`, `shm->mp.pid`, `mpid` and `wpid` are 0 or -1 when there is no process.

**Theorem (`kills_positive`).** In every run of harmless steps each `kill` has a positive pid. A
step is not harmless in two cases: a handler goes on to a `kill` although no worker is recorded (the
master was reaped, or the exit timeout is over), and a pid is reset while a `kill` that was tested
for it is still to come.

So a master that dies before a worker was forked takes the daemon with it (`not_kills_positive`):
the local `pid` of `sigchld_handler` is then -1, and so is `mpid`.
-/

namespace DevTools.Daemon

/-- The `kill` calls of `sigterm_handler`. -/
def TermPc.Kills : TermPc → Prop
  | .killTimeout | .killWp => True
  | .enter | .timeout | .setShutdown | .testWp => False

namespace DaemonState

variable {conf : Conf} {s s' : DaemonState} {a : Act} {rest : List Frame} {pc : ChldPc}
  {tpc : TermPc}

/-- The pid in the `kill` that is the next instruction. -/
def nextKill (s : DaemonState) : Option Int :=
  match s.frames with
  | .chld .killM :: _ => some s.mpid
  | .chld .killW :: _ => some s.wpid
  | .term .killTimeout :: _ | .term .killWp :: _ => some s.wp
  | [] => match s.main with
    | .kill => some s.wpid
    | .finishKill => some s.mp
    | _ => none
  | _ => none

/-- The step does not go on to a `kill` without a process, and resets no pid that a `kill` is about
to use. -/
def Harmless (s : DaemonState) (a : Act) : Prop :=
  match s.frames with
  | .chld (.reaped pid) :: _ => a = .next → pid = s.mpid → 0 < s.wp
  | .chld (.clearMp _) :: _ => a = .next → s.main ≠ .finishKill
  | .chld (.readWp _) :: _ => a = .next → s.main = .kill → 0 < s.wp
  | .chld .clearWp :: rest => a = .next → ∀ pc, .term pc ∈ rest → ¬ pc.Kills
  | .chld .clearWpid :: _ => a = .next → s.main ≠ .kill
  | .term .timeout :: _ => a = .choose true → 0 < s.wp
  | _ => True

/-! ## The invariant -/

/-- What holds at each point of `sigchld_handler`. -/
def ChldSafe (s : DaemonState) : ChldPc → Prop
  | .killM | .waitM | .clearMp _ | .clearMpid _ => 0 < s.wp
  | .readWp pid => pid = s.wp ∨ pid = s.mpid → 0 < s.wp
  | .test pid => pid = s.wpid ∨ pid = s.mpid → 0 < s.wpid
  | .killW => 0 < s.wpid
  | .loop | .reaped _ | .waitW | .clearWp | .clearWpid => True

structure KillOk (s : DaemonState) : Prop where
  kill : s.main = .kill → 0 < s.wpid
  finish : s.main = .finishKill → 0 < s.mp
  term : ∀ pc, .term pc ∈ s.frames → pc.Kills → 0 < s.wp
  chld : ∀ pc, .chld pc ∈ s.frames → ChldSafe s pc

theorem killOk_new : KillOk new := ⟨nofun, nofun, nofun, nofun⟩

theorem killOk_env (h : KillOk s) (ha : EnvStep s a s') : KillOk s' := by
  cases ha with
  | die | raise | notify => exact ⟨h.kill, h.finish, h.term, h.chld⟩
  | sigchld =>
    refine ⟨h.kill, h.finish, ?_, ?_⟩
    · intro pc hpc
      rcases List.mem_cons.mp hpc with heq | hpc
      · cases heq
      · exact h.term pc hpc
    · intro pc hpc
      rcases List.mem_cons.mp hpc with heq | hpc
      · cases heq
        trivial
      · exact h.chld pc hpc
  | sigterm =>
    refine ⟨h.kill, h.finish, ?_, ?_⟩
    · intro pc hpc hkills
      rcases List.mem_cons.mp hpc with heq | hpc
      · cases heq
        cases hkills
      · exact h.term pc hpc hkills
    · intro pc hpc
      rcases List.mem_cons.mp hpc with heq | hpc
      · cases heq
      · exact h.chld pc hpc

/-! ## The main loop -/

/-- Main goes on to an instruction at which what it needs holds. -/
theorem killOk_goto (hframes : s'.frames = []) (hkill : s'.main = .kill → 0 < s'.wpid)
    (hfinish : s'.main = .finishKill → 0 < s'.mp) : KillOk s' := by
  refine ⟨hkill, hfinish, ?_, ?_⟩
  · rw [hframes]
    nofun
  · rw [hframes]
    nofun

theorem ite_ne {p : Prop} [Decidable p] {mpc mpc' target : MainPc} {P : Prop}
    (h : mpc ≠ target) (h' : mpc' ≠ target) (heq : (if p then mpc else mpc') = target) : P := by
  split_ifs at heq
  · exact absurd heq h
  · exact absurd heq h'

theorem killOk_main (hframes : s.frames = []) (ha : MainStep conf s a s') : KillOk s' := by
  cases ha with
  | setStatus | clearMp | forkM | forkMFails | storeMp | assignM | readWp | clearWp | forkW
  | forkWFails | storeWp | assignW | rereadWp | noChecks | popen | popenFails | pclose | pcloseNone
  | kill | finishKill => exact killOk_goto hframes nofun nofun
  | testM | wait | checkShutdown | test | testForked | checked | spin | loopTest =>
    exact killOk_goto hframes (ite_ne nofun nofun) (ite_ne nofun nofun)
  | top =>
    refine killOk_goto hframes ?_ ?_
    · exact ite_ne (by split_ifs <;> nofun) nofun
    · exact ite_ne (by split_ifs <;> nofun) nofun
  | killTest =>
    refine killOk_goto hframes ?_ (ite_ne nofun nofun)
    intro heq
    by_contra hle
    simp only [if_neg hle, reduceCtorEq] at heq
  | finish =>
    refine killOk_goto hframes (ite_ne nofun nofun) ?_
    intro heq
    by_contra hle
    simp only [if_neg hle, reduceCtorEq] at heq

/-! ## `sigterm_handler` -/

theorem killOk_term (h : KillOk s) (hharmless : Harmless s a)
    (hframes : s.frames = .term tpc :: rest) (ha : TermStep s rest tpc a s') : KillOk s' := by
  have hterm : ∀ pc, .term pc ∈ rest → pc.Kills → 0 < s.wp :=
    fun pc hpc => h.term pc (hframes ▸ List.mem_cons_of_mem _ hpc)
  have hchld : ∀ pc, .chld pc ∈ rest → ChldSafe s pc :=
    fun pc hpc => h.chld pc (hframes ▸ List.mem_cons_of_mem _ hpc)
  -- the handler goes on, and has written nothing that the invariant is about
  have hgoto : ∀ {t : DaemonState} {tpc' : TermPc}, t.main = s.main → t.wp = s.wp → t.mp = s.mp →
      t.wpid = s.wpid → t.mpid = s.mpid → t.frames = .term tpc' :: rest → (tpc'.Kills → 0 < s.wp) →
      KillOk t := by
    intro t tpc' hmain hwp hmp hwpid hmpid hfr hkills
    refine ⟨?_, ?_, ?_, ?_⟩
    · rw [hmain, hwpid]
      exact h.kill
    · rw [hmain, hmp]
      exact h.finish
    · intro pc hpc hk
      rw [hfr] at hpc
      rw [hwp]
      rcases List.mem_cons.mp hpc with heq | hpc
      · cases heq
        exact hkills hk
      · exact hterm pc hpc hk
    · intro pc hpc
      rw [hfr] at hpc
      rcases List.mem_cons.mp hpc with heq | hpc
      · cases heq
      · have hok := hchld pc hpc
        cases pc with
        | killM | waitM | clearMp | clearMpid | readWp | test | killW =>
          simp only [ChldSafe, hwp, hwpid, hmpid] at hok ⊢
          exact hok
        | _ => trivial
  cases ha with
  | first => exact hgoto rfl rfl rfl rfl rfl rfl nofun
  | later =>
    refine hgoto rfl rfl rfl rfl rfl rfl ?_
    split_ifs
    · nofun
    · nofun
  | timeout =>
    have hpos : 0 < s.wp := by
      rw [Harmless, hframes] at hharmless
      exact hharmless rfl
    exact hgoto rfl rfl rfl rfl rfl rfl fun _ => hpos
  | inTime | setShutdown => exact hgoto rfl rfl rfl rfl rfl rfl nofun
  | testWp hpos => exact hgoto rfl rfl rfl rfl rfl rfl fun _ => hpos
  | killTimeout | testWpNone | killWp => exact ⟨h.kill, h.finish, hterm, hchld⟩

/-! ## `sigchld_handler` -/

/-- The handler goes on. -/
theorem KillOk.handler {pc' : ChldPc} (hinv : Inv s) (hframes : s.frames = .chld pc :: rest)
    (hkill : s'.main = .kill → 0 < s'.wpid) (hfinish : s'.main = .finishKill → 0 < s'.mp)
    (hterm : ∀ pc, .term pc ∈ rest → pc.Kills → 0 < s'.wp)
    (hframes' : s'.frames = .chld pc' :: rest) (hsafe : ChldSafe s' pc') : KillOk s' := by
  refine ⟨hkill, hfinish, ?_, ?_⟩
  · intro tpc htpc
    rw [hframes'] at htpc
    rcases List.mem_cons.mp htpc with heq | htpc
    · cases heq
    · exact hterm tpc htpc
  · intro pc'' hpc''
    rw [hframes'] at hpc''
    rcases List.mem_cons.mp hpc'' with heq | hpc''
    · cases heq
      exact hsafe
    · exact absurd hpc'' (not_mem_of_countP (hinv.no_chld hframes))

theorem killOk_chld (hinv : Inv s) (h : KillOk s) (hharmless : Harmless s a)
    (hframes : s.frames = .chld pc :: rest) (ha : ChldStep s rest pc a s') : KillOk s' := by
  have hmem : .chld pc ∈ s.frames := hframes ▸ List.mem_cons_self
  have hok := hinv.chld pc hmem
  have hsafe := h.chld pc hmem
  have hterm : ∀ pc, .term pc ∈ rest → pc.Kills → 0 < s.wp :=
    fun pc hpc => h.term pc (hframes ▸ List.mem_cons_of_mem _ hpc)
  rw [Harmless, hframes] at hharmless
  cases ha with
  | wait | waitW | waitWNone | killW =>
    exact .handler hinv hframes h.kill h.finish hterm rfl trivial
  | ret =>
    refine ⟨h.kill, h.finish, hterm, ?_⟩
    intro pc hpc
    exact absurd hpc (not_mem_of_countP (hinv.no_chld hframes))
  | @reaped pid =>
    refine .handler hinv hframes h.kill h.finish hterm rfl ?_
    show ChldSafe _ (if pid = s.mpid then _ else _)
    split_ifs with hmaster
    · exact hharmless rfl hmaster
    · intro hpid
      rcases hpid with hpid | hpid
      · exact hpid ▸ hok.1
      · exact absurd hpid hmaster
  | killM | waitM | waitMNone => exact .handler hinv hframes h.kill h.finish hterm rfl hsafe
  | clearMp =>
    refine .handler hinv hframes h.kill ?_ hterm rfl hsafe
    intro hmain
    exact absurd hmain (hharmless rfl)
  | clearMpid => exact .handler hinv hframes h.kill h.finish hterm rfl fun _ => hsafe
  | readWp =>
    exact .handler hinv hframes (hharmless rfl) h.finish hterm rfl hsafe
  | @test pid =>
    refine .handler hinv hframes h.kill h.finish hterm rfl ?_
    show ChldSafe _ (if pid = s.wpid ∨ pid = s.mpid then _ else _)
    split_ifs with hreset
    · exact hsafe hreset
    · trivial
  | clearWp =>
    refine .handler hinv hframes h.kill h.finish ?_ rfl trivial
    intro tpc htpc hkills
    exact absurd hkills (hharmless rfl tpc htpc)
  | clearWpid =>
    refine .handler hinv hframes ?_ h.finish hterm rfl trivial
    intro hmain
    exact absurd hmain (hharmless rfl)

/-! ## Positive pids -/

theorem killOk_reach (h : ((lts conf).restrict Harmless).Reach s) : Inv s ∧ KillOk s := by
  refine LTS.Reach.invariant (T := (lts conf).restrict Harmless)
    (I := fun s => Inv s ∧ KillOk s) ?_ ?_ h
  · intro s hs
    obtain rfl : s = new := hs
    exact ⟨inv_new, killOk_new⟩
  · intro s a s' hs ha
    obtain ⟨hinv, hkill⟩ := hs
    obtain ⟨hharmless, hstep⟩ := ha
    refine ⟨inv_step hinv hstep, ?_⟩
    cases hstep with
    | env ha => exact killOk_env hkill ha
    | main hframes ha => exact killOk_main hframes ha
    | chld hframes ha => exact killOk_chld hinv hkill hharmless hframes ha
    | term hframes ha => exact killOk_term hkill hharmless hframes ha

/-- **No process group is signalled.** -/
theorem kills_positive (h : ((lts conf).restrict Harmless).Reach s) :
    ∀ pid, s.nextKill = some pid → 0 < pid := by
  obtain ⟨hinv, hkill⟩ := killOk_reach h
  intro pid hpid
  unfold nextKill at hpid
  split at hpid
  · rename_i hframes
    cases hpid
    exact (hinv.chld .killM (hframes ▸ List.mem_cons_self)).1
  · rename_i hframes
    cases hpid
    exact hkill.chld .killW (hframes ▸ List.mem_cons_self)
  · rename_i hframes
    cases hpid
    exact hkill.term .killTimeout (hframes ▸ List.mem_cons_self) trivial
  · rename_i hframes
    cases hpid
    exact hkill.term .killWp (hframes ▸ List.mem_cons_self) trivial
  · split at hpid
    · rename_i hmain
      cases hpid
      exact hkill.kill hmain
    · rename_i hmain
      cases hpid
      exact hkill.finish hmain
    · cases hpid
  · cases hpid

/-! ## A master without a worker -/

/-- The master is there, and its pid is stored. -/
def sampleMaster (children : Children Kind) : DaemonState :=
  { new with children, mp := 50, status := 1, mpid := 50, main := .testM }

theorem sampleMaster_reach {ok : DaemonState → Act → Prop} (hok : ∀ s a, s.frames = [] → ok s a) :
    ((lts ⟨true, false⟩).restrict ok).Reach (sampleMaster [⟨50, .master, true⟩]) := by
  have h0 : ((lts ⟨true, false⟩).restrict ok).Reach new := .init rfl
  have h1 := h0.step ⟨hok _ _ rfl, Step.main rfl (.top rfl)⟩
  have h2 := h1.step ⟨hok _ _ rfl, Step.main rfl (.setStatus rfl)⟩
  have h3 := h2.step ⟨hok _ _ rfl, Step.main rfl (.clearMp rfl)⟩
  have hfresh : Children.Fresh ([] : Children Kind) 50 := by decide
  have h4 := h3.step ⟨hok _ _ rfl, Step.main rfl (.forkM rfl hfresh)⟩
  have h5 := h4.step ⟨hok _ _ rfl, Step.main rfl (.storeMp rfl)⟩
  exact h5.step ⟨hok _ _ rfl, Step.main rfl (.assignM rfl)⟩

/-- The master dies first, and `sigchld_handler` kills the process group. -/
theorem not_kills_positive :
    ∃ s, (lts ⟨true, false⟩).Reach s ∧ s.nextKill = some 0 := by
  have h0 : ((lts ⟨true, false⟩).restrict fun _ _ => True).Reach
      (sampleMaster [⟨50, .master, true⟩]) := sampleMaster_reach fun _ _ _ => trivial
  have hzombie : Children.Zombie [⟨50, Kind.master, false⟩] 50 := by decide
  have h1 := h0.step ⟨trivial, Step.env (.die List.mem_cons_self rfl)⟩
  have h2 := h1.step ⟨trivial, Step.env (.sigchld rfl rfl)⟩
  have h3 := h2.step ⟨trivial, Step.chld rfl (.wait hzombie)⟩
  have h4 := h3.step ⟨trivial, Step.chld rfl .reaped⟩
  have h5 := h4.step ⟨trivial, Step.chld rfl .killM⟩
  have h6 := h5.step ⟨trivial, Step.chld rfl (.waitMNone nofun)⟩
  have h7 := h6.step ⟨trivial, Step.chld rfl .clearMp⟩
  have h8 := h7.step ⟨trivial, Step.chld rfl .clearMpid⟩
  have h9 := h8.step ⟨trivial, Step.chld rfl .readWp⟩
  have h10 := h9.step ⟨trivial, Step.chld rfl .test⟩
  exact ⟨_, h10.of_restrict, rfl⟩

/-- The daemon is told to stop, and kills its master. -/
theorem kills_positive_sample :
    ∃ s, ((lts ⟨true, false⟩).restrict Harmless).Reach s ∧ s.nextKill = some 50 ∧
      (0 : Int) < 50 := by
  have hok : ∀ s a, s.frames = [] → Harmless s a := by
    intro s a hframes
    rw [Harmless, hframes]
    trivial
  have h1 := (sampleMaster_reach hok).step ⟨hok _ _ rfl, Step.env (.sigterm rfl)⟩
  have h2 := h1.step ⟨trivial, Step.term rfl (.first rfl)⟩
  have h3 := h2.step ⟨trivial, Step.term rfl .setShutdown⟩
  have h4 := h3.step ⟨trivial, Step.term rfl (.testWpNone (by decide))⟩
  have h5 := h4.step ⟨hok _ _ rfl, Step.main rfl (.testM rfl)⟩
  have h6 := h5.step ⟨hok _ _ rfl, Step.main rfl (.wait rfl)⟩
  have h7 := h6.step ⟨hok _ _ rfl, Step.main rfl (.checkShutdown rfl)⟩
  have h8 := h7.step ⟨hok _ _ rfl, Step.main rfl (.finish rfl)⟩
  exact ⟨_, h8, rfl, kills_positive h8 50 rfl⟩

end DaemonState

end DevTools.Daemon
