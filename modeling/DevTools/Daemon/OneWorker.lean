import DevTools.Daemon.Supervisor

/-!
# The daemon's worker

**Theorem (`at_most_one_worker`).** However the main loop, the handlers and the deaths of children
interleave, at most one worker is alive.

The invariant says where a worker can be: it is the one in `shm->wp.pid`, or `forkWork` has just
forked it and is about to store its pid there. So `shm->wp.pid` may only be cleared when that worker
has been reaped (`ChldOk`), and a worker may only be forked when it is clear (`MainOk`).
-/

namespace DevTools.Daemon

namespace DaemonState

/-! ## The invariant -/

/-- What holds at each point of the main loop. -/
def MainOk (s : DaemonState) : MainPc → Prop
  | .test => s.wpid ≤ 0 → s.wp = 0
  | .clearWp | .forkW => s.wp = 0
  | .storeWp pid => s.wp = 0 ∧ 0 < pid
  | .pclose pid => ∀ c ∈ s.children, c.pid = pid → c.kind = .other
  | _ => True

/-- What holds at each point of `sigchld_handler`. -/
def ChldOk (s : DaemonState) : ChldPc → Prop
  | .reaped pid => 0 < pid ∧ ∀ c ∈ s.children, c.pid ≠ pid
  | .killM | .waitM => 0 < s.mpid ∧ ∀ c ∈ s.children, c.pid ≠ s.mpid
  | .clearMp pid | .clearMpid pid => pid = -1
  | .test _ | .killW | .waitW => s.wpid = s.wp
  | .clearWp => ∀ c ∈ s.children, c.pid ≠ s.wp
  | .clearWpid => s.wp = 0
  | .loop | .readWp _ => True

structure Inv (s : DaemonState) : Prop where
  table : s.children.Valid
  wp_nonneg : 0 ≤ s.wp
  worker : ∀ c ∈ s.children, c.kind = .worker → c.pid = s.wp ∨ s.main = .storeWp c.pid
  main : MainOk s s.main
  one : s.frames.countP Frame.isChld ≤ 1
  chld : ∀ pc, .chld pc ∈ s.frames → ChldOk s pc

variable {conf : Conf} {s s' : DaemonState} {a : Act} {rest : List Frame} {pc : ChldPc}
  {mpc mpc' : MainPc}

theorem inv_new : Inv new where
  table := ⟨nofun, List.nodup_nil⟩
  wp_nonneg := Int.le_refl 0
  worker := nofun
  main := trivial
  one := Nat.zero_le _
  chld := nofun

/-- No child has come, or has changed its pid or kind. -/
def Kept (s s' : DaemonState) : Prop :=
  ∀ c' ∈ s'.children, ∃ c ∈ s.children, c.pid = c'.pid ∧ c.kind = c'.kind

theorem kept_of_eq (h : s'.children = s.children) : Kept s s' := by
  intro c hc
  exact ⟨c, h ▸ hc, rfl, rfl⟩

theorem kept_of_reap {pid : Int} (h : s'.children = s.children.reap pid) : Kept s s' := by
  intro c hc
  rw [h] at hc
  exact ⟨c, (Children.mem_reap.mp hc).1, rfl, rfl⟩

theorem Kept.pid_ne {pid : Int} (hkept : Kept s s') (h : ∀ c ∈ s.children, c.pid ≠ pid) :
    ∀ c ∈ s'.children, c.pid ≠ pid := by
  intro c' hc'
  obtain ⟨c, hc, hpid, -⟩ := hkept c' hc'
  rw [← hpid]
  exact h c hc

theorem MainOk.change (h : MainOk s mpc) (hkept : Kept s s') (hwp : s.wp = 0 → s'.wp = 0)
    (htest : (s.wpid ≤ 0 → s.wp = 0) → s'.wpid ≤ 0 → s'.wp = 0) : MainOk s' mpc := by
  cases mpc with
  | test => exact htest h
  | clearWp | forkW => exact hwp h
  | storeWp => exact ⟨hwp h.1, h.2⟩
  | pclose pid =>
    intro c' hc' hpid
    obtain ⟨c, hc, hsame, hkind⟩ := hkept c' hc'
    rw [← hkind]
    exact h c hc (hsame.trans hpid)
  | _ => trivial

theorem mainOk_ite {p : Prop} [Decidable p] (h : MainOk s mpc) (h' : MainOk s mpc') :
    MainOk s (if p then mpc else mpc') := by
  split_ifs
  · exact h
  · exact h'

/-! ## The environment -/

theorem inv_die (h : Inv s) {pid : Int} :
    Inv { s with children := s.children.die pid, pending := true } := by
  have hkept : Kept s { s with children := s.children.die pid, pending := true } :=
    fun c' hc' => Children.mem_die hc'
  refine ⟨h.table.die, h.wp_nonneg, ?_, h.main.change hkept id id, h.one, ?_⟩
  · intro c' hc' hkind
    obtain ⟨c, hc, hpid, hsame⟩ := hkept c' hc'
    rw [← hpid]
    exact h.worker c hc (hsame.trans hkind)
  · intro pc hpc
    have hok := h.chld pc hpc
    cases pc with
    | reaped | killM | waitM => exact ⟨hok.1, hkept.pid_ne hok.2⟩
    | clearWp => exact hkept.pid_ne hok
    | _ => exact hok

theorem inv_env (h : Inv s) (ha : EnvStep s a s') : Inv s' := by
  cases ha with
  | die => exact inv_die h
  | raise => exact ⟨h.table, h.wp_nonneg, h.worker, h.main, h.one, h.chld⟩
  | sigchld _ hnone =>
    refine ⟨h.table, h.wp_nonneg, h.worker, h.main, ?_, ?_⟩
    · rw [List.countP_cons, hnone]
      exact Nat.le_refl 1
    · intro pc hpc
      rcases List.mem_cons.mp hpc with heq | hpc
      · cases heq
        trivial
      · exact h.chld pc hpc
  | sigterm =>
    refine ⟨h.table, h.wp_nonneg, h.worker, h.main, ?_, ?_⟩
    · simpa [Frame.isChld] using h.one
    · intro pc hpc
      rcases List.mem_cons.mp hpc with heq | hpc
      · cases heq
      · exact h.chld pc hpc
  | notify => exact ⟨h.table, h.wp_nonneg, h.worker, h.main, h.one, h.chld⟩

/-! ## The main loop -/

/-- The worker outside of `forkWork`. -/
theorem Inv.worker_eq (h : Inv s) (hmain : ∀ p, s.main ≠ .storeWp p) :
    ∀ c ∈ s.children, c.kind = .worker → c.pid = s.wp := by
  intro c hc hkind
  exact (h.worker c hc hkind).resolve_right (hmain c.pid)

/-- Main goes on, and neither the children nor `shm->wp.pid` change. -/
theorem Inv.goto (h : Inv s) (hframes : s.frames = []) (hmain : ∀ p, s.main ≠ .storeWp p)
    (hchildren : s'.children = s.children) (hwp : s'.wp = s.wp) (hframes' : s'.frames = s.frames)
    (hok : MainOk s' s'.main) : Inv s' where
  table := hchildren ▸ h.table
  wp_nonneg := hwp ▸ h.wp_nonneg
  worker c hc hkind := .inl (hwp ▸ h.worker_eq hmain c (hchildren ▸ hc) hkind)
  main := hok
  one := hframes' ▸ h.one
  chld pc hpc := by
    rw [hframes', hframes] at hpc
    cases hpc

theorem inv_main (h : Inv s) (hframes : s.frames = []) (ha : MainStep conf s a s') : Inv s' := by
  have hnone : ∀ pc, .chld pc ∉ s.frames := by
    rw [hframes]
    nofun
  have hno : ∀ {Q : ChldPc → Prop} pc, .chld pc ∈ s.frames → Q pc :=
    fun pc hpc => absurd hpc (hnone pc)
  have hmain := h.main
  cases ha with
  | setStatus hpc | clearMp hpc | forkMFails hpc | storeMp hpc | assignM hpc | forkWFails hpc
  | assignW hpc | rereadWp hpc | kill hpc | finishKill hpc =>
    exact h.goto hframes (by rw [hpc]; nofun) rfl rfl rfl trivial
  | testM hpc | wait hpc | checkShutdown hpc | testForked hpc | checked hpc | killTest hpc
  | spin hpc | loopTest hpc | finish hpc =>
    exact h.goto hframes (by rw [hpc]; nofun) rfl rfl rfl (mainOk_ite trivial trivial)
  | top hpc =>
    exact h.goto hframes (by rw [hpc]; nofun) rfl rfl rfl
      (mainOk_ite (mainOk_ite trivial trivial) trivial)
  | noChecks hpc | popenFails hpc | pcloseNone hpc =>
    exact h.goto hframes (by rw [hpc]; nofun) rfl rfl rfl trivial
  | readWp hpc =>
    refine h.goto hframes (by rw [hpc]; nofun) rfl rfl rfl fun hle => ?_
    exact Int.le_antisymm hle h.wp_nonneg
  | test hpc =>
    refine h.goto hframes (by rw [hpc]; nofun) rfl rfl rfl ?_
    rw [hpc] at hmain
    show MainOk _ (if s.wpid ≤ 0 then _ else _)
    split_ifs with hle
    · exact hmain hle
    · trivial
  | clearWp hpc =>
    rw [hpc] at hmain
    have hzero : s.wp = 0 := hmain
    refine ⟨h.table, Int.le_refl 0, ?_, rfl, h.one, hno⟩
    intro c hc hkind
    exact .inl ((h.worker_eq (by rw [hpc]; nofun) c hc hkind).trans hzero)
  | forkW hpc hfresh =>
    rw [hpc] at hmain
    have hzero : s.wp = 0 := hmain
    refine ⟨h.table.fork hfresh, h.wp_nonneg, ?_, ⟨hzero, hfresh.1⟩, h.one, hno⟩
    intro c hc hkind
    rcases List.mem_cons.mp hc with rfl | hc
    · exact .inr rfl
    · exact .inl (h.worker_eq (by rw [hpc]; nofun) c hc hkind)
  | @storeWp wpid hpc =>
    rw [hpc] at hmain
    obtain ⟨hzero, hpos⟩ := hmain
    refine ⟨h.table, Int.le_of_lt hpos, ?_, trivial, h.one, hno⟩
    intro c hc hkind
    rcases h.worker c hc hkind with hwp | hstore
    · exact absurd (hwp.trans hzero) (h.table.ne_zero hc)
    · rw [hpc, MainPc.storeWp.injEq] at hstore
      exact .inl hstore.symm
  | forkM hpc hfresh =>
    refine ⟨h.table.fork hfresh, h.wp_nonneg, ?_, trivial, h.one, hno⟩
    intro c hc hkind
    rcases List.mem_cons.mp hc with rfl | hc
    · cases hkind
    · exact .inl (h.worker_eq (by rw [hpc]; nofun) c hc hkind)
  | popen hpc hchecks hfresh =>
    refine ⟨h.table.fork hfresh, h.wp_nonneg, ?_, ?_, h.one, hno⟩
    · intro c hc hkind
      rcases List.mem_cons.mp hc with rfl | hc
      · cases hkind
      · exact .inl (h.worker_eq (by rw [hpc]; nofun) c hc hkind)
    · intro c hc hpid
      rcases List.mem_cons.mp hc with rfl | hc
      · rfl
      · exact absurd (hpid ▸ Children.mem_pids_of_mem hc) hfresh.2
  | pclose hpc =>
    refine ⟨h.table.reap, h.wp_nonneg, ?_, trivial, h.one, hno⟩
    intro c hc hkind
    exact .inl (h.worker_eq (by rw [hpc]; nofun) c (Children.mem_reap.mp hc).1 hkind)

/-! ## The handlers -/

/-- `SIGCHLD` is blocked in its own handler. -/
theorem Inv.no_chld (h : Inv s) (hframes : s.frames = .chld pc :: rest) :
    rest.countP Frame.isChld = 0 := by
  have hone := h.one
  rw [hframes, List.countP_cons_of_pos rfl] at hone
  omega

theorem not_mem_of_countP {pc : ChldPc} (h : rest.countP Frame.isChld = 0) : .chld pc ∉ rest :=
  fun hpc => List.countP_eq_zero.mp h _ hpc rfl

/-- The handler goes on. -/
theorem Inv.handler {pc' : ChldPc} (h : Inv s) (hframes : s.frames = .chld pc :: rest)
    (hkept : Kept s s') (htable : s'.children.Valid) (hnonneg : 0 ≤ s'.wp)
    (hwp : ∀ c ∈ s'.children, c.pid = s.wp → c.pid = s'.wp) (hmain' : s'.main = s.main)
    (hmain : MainOk s' s.main) (hframes' : s'.frames = .chld pc' :: rest)
    (hok : ChldOk s' pc') : Inv s' where
  table := htable
  wp_nonneg := hnonneg
  worker c' hc' hkind := by
    obtain ⟨c, hc, hpid, hsame⟩ := hkept c' hc'
    rw [hmain', ← hpid]
    refine (h.worker c hc (hsame.trans hkind)).imp_left fun heq => ?_
    rw [hpid] at heq ⊢
    exact hwp c' hc' heq
  main := hmain' ▸ hmain
  one := by
    have hone : s'.frames.countP Frame.isChld = 1 := by
      rw [hframes', List.countP_cons_of_pos rfl, h.no_chld hframes]
    exact Nat.le_of_eq hone
  chld pc'' hpc'' := by
    rw [hframes'] at hpc''
    rcases List.mem_cons.mp hpc'' with heq | hpc''
    · cases heq
      exact hok
    · exact absurd hpc'' (not_mem_of_countP (h.no_chld hframes))

/-- The handler goes on, and neither the children nor `shm->wp.pid` nor `wpid` change. -/
theorem Inv.handler_quiet {pc' : ChldPc} (h : Inv s) (hframes : s.frames = .chld pc :: rest)
    (hchildren : s'.children = s.children) (hwp : s'.wp = s.wp) (hwpid : s'.wpid = s.wpid)
    (hmain : s'.main = s.main) (hframes' : s'.frames = .chld pc' :: rest)
    (hok : ChldOk s' pc') : Inv s' := by
  have hkept := kept_of_eq hchildren
  refine h.handler hframes hkept (hchildren ▸ h.table) (hwp ▸ h.wp_nonneg) ?_ hmain ?_ hframes' hok
  · intro c _ heq
    rw [hwp, heq]
  · refine h.main.change hkept ?_ ?_
    · rw [hwp]
      exact id
    · rw [hwp, hwpid]
      exact id

/-- The handler reaps a child. -/
theorem Inv.handler_reap {pc' : ChldPc} {pid : Int} (h : Inv s)
    (hframes : s.frames = .chld pc :: rest)
    (hok : ChldOk { s with children := s.children.reap pid, frames := .chld pc' :: rest } pc') :
    Inv { s with children := s.children.reap pid, frames := .chld pc' :: rest } := by
  have hkept : Kept s { s with children := s.children.reap pid, frames := .chld pc' :: rest } :=
    kept_of_reap rfl
  exact h.handler hframes hkept h.table.reap h.wp_nonneg (fun _ _ heq => heq) rfl
    (h.main.change hkept id id) rfl hok

theorem chldOk_ite {p : Prop} [Decidable p] {pc pc' : ChldPc} (h : p → ChldOk s pc)
    (h' : ¬ p → ChldOk s pc') : ChldOk s (if p then pc else pc') := by
  split_ifs with hp
  · exact h hp
  · exact h' hp

theorem inv_chld (h : Inv s) (hframes : s.frames = .chld pc :: rest)
    (ha : ChldStep s rest pc a s') : Inv s' := by
  have hok := h.chld pc (hframes ▸ List.mem_cons_self)
  cases ha with
  | wait hzombie =>
    obtain ⟨c, hc, hpid, -⟩ := hzombie
    refine h.handler_reap hframes ⟨hpid ▸ h.table.pos c hc, fun c' hc' => ?_⟩
    exact (Children.mem_reap.mp hc').2
  | ret =>
    have hnone := h.no_chld hframes
    refine ⟨h.table, h.wp_nonneg, h.worker, h.main, ?_, ?_⟩
    · rw [hnone]
      exact Nat.zero_le 1
    · intro pc hpc
      exact absurd hpc (not_mem_of_countP hnone)
  | reaped =>
    refine h.handler_quiet hframes rfl rfl rfl rfl rfl (chldOk_ite (fun heq => ?_) fun _ => trivial)
    rw [heq] at hok
    exact hok
  | killM => exact h.handler_quiet hframes rfl rfl rfl rfl rfl hok
  | @waitM pid hzombie hwaits =>
    -- the master is not a child any more, so there is nothing to wait for
    obtain ⟨c, hc, hpid, -⟩ := hzombie
    obtain ⟨hpos, hnot⟩ := hok
    rcases hwaits with heq | heq | heq
    · omega
    · omega
    · exact absurd (hpid.trans heq.symm) (hnot c hc)
  | waitMNone => exact h.handler_quiet hframes rfl rfl rfl rfl rfl rfl
  | clearMp => exact h.handler_quiet hframes rfl rfl rfl rfl rfl hok
  | clearMpid => exact h.handler_quiet hframes rfl rfl rfl rfl rfl trivial
  | readWp =>
    refine h.handler hframes (kept_of_eq rfl) h.table h.wp_nonneg (fun _ _ heq => heq) rfl
      (h.main.change (kept_of_eq rfl) id fun _ hle => ?_) rfl rfl
    exact Int.le_antisymm hle h.wp_nonneg
  | test =>
    exact h.handler_quiet hframes rfl rfl rfl rfl rfl (chldOk_ite (fun _ => hok) fun _ => trivial)
  | killW => exact h.handler_quiet hframes rfl rfl rfl rfl rfl hok
  | @waitW pid hzombie hwaits =>
    have hsame : s.wpid = s.wp := hok
    refine h.handler_reap hframes fun c hc => ?_
    obtain ⟨hc, hne⟩ := Children.mem_reap.mp hc
    have hpos := h.table.pos c hc
    have hnonneg := h.wp_nonneg
    show c.pid ≠ s.wp
    rcases hwaits with heq | heq | heq
    · omega
    · omega
    · rwa [← hsame, heq]
  | waitWNone hnone =>
    have hsame : s.wpid = s.wp := hok
    refine h.handler_quiet hframes rfl rfl rfl rfl rfl fun c hc heq => ?_
    exact hnone c.pid (Children.mem_pids_of_mem hc) (.inr (.inr (hsame.trans heq.symm)))
  | clearWp =>
    refine h.handler hframes (kept_of_eq rfl) h.table (Int.le_refl 0) ?_ rfl
      (h.main.change (kept_of_eq rfl) (fun _ => rfl) fun _ _ => rfl) rfl rfl
    intro c hc heq
    exact absurd heq (hok c hc)
  | clearWpid =>
    have hzero : s.wp = 0 := hok
    exact h.handler hframes (kept_of_eq rfl) h.table h.wp_nonneg (fun _ _ heq => heq) rfl
      (h.main.change (kept_of_eq rfl) id fun _ _ => hzero) rfl trivial

/-- `sigterm_handler` writes nothing that the invariant is about. -/
theorem inv_term {pc : TermPc} (h : Inv s) (hframes : s.frames = .term pc :: rest)
    (ha : TermStep s rest pc a s') : Inv s' := by
  have hone : rest.countP Frame.isChld ≤ 1 := by
    have hone := h.one
    rwa [hframes, List.countP_cons_of_neg (by simp [Frame.isChld])] at hone
  have hrest : ∀ pc, .chld pc ∈ rest → ChldOk s pc := by
    intro pc hpc
    exact h.chld pc (hframes ▸ List.mem_cons_of_mem _ hpc)
  have hcons : ∀ {tpc : TermPc} {pc : ChldPc}, .chld pc ∈ Frame.term tpc :: rest → ChldOk s pc := by
    intro tpc pc hpc
    rcases List.mem_cons.mp hpc with heq | hpc
    · cases heq
    · exact hrest pc hpc
  cases ha with
  | first | later | timeout | inTime | setShutdown | testWp =>
    exact ⟨h.table, h.wp_nonneg, h.worker, h.main, by simpa [Frame.isChld] using hone,
      fun _ => hcons⟩
  | killTimeout | testWpNone | killWp =>
    exact ⟨h.table, h.wp_nonneg, h.worker, h.main, hone, hrest⟩

theorem inv_step (h : Inv s) (ha : Step conf s a s') : Inv s' := by
  cases ha with
  | env ha => exact inv_env h ha
  | main hframes ha => exact inv_main h hframes ha
  | chld hframes ha => exact inv_chld h hframes ha
  | term hframes ha => exact inv_term h hframes ha

theorem inv_reach (h : (lts conf).Reach s) : Inv s := by
  refine LTS.Reach.invariant (T := lts conf) (I := Inv) ?_ (fun _ _ _ => inv_step) h
  intro s hs
  obtain rfl : s = new := hs
  exact inv_new

/-! ## One worker -/

/-- The workers that are alive. -/
def workers (s : DaemonState) : Children Kind :=
  s.children.filter fun c => c.kind = .worker ∧ c.alive

/-- Two workers would have the same pid. -/
theorem Inv.worker_unique (h : Inv s) {c c' : Child Kind} (hc : c ∈ s.children)
    (hc' : c' ∈ s.children) (hkind : c.kind = .worker) (hkind' : c'.kind = .worker) : c = c' := by
  refine h.table.eq_of_pid hc hc' ?_
  by_cases hstore : ∃ p, s.main = .storeWp p
  · obtain ⟨p, hp⟩ := hstore
    have hmain := h.main
    rw [hp] at hmain
    -- in `forkWork` the shared pid is 0, and no child has that
    have hpid : ∀ d ∈ s.children, d.kind = .worker → d.pid = p := by
      intro d hd hdkind
      rcases h.worker d hd hdkind with hwp | hmain'
      · exact absurd (hwp.trans hmain.1) (h.table.ne_zero hd)
      · rw [hp, MainPc.storeWp.injEq] at hmain'
        exact hmain'.symm
    rw [hpid c hc hkind, hpid c' hc' hkind']
  · have hmain : ∀ p, s.main ≠ .storeWp p := fun p hp => hstore ⟨p, hp⟩
    rw [h.worker_eq hmain c hc hkind, h.worker_eq hmain c' hc' hkind']

/-- **The daemon never runs two workers.** -/
theorem at_most_one_worker (h : (lts conf).Reach s) : s.workers.length ≤ 1 := by
  have hinv := inv_reach h
  have hnodup : s.workers.Nodup := (hinv.table.nodup.of_map _).filter _
  have hmem : ∀ c ∈ s.workers, c ∈ s.children ∧ c.kind = .worker := by
    intro c hc
    obtain ⟨hc, hworker⟩ := List.mem_filter.mp hc
    exact ⟨hc, (of_decide_eq_true hworker).1⟩
  rcases hlist : s.workers with _ | ⟨c, _ | ⟨c', l⟩⟩
  · exact Nat.zero_le 1
  · exact Nat.le_refl 1
  · rw [hlist] at hnodup hmem
    obtain ⟨hc, hkind⟩ := hmem c List.mem_cons_self
    obtain ⟨hc', hkind'⟩ := hmem c' (List.mem_cons_of_mem c List.mem_cons_self)
    obtain rfl := hinv.worker_unique hc hc' hkind hkind'
    exact absurd List.mem_cons_self (List.nodup_cons.mp hnodup).1

/-! ## A worker and its replacement -/

/-- The daemon has no master, and a worker is forked. The pid is not stored yet. -/
def sampleForked (children : Children Kind) (wpid pid : Int) : DaemonState :=
  { new with children, wpid, mpid := 0, main := .storeWp pid }

/-- The restart test of the next pass. -/
def samplePass (children : Children Kind) (pid : Int) : DaemonState :=
  { new with children, wp := pid, wpid := pid, mpid := 0, main := .test }

variable {ok : DaemonState → Act → Prop}

theorem sampleForked_reach (hnext : ∀ s, ok s .next) (hfork : ∀ s pid, ok s (.fork pid)) :
    ((lts ⟨false, false⟩).restrict ok).Reach (sampleForked [⟨100, .worker, true⟩] 0 100) := by
  have h0 : ((lts ⟨false, false⟩).restrict ok).Reach new := .init rfl
  have h1 := h0.step ⟨hnext _, Step.main rfl (.top rfl)⟩
  have h2 := h1.step ⟨hnext _, Step.main rfl (.assignM rfl)⟩
  have h3 := h2.step ⟨hnext _, Step.main rfl (.testM rfl)⟩
  have h4 := h3.step ⟨hnext _, Step.main rfl (.wait rfl)⟩
  have h5 := h4.step ⟨hnext _, Step.main rfl (.checkShutdown rfl)⟩
  have h6 := h5.step ⟨hnext _, Step.main rfl (.readWp rfl)⟩
  have h7 := h6.step ⟨hnext _, Step.main rfl (.test rfl)⟩
  have h8 := h7.step ⟨hnext _, Step.main rfl (.clearWp rfl)⟩
  exact h8.step ⟨hfork _ _, Step.main rfl (.forkW rfl (by decide))⟩

theorem samplePass_reach (hnext : ∀ s, ok s .next) {children : Children Kind} {wpid pid : Int}
    (hpid : 0 < pid)
    (h : ((lts ⟨false, false⟩).restrict ok).Reach (sampleForked children wpid pid)) :
    ((lts ⟨false, false⟩).restrict ok).Reach (samplePass children pid) := by
  have h1 := h.step ⟨hnext _, Step.main rfl (.storeWp rfl)⟩
  have h2 := h1.step ⟨hnext _, Step.main rfl (.assignW rfl)⟩
  have h3 : ((lts ⟨false, false⟩).restrict ok).Reach
      { samplePass children pid with main := .checkJVM } := by
    have hstep := h2.step ⟨hnext _, Step.main rfl (.testForked rfl)⟩
    simp only [if_neg (Int.not_le.mpr hpid)] at hstep
    exact hstep
  have h4 := h3.step ⟨hnext _, Step.main rfl (.noChecks rfl rfl)⟩
  have h5 := h4.step ⟨hnext _, Step.main rfl (.loopTest rfl)⟩
  have h6 := h5.step ⟨hnext _, Step.main rfl (.top rfl)⟩
  have h7 := h6.step ⟨hnext _, Step.main rfl (.assignM rfl)⟩
  have h8 := h7.step ⟨hnext _, Step.main rfl (.testM rfl)⟩
  have h9 := h8.step ⟨hnext _, Step.main rfl (.wait rfl)⟩
  have h10 := h9.step ⟨hnext _, Step.main rfl (.checkShutdown rfl)⟩
  exact h10.step ⟨hnext _, Step.main rfl (.readWp rfl)⟩

/-- The worker 100 dies at the restart test, the handler runs, and the test leads to 101. -/
theorem sampleReplaced_reach (hnext : ∀ s, ok s .next) (hfork : ∀ s pid, ok s (.fork pid))
    (htest : ∀ s a, s.main = .test → ok s a) :
    ((lts ⟨false, false⟩).restrict ok).Reach (sampleForked [⟨101, .worker, true⟩] (-1) 101) := by
  have h0 := samplePass_reach hnext (by decide) (sampleForked_reach hnext hfork)
  have h1 := h0.step ⟨htest _ _ rfl, Step.env (.die List.mem_cons_self rfl)⟩
  have h2 := h1.step ⟨htest _ _ rfl, Step.env (.sigchld rfl rfl)⟩
  have hzombie : Children.Zombie [⟨100, Kind.worker, false⟩] 100 := by decide
  have h3 := h2.step ⟨htest _ _ rfl, Step.chld rfl (.wait hzombie)⟩
  have hreaped : ((lts ⟨false, false⟩).restrict ok).Reach
      { samplePass [] 100 with frames := [.chld (.reaped 100)] } := h3
  have h4 := hreaped.step ⟨htest _ _ rfl, Step.chld rfl .reaped⟩
  have h5 := h4.step ⟨htest _ _ rfl, Step.chld rfl .readWp⟩
  have h6 := h5.step ⟨htest _ _ rfl, Step.chld rfl .test⟩
  have h7 := h6.step ⟨htest _ _ rfl, Step.chld rfl .killW⟩
  have h8 := h7.step ⟨htest _ _ rfl, Step.chld rfl (.waitWNone nofun)⟩
  have hwaited : ((lts ⟨false, false⟩).restrict ok).Reach
      { samplePass [] 100 with frames := [.chld .clearWp] } := h8
  have h9 := hwaited.step ⟨htest _ _ rfl, Step.chld rfl .clearWp⟩
  have h10 := h9.step ⟨htest _ _ rfl, Step.chld rfl .clearWpid⟩
  have h11 := h10.step ⟨htest _ _ rfl, Step.chld rfl (.ret fun _ ⟨_, hc, _⟩ => nomatch hc)⟩
  have hreturned : ((lts ⟨false, false⟩).restrict ok).Reach
      { samplePass [] 0 with wpid := -1 } := h11
  have h12 := hreturned.step ⟨hnext _, Step.main rfl (.test rfl)⟩
  have h13 := h12.step ⟨hnext _, Step.main rfl (.clearWp rfl)⟩
  exact h13.step ⟨hfork _ _, Step.main rfl (.forkW rfl (by decide))⟩

theorem at_most_one_worker_sample :
    (lts ⟨false, false⟩).Reach (sampleForked [⟨101, .worker, true⟩] (-1) 101) ∧
      (sampleForked [⟨101, .worker, true⟩] (-1) 101).workers.length ≤ 1 := by
  have hreach : ((lts ⟨false, false⟩).restrict fun _ _ => True).Reach
      (sampleForked [⟨101, .worker, true⟩] (-1) 101) :=
    sampleReplaced_reach (fun _ => trivial) (fun _ _ => trivial) fun _ _ _ => trivial
  exact ⟨hreach.of_restrict, at_most_one_worker hreach.of_restrict⟩

end DaemonState

end DevTools.Daemon
