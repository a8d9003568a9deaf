import DevTools.Daemon.Supervisor
import DevTools.Lib.CString

/-!
# The checks of the worker

After each pass of its loop the daemon runs `checks.cmd` and looks for `checks.keyword` in the first
2048 bytes of the output. `checkJVM` counts in `checks_tries` and asks for a restart when it has
found the keyword more than `checks.retryTimes` times in a row.

In `Supervisor` the answer of `checkJVM` is open; here it is computed. `log` is a ghost: what the
checks have found and the restarts that were asked for, latest first.

**Theorem (`restarts_exact`).** Runs with the counter are runs of the daemon. If `retryTimes` is not
the greatest `int`, which the counter cannot exceed, then whatever signals, deaths and forks come in
between, a restart is asked for exactly after `retryTimes + 1` checks in a row that found the
keyword, none of which counts for two restarts; the loop sends its `SIGTERM` only after that. A
`popen` that fails neither counts nor interrupts the row. A fork does not interrupt it either: the
first check of a new worker may be the last one of the row (`row_survives_fork`).
-/

namespace DevTools.Daemon

/-! ## `checkJVM` -/

/-- `bash_buffer` after `fread`, and the memory behind it. -/
def bash_buffer (output beyond : List UInt8) : List UInt8 :=
  output.take 2048 ++ List.replicate (2048 - output.length) 0 ++ beyond

/-- `strstr(s,needle)!=NULL`; the buffer need not hold a final zero, and the search goes on behind
it then. -/
def strstr (s needle : List UInt8) : Bool :=
  (s.takeWhile (· ≠ 0)).tails.any needle.isPrefixOf

/-- `checkJVM` after `pclose`: what it returns, and `checks_tries`. -/
def checkJVM (retryTimes : Int) (found : Bool) (checks_tries : Int) : Int × Int :=
  if found then
    if wrap32 (checks_tries + 1) > retryTimes then (1, 0) else (0, wrap32 (checks_tries + 1))
  else (0, 0)

/-- `conf->checks_keyword` and `conf->checks_retryTimes`. -/
structure Checks where
  checks_keyword : List UInt8
  checks_retryTimes : Int

/-! ## The daemon with its counter -/

inductive Event
  | keyword
  | other
  | restart
  deriving DecidableEq, Repr

structure CheckedState where
  daemon : DaemonState
  checks_tries : Int
  /-- ghost -/
  log : List Event

/-- What a check adds to the log. -/
def events (found : Bool) (ret : Int) : List Event :=
  if found then (if ret = 1 then [.restart, .keyword] else [.keyword]) else [.other]

namespace CheckedState

inductive Label
  | check (output beyond : List UInt8)
  | other (a : Act)

/-- Does `checkJVM` evaluate what it has read? -/
def AtCheck (s : DaemonState) (a : Act) : Prop :=
  s.frames = [] ∧ s.main = .checked ∧ ∃ yes, a = .choose yes

inductive Step (conf : Conf) (ck : Checks) (x : CheckedState) : Label → CheckedState → Prop
  | check {output beyond : List UInt8} {found : Bool} {res : Int × Int} {s' : DaemonState} :
      found = strstr (bash_buffer output beyond) ck.checks_keyword →
      res = checkJVM ck.checks_retryTimes found x.checks_tries →
      AtCheck x.daemon (.choose (res.1 = 1)) →
      DaemonState.Step conf x.daemon (.choose (res.1 = 1)) s' →
      Step conf ck x (.check output beyond) ⟨s', res.2, events found res.1 ++ x.log⟩
  | other {a : Act} {s' : DaemonState} : ¬ AtCheck x.daemon a →
      DaemonState.Step conf x.daemon a s' → Step conf ck x (.other a) { x with daemon := s' }

def lts (conf : Conf) (ck : Checks) : LTS CheckedState Label where
  init x := x = ⟨.new, 0, []⟩
  step := Step conf ck

/-! ## Rows of the log -/

/-- How many checks have found the keyword at the end of the log. -/
def row : List Event → Nat
  | .keyword :: log => row log + 1
  | _ => 0

theorem replicate_prefix_iff (n : Nat) (log : List Event) :
    List.replicate n .keyword <+: log ↔ n ≤ row log := by
  induction n generalizing log with
  | zero => simp
  | succ n ih =>
    rw [List.replicate_succ]
    cases log with
    | nil => simp [row]
    | cons e log =>
      rw [List.cons_prefix_cons, ih]
      cases e with
      | keyword => simp [row]
      | other => simp [row]
      | restart => simp [row]

/-- A restart comes after every row of `n` checks, and after nothing else. -/
def ExactAfter (n : Nat) (log : List Event) : Prop :=
  ∀ post, post <:+ log → (.restart :: post <:+ log ↔ List.replicate n .keyword <+: post)

theorem not_cons_suffix (e : Event) (log : List Event) : ¬ e :: log <:+ log := by
  intro hsuf
  have hlen := hsuf.length_le
  rw [List.length_cons] at hlen
  omega

theorem ExactAfter.cons {n : Nat} {log : List Event} {e : Event} (h : ExactAfter n log)
    (he : e ≠ .restart) (hrow : row (e :: log) < n) : ExactAfter n (e :: log) := by
  intro post hpost
  rcases List.suffix_cons_iff.1 hpost with rfl | hpost
  · refine iff_of_false (not_cons_suffix _ _) fun hpre => ?_
    have := (replicate_prefix_iff n _).1 hpre
    omega
  · rw [← h post hpost, List.suffix_cons_iff]
    refine or_iff_right fun heq => ?_
    exact he (List.cons.inj heq).1.symm

theorem ExactAfter.restart {n : Nat} {log : List Event} (h : ExactAfter n log)
    (hrow : row log + 1 = n) : ExactAfter n (.restart :: .keyword :: log) := by
  intro post hpost
  rcases List.suffix_cons_iff.1 hpost with rfl | hpost
  · refine iff_of_false (not_cons_suffix _ _) fun hpre => ?_
    have := (replicate_prefix_iff n _).1 hpre
    simp only [row] at this
    omega
  · rcases List.suffix_cons_iff.1 hpost with rfl | hpost
    · refine iff_of_true List.suffix_rfl ((replicate_prefix_iff n _).2 ?_)
      simp only [row]
      omega
    · have hlen := hpost.length_le
      rw [← h post hpost, List.suffix_cons_iff, List.suffix_cons_iff]
      refine ⟨fun hsuf => ?_, fun hsuf => .inr (.inr hsuf)⟩
      rcases hsuf with heq | heq | hsuf
      · have := congrArg List.length heq
        simp only [List.length_cons] at this
        omega
      · cases heq
      · exact hsuf

/-! ## One step -/

/-- The row that asks for a restart; a negative `retryTimes` is like zero. -/
def rowLength (ck : Checks) : Nat := ck.checks_retryTimes.toNat + 1

structure Counted (ck : Checks) (x : CheckedState) : Prop where
  tries : x.checks_tries = row x.log
  short : row x.log < rowLength ck
  exact : ExactAfter (rowLength ck) x.log
  asked : x.daemon.main = .killTest ∨ x.daemon.main = .kill → ∃ post, x.log = .restart :: post

variable {conf : Conf} {ck : Checks} {x x' : CheckedState} {s s' : DaemonState} {a : Act}

theorem checkJVM_cases {tries : Int} (htries : InInt32 (tries + 1)) (retryTimes : Int)
    (found : Bool) :
    (found = false ∧ checkJVM retryTimes found tries = (0, 0)) ∨
    (found = true ∧ retryTimes < tries + 1 ∧ checkJVM retryTimes found tries = (1, 0)) ∨
    (found = true ∧ tries + 1 ≤ retryTimes ∧
      checkJVM retryTimes found tries = (0, tries + 1)) := by
  rw [checkJVM, wrap32_of_inInt32 htries]
  cases found with
  | false => exact .inl ⟨rfl, rfl⟩
  | true =>
    by_cases h : tries + 1 > retryTimes
    · exact .inr (.inl ⟨rfl, h, by simp [h]⟩)
    · exact .inr (.inr ⟨rfl, by omega, by simp [h]⟩)

/-- The loop comes to its `kill` from `checkJVM` only. -/
theorem asked_inv (hstep : DaemonState.Step conf s a s') (ha : ¬ AtCheck s a)
    (h : s'.main = .killTest ∨ s'.main = .kill) : s.main = .killTest ∨ s.main = .kill := by
  cases hstep with
  | env hstep => cases hstep <;> exact h
  | chld _ hstep => cases hstep <;> exact h
  | term _ hstep => cases hstep <;> exact h
  | main hframes hstep =>
    cases hstep with
    | checked hm => exact absurd ⟨hframes, hm, _, rfl⟩ ha
    | killTest hm => exact .inl hm
    | top | testM | wait | checkShutdown | test | testForked | spin | loopTest | finish =>
      revert h
      dsimp only
      split_ifs <;> simp
    | _ => simp at h

theorem main_check {yes : Bool} (hat : AtCheck s (.choose yes))
    (hstep : DaemonState.Step conf s (.choose yes) s') :
    s'.main = if yes then .killTest else .loopTest := by
  obtain ⟨hframes, hmain, -⟩ := hat
  cases hstep with
  | env hstep => cases hstep
  | chld hf _ => cases hframes.symm.trans hf
  | term hf _ => cases hframes.symm.trans hf
  | main _ hstep =>
    cases hstep with
    | checked _ => rfl

/-- The counter does not overflow if `retryTimes` is less than the greatest `int`. -/
theorem Counted.inInt32 (h : Counted ck x) (hck : ck.checks_retryTimes < 2147483647) :
    InInt32 (x.checks_tries + 1) := by
  have htries := h.tries
  have hshort := h.short
  unfold rowLength at hshort
  unfold InInt32
  omega

theorem counted_check {found : Bool} {res : Int × Int} (hck : ck.checks_retryTimes < 2147483647)
    (h : Counted ck x)
    (hres : res = checkJVM ck.checks_retryTimes found x.checks_tries)
    (hat : AtCheck x.daemon (.choose (res.1 = 1)))
    (hstep : DaemonState.Step conf x.daemon (.choose (res.1 = 1)) s') :
    Counted ck ⟨s', res.2, events found res.1 ++ x.log⟩ := by
  have hmain := main_check hat hstep
  have htries := h.tries
  have hshort := h.short
  unfold rowLength at hshort
  rcases checkJVM_cases (h.inInt32 hck) ck.checks_retryTimes found with
    ⟨rfl, heq⟩ | ⟨rfl, hlt, heq⟩ | ⟨rfl, hle, heq⟩
  · obtain rfl := hres.trans heq
    refine ⟨rfl, ?_, h.exact.cons (by decide) ?_, ?_⟩
    · exact Nat.succ_pos _
    · exact Nat.succ_pos _
    · simp [hmain]
  · obtain rfl := hres.trans heq
    have hrow : row x.log + 1 = rowLength ck := by
      unfold rowLength
      omega
    exact ⟨rfl, Nat.succ_pos _, h.exact.restart hrow, fun _ => ⟨_, rfl⟩⟩
  · obtain rfl := hres.trans heq
    have hrow : row (.keyword :: x.log) < rowLength ck := by
      simp only [row, rowLength]
      omega
    refine ⟨?_, hrow, h.exact.cons (by decide) hrow, ?_⟩
    · show x.checks_tries + 1 = ((row x.log + 1 : Nat) : Int)
      omega
    · simp [hmain]

theorem counted_step {l : Label} (hck : ck.checks_retryTimes < 2147483647) (h : Counted ck x)
    (hstep : Step conf ck x l x') : Counted ck x' := by
  cases hstep with
  | check _ hres hat hstep => exact counted_check hck h hres hat hstep
  | other ha hstep =>
    exact ⟨h.tries, h.short, h.exact, fun hasked => h.asked (asked_inv hstep ha hasked)⟩

/-! ## Every run -/

/-- A run with the counter is a run of the daemon. -/
theorem daemon_reach (h : (lts conf ck).Reach x) : (DaemonState.lts conf).Reach x.daemon := by
  refine LTS.Reach.invariant (I := fun x => (DaemonState.lts conf).Reach x.daemon) ?_ ?_ h
  · rintro x rfl
    exact .init rfl
  · intro x l x' hreach hstep
    cases hstep with
    | check _ _ _ hstep => exact hreach.step hstep
    | other _ hstep => exact hreach.step hstep

theorem counted_reach (hck : ck.checks_retryTimes < 2147483647) (h : (lts conf ck).Reach x) :
    Counted ck x := by
  refine LTS.Reach.invariant (I := Counted ck) ?_ (fun _ _ _ => counted_step hck) h
  rintro x rfl
  refine ⟨rfl, Nat.succ_pos _, fun post hpost => ?_, by simp [DaemonState.new]⟩
  obtain rfl := List.eq_nil_of_suffix_nil hpost
  refine iff_of_false (not_cons_suffix _ _) fun hpre => ?_
  have := hpre.length_le
  simp [rowLength] at this

/-- **A restart after every row of `retryTimes + 1`, and after nothing else.** -/
theorem restarts_exact (hck : ck.checks_retryTimes < 2147483647) (h : (lts conf ck).Reach x) :
    (DaemonState.lts conf).Reach x.daemon ∧
      (∀ post, post <:+ x.log → (.restart :: post <:+ x.log ↔
        List.replicate (ck.checks_retryTimes.toNat + 1) .keyword <+: post)) ∧
      (x.daemon.main = .kill → ∃ post, x.log = .restart :: post) := by
  have hcounted := counted_reach hck h
  exact ⟨daemon_reach h, hcounted.exact, fun hkill => hcounted.asked (.inr hkill)⟩

/-! ## A row that two workers share -/

/-- Nothing is decided. -/
def Quiet : Act → Prop
  | .choose _ => False
  | _ => True

theorem quiet (h : (lts conf ck).Reach x) (hstep : DaemonState.Step conf x.daemon a s')
    (ha : Quiet a) : (lts conf ck).Reach { x with daemon := s' } := by
  refine h.step (.other ?_ hstep)
  rintro ⟨-, -, yes, rfl⟩
  exact ha

/-- There is no master; the loop is at `main`, with a worker or without. -/
def sampleDaemon (children : Children Kind) (wp wpid : Int) (pending : Bool) (main : MainPc) :
    DaemonState :=
  ⟨children, wp, 0, 0, wpid, 0, false, 0, pending, main, []⟩

/-- A worker is forked, and its first check has run. -/
theorem sampleFork_reach {wpid pid tries : Int} {pending : Bool} {log : List Event}
    (hpid : 0 < pid)
    (h : (lts ⟨false, true⟩ ck).Reach ⟨sampleDaemon [] 0 wpid pending .wait, tries, log⟩) :
    (lts ⟨false, true⟩ ck).Reach
      ⟨sampleDaemon [⟨pid, .worker, true⟩] pid pid true .checked, tries, log⟩ := by
  have h1 := quiet h (.main rfl (.wait rfl)) trivial
  have h2 := quiet h1 (.main rfl (.checkShutdown rfl)) trivial
  have h3 := quiet h2 (.main rfl (.readWp rfl)) trivial
  have h4 := quiet h3 (.main rfl (.test rfl)) trivial
  have h5 := quiet h4 (.main rfl (.clearWp rfl)) trivial
  have h6 := quiet h5 (.main rfl (.forkW rfl ⟨hpid, List.not_mem_nil⟩)) trivial
  have h7 := quiet h6 (.main rfl (.storeWp rfl)) trivial
  have h8 := quiet h7 (.main rfl (.assignW rfl)) trivial
  have h9 : (lts ⟨false, true⟩ ck).Reach
      ⟨sampleDaemon [⟨pid, .worker, true⟩] pid pid pending .checkJVM, tries, log⟩ := by
    have hstep := quiet h8 (.main rfl (.testForked rfl)) trivial
    simp only [if_neg (Int.not_le.2 hpid)] at hstep
    exact hstep
  have hfresh : Children.Fresh [⟨pid, Kind.worker, true⟩] (pid + 1) := by
    refine ⟨by omega, fun hmem => ?_⟩
    have heq : pid + 1 = pid := List.mem_singleton.1 hmem
    omega
  have h10 := quiet h9 (.main rfl (.popen rfl rfl hfresh)) trivial
  have h11 := quiet h10 (.env (.die List.mem_cons_self rfl)) trivial
  have hne : ¬ pid = pid + 1 := by omega
  have hchildren : Children.reap (pid + 1) (Children.die (pid + 1)
      [⟨pid + 1, Kind.other, true⟩, ⟨pid, .worker, true⟩]) = [⟨pid, .worker, true⟩] := by
    simp [Children.die, Children.reap, hne]
  have hzombie : Children.Zombie (Children.die (pid + 1)
      [⟨pid + 1, Kind.other, true⟩, ⟨pid, .worker, true⟩]) (pid + 1) := by
    simp [Children.die, Children.Zombie]
  have h12 := quiet h11 (.main rfl (.pclose rfl hzombie)) trivial
  exact hchildren ▸ h12

/-- The keyword is found once more. -/
theorem sampleFound_step {pid tries : Int} {log : List Event} :
    (lts ⟨false, true⟩ ⟨[70], 1⟩).step
      ⟨sampleDaemon [⟨pid, .worker, true⟩] pid pid true .checked, tries, log⟩ (.check [70] [])
      ⟨sampleDaemon [⟨pid, .worker, true⟩] pid pid true
        (if (checkJVM 1 true tries).1 = 1 then .killTest else .loopTest),
        (checkJVM 1 true tries).2, events true (checkJVM 1 true tries).1 ++ log⟩ := by
  have hfound : true = strstr (bash_buffer [70] []) [70] := by decide +kernel
  refine .check hfound rfl ⟨rfl, rfl, _, rfl⟩ (.main rfl ?_)
  have hstep : DaemonState.MainStep ⟨false, true⟩
    (sampleDaemon [⟨pid, .worker, true⟩] pid pid true .checked)
    (.choose ((checkJVM 1 true tries).1 = 1)) _ := .checked rfl
  simp only [decide_eq_true_eq] at hstep
  exact hstep

/-- A worker dies after one check, and the next one is killed after its first check. -/
theorem row_survives_fork : ∃ x, (lts ⟨false, true⟩ ⟨[70], 1⟩).Reach x ∧ x.daemon.main = .kill ∧
    x.daemon.wpid = 60 ∧ x.log = [.restart, .keyword, .keyword] := by
  have h0 : (lts ⟨false, true⟩ ⟨[70], 1⟩).Reach ⟨.new, 0, []⟩ := .init rfl
  have h1 := quiet h0 (.main rfl (.top rfl)) trivial
  have h2 := quiet h1 (.main rfl (.assignM rfl)) trivial
  have h3 := quiet h2 (.main rfl (.testM rfl)) trivial
  have h4 : (lts ⟨false, true⟩ ⟨[70], 1⟩).Reach
      ⟨sampleDaemon [⟨50, .worker, true⟩] 50 50 true .loopTest, 1, [.keyword]⟩ :=
    (sampleFork_reach (by decide) h3).step sampleFound_step
  have h5 := quiet h4 (.env (.die List.mem_cons_self rfl)) trivial
  have h6 := quiet h5 (.env (.sigchld rfl rfl)) trivial
  have hzombie : Children.Zombie [⟨50, Kind.worker, false⟩] 50 := by decide
  have h7 := quiet h6 (.chld rfl (.wait hzombie)) trivial
  have hreaped : (lts ⟨false, true⟩ ⟨[70], 1⟩).Reach ⟨{
    sampleDaemon [] 50 50 false .loopTest with
      frames := [.chld (.reaped 50)] }, 1, [.keyword]⟩ := h7
  have h8 := quiet hreaped (.chld rfl .reaped) trivial
  have h9 := quiet h8 (.chld rfl .readWp) trivial
  have h10 := quiet h9 (.chld rfl .test) trivial
  have h11 := quiet h10 (.chld rfl .killW) trivial
  have h12 := quiet h11 (.chld rfl (.waitWNone nofun)) trivial
  have hwaited : (lts ⟨false, true⟩ ⟨[70], 1⟩).Reach ⟨{
    sampleDaemon [] 50 50 false .loopTest with
      frames := [.chld .clearWp] }, 1, [.keyword]⟩ := h12
  have h13 := quiet hwaited (.chld rfl .clearWp) trivial
  have h14 := quiet h13 (.chld rfl .clearWpid) trivial
  have h15 := quiet h14 (.chld rfl (.ret fun _ ⟨_, hc, _⟩ => nomatch hc)) trivial
  have hreturned : (lts ⟨false, true⟩ ⟨[70], 1⟩).Reach
    ⟨sampleDaemon [] 0 (-1) false .loopTest, 1, [.keyword]⟩ := h15
  have h16 := quiet hreturned (.main rfl (.loopTest rfl)) trivial
  have h17 := quiet h16 (.main rfl (.top rfl)) trivial
  have h18 := quiet h17 (.main rfl (.assignM rfl)) trivial
  have h19 := quiet h18 (.main rfl (.testM rfl)) trivial
  have h20 : (lts ⟨false, true⟩ ⟨[70], 1⟩).Reach
      ⟨sampleDaemon [⟨60, .worker, true⟩] 60 60 true .killTest, 0,
        [.restart, .keyword, .keyword]⟩ :=
    (sampleFork_reach (by decide) h19).step sampleFound_step
  have h21 := quiet h20 (.main rfl (.killTest rfl)) trivial
  exact ⟨_, h21, rfl, rfl, rfl⟩

theorem restarts_exact_sample :
    ∃ x, (lts ⟨false, true⟩ ⟨[70], 1⟩).Reach x ∧ ∃ post, x.log = .restart :: post := by
  obtain ⟨x, hreach, hkill, -⟩ := row_survives_fork
  exact ⟨x, hreach, (restarts_exact (by decide) hreach).2.2 hkill⟩

end CheckedState

end DevTools.Daemon
