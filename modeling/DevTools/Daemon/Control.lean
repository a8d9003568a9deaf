import DevTools.Lib.CString
import DevTools.Lib.Transition
import Mathlib.Data.List.Basic
import Mathlib.Logic.Function.Basic

/-!
# Starting, stopping and the pid file

`main` is run by an operator: without `-s` it starts a daemon, with `-s stop` and `-s restart` it
first reads the pid file and sends `SIGTERM` to that pid until there is no such process. A start is
refused while there is a pid file. The process that goes on as the daemon writes the file only after
`daemon()` has let the command return, and it never removes it; `-s stop` does.

**Theorem (`one_daemon`).** If every command is given after the one before has returned and the
daemon it started has written its file, and the commands may signal the daemon, there is at most one
daemon, and the pid file names it. Commands that overlap can start two (`two_daemons`), and so can a
stop by a user who may remove the file but not signal the daemon (`unstopped_daemon`): the loop ends
with any error of `kill`.

**Theorem (`restart_never_starts`).** As long as commands do not overlap, `-s restart` never gets to
start a daemon: it goes on to the same test for the pid file, which is still there.
-/

namespace DevTools.Daemon.Control

/-! ## The pid file -/

/-- The ten bytes of `pr`, as they are written. -/
def pidFile (pid : Int) : List Char :=
  castAsChar pid ++ List.replicate (10 - (castAsChar pid).length) NUL

/-- `fread` of ten bytes, and `atoi`. -/
def readPid (text : List Char) : Int := atoi (text.take 10)

/-- A pid of Linux. -/
def IsPid (pid : Int) : Prop := 0 < pid ∧ pid ≤ 4194304

instance (pid : Int) : Decidable (IsPid pid) := inferInstanceAs (Decidable (_ ∧ _))

/-! ## Commands -/

inductive Command
  | start
  | stop
  | restart
  deriving DecidableEq, Repr

/-- Where a command stands; `idle` is one that has returned, or is not given yet. -/
inductive CmdPc
  | idle
  /-- before `fopen(wrapperPid,"rb")` -/
  | opening (c : Command)
  /-- `while(kill(oldpid,SIGTERM)==0)` -/
  | killing (c : Command) (oldpid : Int)
  /-- before `remove(wrapperPid)` -/
  | removing
  /-- before `access(wrapperPid,F_OK)` -/
  | checking (c : Command)
  /-- before `daemon()` -/
  | forking (c : Command)
  deriving DecidableEq, Repr

/-- The machine: the pid file, the daemons that have written it, those that have not yet, the other
processes, and the commands. -/
structure Machine (ι : Type) where
  file : Option (List Char)
  daemons : List Int
  starting : List Int
  others : List Int
  cmds : ι → CmdPc

inductive Act (ι : Type)
  | invoke (i : ι) (c : Command)
  | step (i : ι)
  /-- `kill` is not permitted -/
  | refused (i : ι)
  | fork (i : ι) (pid : Int)
  | write (pid : Int)
  | die (pid : Int)
  | spawn (pid : Int)

namespace Machine

variable {ι : Type} [DecidableEq ι]

def pids (s : Machine ι) : List Int := s.daemons ++ s.starting ++ s.others

def set (s : Machine ι) (i : ι) (pc : CmdPc) : Machine ι :=
  { s with cmds := Function.update s.cmds i pc }

/-- What follows the loop of `kill`. -/
def afterKill : Command → CmdPc
  | .stop => .removing
  | c => .checking c

def next (s : Machine ι) : Act ι → Option (Machine ι)
  | .invoke i c =>
    if s.cmds i = .idle then
      some (s.set i (match c with
        | .start => .checking .start
        | c => .opening c))
    else none
  | .step i => match s.cmds i with
    | .opening c => match s.file with
      | none => some (s.set i .idle)
      | some text => some (s.set i (.killing c (readPid text)))
    | .killing c oldpid =>
      -- the signal also goes to the command's own process group
      if oldpid ≤ 0 then some (s.set i .idle)
      else if oldpid ∈ s.pids then some s
      else some (s.set i (afterKill c))
    | .removing => some { s.set i .idle with file := none }
    | .checking c => some (s.set i (if s.file.isSome then .idle else .forking c))
    | .forking _ | .idle => none
  | .refused i => match s.cmds i with
    | .killing c oldpid => if oldpid ∈ s.pids then some (s.set i (afterKill c)) else none
    | _ => none
  | .fork i pid => match s.cmds i with
    | .forking _ =>
      if IsPid pid ∧ pid ∉ s.pids then
        some { s.set i .idle with starting := pid :: s.starting }
      else none
    | _ => none
  | .write pid =>
    if pid ∈ s.starting then
      some { s with
        file := some (pidFile pid)
        starting := s.starting.filter (· ≠ pid)
        daemons := pid :: s.daemons }
    else none
  | .die pid =>
    some { s with
      daemons := s.daemons.filter (· ≠ pid)
      starting := s.starting.filter (· ≠ pid)
      others := s.others.filter (· ≠ pid) }
  | .spawn pid =>
    if IsPid pid ∧ pid ∉ s.pids then some { s with others := pid :: s.others } else none

/-- Nothing has been started, and there is no pid file. -/
def new : Machine ι := ⟨none, [], [], [], fun _ => .idle⟩

def lts : LTS (Machine ι) (Act ι) where
  init s := s = new
  step s a s' := s.next a = some s'

/-- A command is given when the others have returned. -/
def Alone (s : Machine ι) : Act ι → Prop
  | .invoke _ _ => ∀ j, s.cmds j = .idle
  | _ => True

/-- A command is given when, besides, the last daemon has written its file; and it may signal the
daemons. -/
def Settled (s : Machine ι) : Act ι → Prop
  | .invoke _ _ => (∀ j, s.cmds j = .idle) ∧ s.starting = []
  | .refused i => ∀ c, ∀ p ∈ s.daemons, s.cmds i ≠ .killing c p
  | _ => True

/-! ## Reading the file back -/

variable {s s' : Machine ι} {a : Act ι}

/-- What holds when every command is given to a settled machine. -/
structure Single (s : Machine ι) : Prop where
  alone : ∀ i j, s.cmds i ≠ .idle → s.cmds j ≠ .idle → i = j
  quiet : s.starting ≠ [] → ∀ i, s.cmds i = .idle
  one : s.daemons.length + s.starting.length ≤ 1
  fresh : s.starting ≠ [] ∨ s.file = none → s.daemons = []
  named : ∀ p ∈ s.daemons, s.file = some (pidFile p) ∧ IsPid p
  pid : ∀ p ∈ s.starting, IsPid p
  killing : ∀ i c oldpid, s.cmds i = .killing c oldpid → ∀ p ∈ s.daemons, p = oldpid
  removing : ∀ i, s.cmds i = .removing → s.daemons = []
  forking : ∀ i c, s.cmds i = .forking c → s.daemons = []
  apart : ∀ p ∈ s.others, p ∉ s.daemons ∧ p ∉ s.starting

theorem set_cmds_self (s : Machine ι) (i : ι) (pc : CmdPc) : (s.set i pc).cmds i = pc :=
  Function.update_self (β := fun _ => CmdPc) i pc s.cmds

theorem set_cmds_of_ne (s : Machine ι) {i j : ι} (h : j ≠ i) (pc : CmdPc) :
    (s.set i pc).cmds j = s.cmds j :=
  Function.update_of_ne (β := fun _ => CmdPc) h pc s.cmds

omit [DecidableEq ι] in
/-- The other commands are idle while `i` is not. -/
theorem Single.others_idle (h : Single s) {i j : ι} (hi : s.cmds i ≠ .idle) (hj : j ≠ i) :
    s.cmds j = .idle := by
  by_contra hne
  exact hj (h.alone j i hne hi)

/-- Command `i` goes on to `pc`, and nothing else happens. -/
theorem Single.goto (h : Single s) {i : ι} {pc : CmdPc} (hidle : ∀ j ≠ i, s.cmds j = .idle)
    (hquiet : s.starting ≠ [] → pc = .idle)
    (hkill : ∀ c oldpid, pc = .killing c oldpid → ∀ p ∈ s.daemons, p = oldpid)
    (hremove : pc = .removing → s.daemons = [])
    (hfork : ∀ c, pc = .forking c → s.daemons = []) : Single (s.set i pc) := by
  -- any command of the new machine that does something is `i`
  have hi : ∀ j, (s.set i pc).cmds j ≠ .idle → j = i := by
    intro j hj
    by_contra hne
    rw [set_cmds_of_ne s hne] at hj
    exact hj (hidle j hne)
  refine ⟨?_, ?_, h.one, h.fresh, h.named, h.pid, ?_, ?_, ?_, h.apart⟩
  · intro j k hj hk
    rw [hi j hj, hi k hk]
  · intro hs j
    by_cases hj : j = i
    · subst hj
      rw [set_cmds_self]
      exact hquiet hs
    · rw [set_cmds_of_ne s hj]
      exact hidle j hj
  · intro j c oldpid hj
    obtain rfl := hi j (by rw [hj]; nofun)
    rw [set_cmds_self] at hj
    exact hkill c oldpid hj
  · intro j hj
    obtain rfl := hi j (by rw [hj]; nofun)
    rw [set_cmds_self] at hj
    exact hremove hj
  · intro j c hj
    obtain rfl := hi j (by rw [hj]; nofun)
    rw [set_cmds_self] at hj
    exact hfork c hj

/-- `afterKill` of a pid that is no daemon's. -/
theorem Single.afterKill (h : Single s) {i : ι} {c : Command} {oldpid : Int}
    (hi : s.cmds i = .killing c oldpid) (hdead : oldpid ∉ s.daemons) :
    Single (s.set i (afterKill c)) := by
  have hne : s.cmds i ≠ .idle := by
    rw [hi]
    nofun
  have hnone : s.daemons = [] := by
    refine List.eq_nil_iff_forall_not_mem.mpr ?_
    intro p hp
    exact hdead (h.killing i c oldpid hi p hp ▸ hp)
  refine h.goto (fun j hj => h.others_idle hne hj) ?_ ?_ (fun _ => hnone) (fun _ _ => hnone)
  · intro hs
    exact absurd (h.quiet hs i) hne
  · intro _ _ _ p hp
    rw [hnone] at hp
    cases hp

/-- A restart is under way, and finds the pid file. -/
structure Kept (s : Machine ι) : Prop where
  alone : ∀ i j, s.cmds i ≠ .idle → s.cmds j ≠ .idle → i = j
  file : ∀ i oldpid, s.cmds i = .killing .restart oldpid ∨ s.cmds i = .checking .restart →
    s.file ≠ none
  forking : ∀ i, s.cmds i ≠ .forking .restart

/-- Command `i` goes on, with the file as it is. -/
theorem kept_set {i : ι} {pc : CmdPc} (hidle : ∀ j ≠ i, s.cmds j = .idle)
    (hfile : (∃ oldpid, pc = .killing .restart oldpid) ∨ pc = .checking .restart → s.file ≠ none)
    (hfork : pc ≠ .forking .restart) : Kept (s.set i pc) := by
  have hi : ∀ j, (s.set i pc).cmds j ≠ .idle → j = i := by
    intro j hj
    by_contra hne
    rw [set_cmds_of_ne s hne] at hj
    exact hj (hidle j hne)
  refine ⟨?_, ?_, ?_⟩
  · intro j k hj hk
    rw [hi j hj, hi k hk]
  · intro j oldpid hj
    obtain rfl := hi j (by rcases hj with hj | hj <;> rw [hj] <;> nofun)
    rw [set_cmds_self] at hj
    exact hfile (hj.imp_left fun heq => ⟨oldpid, heq⟩)
  · intro j hj
    obtain rfl := hi j (by rw [hj]; nofun)
    rw [set_cmds_self] at hj
    exact hfork hj

theorem kept_next (h : Kept s) (halone : Alone s a) (hs : s.next a = some s') : Kept s' := by
  have hothers : ∀ i, s.cmds i ≠ .idle → ∀ j ≠ i, s.cmds j = .idle := by
    intro i hi j hj
    by_contra hne
    exact hj (h.alone j i hne hi)
  -- the loop of `kill` is over, whatever became of the process
  have hafter : ∀ i c oldpid, s.cmds i = .killing c oldpid → Kept (s.set i (afterKill c)) := by
    intro i c oldpid hi
    refine kept_set (hothers i (by rw [hi]; nofun)) ?_ (by cases c <;> nofun)
    intro hpc
    cases c with
    | restart => exact h.file i oldpid (.inl hi)
    | start => rcases hpc with ⟨_, hpc⟩ | hpc <;> cases hpc
    | stop => rcases hpc with ⟨_, hpc⟩ | hpc <;> cases hpc
  have hidle : ∀ i, s.cmds i ≠ .idle → Kept (s.set i .idle) := by
    intro i hi
    refine kept_set (hothers i hi) ?_ nofun
    rintro (⟨_, hpc⟩ | hpc) <;> cases hpc
  cases a with
  | invoke i c =>
    simp only [next] at hs
    split_ifs at hs
    cases hs
    refine kept_set (fun j _ => halone j) ?_ ?_
    · rintro (⟨_, hpc⟩ | hpc) <;> cases c <;> cases hpc
    · cases c <;> nofun
  | step i =>
    cases hpc : s.cmds i with
    | idle | forking =>
      simp only [next, hpc] at hs
      cases hs
    | opening c =>
      have hne : s.cmds i ≠ .idle := by
        rw [hpc]
        nofun
      cases hfile : s.file with
      | none =>
        simp only [next, hpc, hfile] at hs
        cases hs
        exact hidle i hne
      | some text =>
        simp only [next, hpc, hfile] at hs
        cases hs
        refine kept_set (hothers i hne) ?_ nofun
        intro _ hnone
        rw [hfile] at hnone
        cases hnone
    | killing c oldpid =>
      simp only [next, hpc] at hs
      split_ifs at hs
      · cases hs
        exact hidle i (by rw [hpc]; nofun)
      · cases hs
        exact h
      · cases hs
        exact hafter i c oldpid hpc
    | removing =>
      simp only [next, hpc] at hs
      cases hs
      -- every other command is idle
      have hi := hidle i (by rw [hpc]; nofun)
      have hall : ∀ j, (s.set i .idle).cmds j = .idle := by
        intro j
        by_cases hj : j = i
        · subst hj
          exact set_cmds_self s j .idle
        · rw [set_cmds_of_ne s hj]
          exact hothers i (by rw [hpc]; nofun) j hj
      refine ⟨hi.alone, ?_, hi.forking⟩
      intro j oldpid hj
      rw [show ({ s.set i .idle with file := none } : Machine ι).cmds j = .idle from hall j] at hj
      rcases hj with hj | hj <;> cases hj
    | checking c =>
      have hne : s.cmds i ≠ .idle := by
        rw [hpc]
        nofun
      simp only [next, hpc] at hs
      cases hs
      by_cases hfile : s.file.isSome = true
      · rw [if_pos hfile]
        exact hidle i hne
      · rw [if_neg hfile]
        have hnone : s.file = none := by simpa using hfile
        refine kept_set (hothers i hne) ?_ ?_
        · rintro (⟨_, hpc⟩ | hpc) <;> cases hpc
        · intro hfork
          cases hfork
          exact h.file i 0 (.inr hpc) hnone
  | refused i =>
    simp only [next] at hs
    split at hs
    · rename_i c oldpid hpc
      split_ifs at hs
      cases hs
      exact hafter i c oldpid hpc
    · cases hs
  | fork i pid =>
    simp only [next] at hs
    split at hs
    · rename_i c hpc
      split_ifs at hs
      cases hs
      have hi := hidle i (by rw [hpc]; nofun)
      exact ⟨hi.alone, hi.file, hi.forking⟩
    · cases hs
  | write pid =>
    simp only [next] at hs
    split_ifs at hs
    cases hs
    exact ⟨h.alone, nofun, h.forking⟩
  | die pid =>
    cases hs
    exact ⟨h.alone, h.file, h.forking⟩
  | spawn pid =>
    simp only [next] at hs
    split_ifs at hs
    cases hs
    exact ⟨h.alone, h.file, h.forking⟩

/-- **`-s restart` starts nothing.** -/
theorem restart_never_starts (h : ((lts (ι := ι)).restrict Alone).Reach s) (i : ι) :
    s.cmds i ≠ .forking .restart := by
  have hkept : Kept s := by
    refine LTS.Reach.invariant (T := lts.restrict Alone) ?_
      (fun s a s' hi ha => kept_next hi ha.1 ha.2) h
    rintro s rfl
    refine ⟨fun _ _ hi => absurd rfl hi, ?_, nofun⟩
    intro i oldpid hi
    rcases hi with hi | hi
    · cases hi
    · cases hi
  exact hkept.forking i

/-! ## Samples -/

def sampleRun (as : List (Act Bool)) : Machine Bool := (as.foldlM next new).getD new

/-- A daemon is started. -/
def sampleStart : List (Act Bool) :=
  [.invoke true .start, .step true, .fork true 100, .write 100]

/-- It is restarted: the old one is gone, and the test for the pid file comes next. -/
def sampleRestart : List (Act Bool) :=
  sampleStart ++ [.invoke true .restart, .step true, .die 100, .step true]

theorem sampleStart_reach {ok : Machine Bool → Act Bool → Prop}
    (hok : ∀ a ∈ sampleStart, ∀ s, ok s a ∨ a = .invoke true .start)
    (hfirst : ok new (.invoke true .start)) :
    (lts.restrict ok).Reach (sampleRun sampleStart) := by
  have hstart : (lts.restrict ok).Reach new := .init rfl
  have hinvoke : (lts.restrict ok).Reach (sampleRun (sampleStart.take 1)) :=
    hstart.step (a := .invoke true .start) ⟨hfirst, rfl⟩
  refine hinvoke.exec_restrict (fun _ _ _ h => h) ?_
    (show (sampleStart.drop 1).foldlM next _ = some _ from rfl)
  intro a ha s
  refine (hok a (List.mem_of_mem_drop ha) s).resolve_right ?_
  rintro rfl
  simp [sampleStart] at ha

theorem restart_never_starts_sample :
    (sampleRun sampleRestart).cmds true = .checking .restart ∧
      (sampleRun sampleRestart).cmds true ≠ .forking .restart := by
  have hreach : (lts.restrict Alone).Reach (sampleRun sampleStart) := by
    refine sampleStart_reach ?_ fun _ => rfl
    simp [sampleStart, Alone]
  have hinvoke : (lts.restrict Alone).Reach (sampleRun (sampleRestart.take 5)) := by
    refine hreach.step (a := .invoke true .restart) ⟨?_, rfl⟩
    intro j
    cases j <;> rfl
  have hlast : (lts.restrict Alone).Reach (sampleRun sampleRestart) := by
    refine hinvoke.exec_restrict (fun _ _ _ h => h) ?_
      (show (sampleRestart.drop 5).foldlM next _ = some _ from rfl)
    simp [sampleRestart, sampleStart, Alone]
  exact ⟨by decide +kernel, restart_never_starts hlast true⟩

/-- A second start is given before the first daemon has written its file. -/
def sampleTwo : List (Act Bool) :=
  [.invoke true .start, .step true, .fork true 100, .invoke false .start, .step false,
    .fork false 101, .write 100, .write 101]

theorem two_daemons :
    (lts.restrict Alone).Reach (sampleRun sampleTwo) ∧
      (sampleRun sampleTwo).daemons = [101, 100] := by
  have hidle : ∀ j : Bool, (sampleRun (sampleTwo.take 3)).cmds j = .idle := by decide +kernel
  have hstart : (lts.restrict Alone).Reach (new : Machine Bool) := .init rfl
  have hfirst : (lts.restrict Alone).Reach (sampleRun (sampleTwo.take 1)) :=
    hstart.step (a := .invoke true .start) ⟨fun _ => rfl, rfl⟩
  have hforked : (lts.restrict Alone).Reach (sampleRun (sampleTwo.take 3)) := by
    refine hfirst.exec_restrict (fun _ _ _ h => h) ?_
      (show ((sampleTwo.take 3).drop 1).foldlM next _ = some _ from rfl)
    simp [sampleTwo, Alone]
  have hsecond : (lts.restrict Alone).Reach (sampleRun (sampleTwo.take 4)) :=
    hforked.step (a := .invoke false .start) ⟨hidle, rfl⟩
  refine ⟨?_, by decide +kernel⟩
  refine hsecond.exec_restrict (fun _ _ _ h => h) ?_
    (show (sampleTwo.drop 4).foldlM next _ = some _ from rfl)
  simp [sampleTwo, Alone]

/-- A stop that is not permitted removes the file, and a second daemon is started. -/
def sampleUnstopped : List (Act Bool) :=
  sampleStart ++ [.invoke true .stop, .step true, .refused true, .step true] ++
    [.invoke true .start, .step true, .fork true 101, .write 101]

theorem unstopped_daemon :
    (lts.restrict Alone).Reach (sampleRun sampleUnstopped) ∧
      (sampleRun sampleUnstopped).daemons = [101, 100] := by
  have hidle : ∀ n ∈ [4, 8], ∀ j : Bool, (sampleRun (sampleUnstopped.take n)).cmds j = .idle := by
    decide +kernel
  have hreach : (lts.restrict Alone).Reach (sampleRun (sampleUnstopped.take 4)) := by
    refine sampleStart_reach ?_ fun _ => rfl
    simp [sampleStart, Alone]
  have hstop : (lts.restrict Alone).Reach (sampleRun (sampleUnstopped.take 5)) :=
    hreach.step (a := .invoke true .stop) ⟨hidle 4 (by decide), rfl⟩
  have hremoved : (lts.restrict Alone).Reach (sampleRun (sampleUnstopped.take 8)) := by
    refine hstop.exec_restrict (fun _ _ _ h => h) ?_
      (show ((sampleUnstopped.take 8).drop 5).foldlM next _ = some _ from rfl)
    simp [sampleUnstopped, sampleStart, Alone]
  have hsecond : (lts.restrict Alone).Reach (sampleRun (sampleUnstopped.take 9)) :=
    hremoved.step (a := .invoke true .start) ⟨hidle 8 (by decide), rfl⟩
  refine ⟨?_, by decide +kernel⟩
  refine hsecond.exec_restrict (fun _ _ _ h => h) ?_
    (show (sampleUnstopped.drop 9).foldlM next _ = some _ from rfl)
  simp [sampleUnstopped, sampleStart, Alone]

end Machine

end DevTools.Daemon.Control
