import DevTools.Lib.Children
import DevTools.Lib.Transition

/-!
# The supervision loop of the daemon

The daemon forks a master and a worker and restarts them when they die. The main loop can be
interrupted at any point by `sigchld_handler` and `sigterm_handler`, and the two can interrupt each
other; `signal` keeps a signal blocked while its own handler runs. Both work on the same variables,
and on `shm->wp.pid` in shared memory.

* `MainStep`, `ChldStep` and `TermStep` are the instructions of the loop and of the handlers, as far
  as they read or write something that another one of them writes.
* `EnvStep` is what happens around the daemon: children die, signals arrive, and a JVM writes
  `shm->dp.status`.

A `kill` changes nothing by itself: a child may die at any time, and a signal may arrive at any
time. No child comes back into the loop: the worker exits, and `callExtJVM` never returns 1.
-/

namespace DevTools.Daemon

/-- What a child was forked for; the others are those of `popen`. -/
inductive Kind
  | master
  | worker
  | other
  deriving DecidableEq, Repr

/-- Where the main loop is. -/
inductive MainPc
  /-- `if(mpid<=0)` -/
  | top
  /-- `shm->dp.status=1` in `forkMaster` -/
  | setStatus
  /-- `shm->mp.pid=0` -/
  | clearMp
  /-- `fork()` in `forkMaster` -/
  | forkM
  /-- `shm->mp.pid=spid` -/
  | storeMp (spid : Int)
  /-- `mpid=forkMaster(conf)` -/
  | assignM (spid : Int)
  /-- `if(mpid<0)` -/
  | testM
  /-- `while(shm->dp.status==1 && !shutdown)` -/
  | wait
  /-- `if(shutdown)break` -/
  | checkShutdown
  /-- `wpid=shm->wp.pid` -/
  | readWp
  /-- `if(wpid<=0)`, the restart test -/
  | test
  /-- `shm->wp.pid=0` in `forkWork` -/
  | clearWp
  /-- `fork()` in `forkWork` -/
  | forkW
  /-- `shm->wp.pid=wpid`, with the local `wpid` of `forkWork` -/
  | storeWp (wpid : Int)
  /-- `wpid=forkWork(conf)` -/
  | assignW (wpid : Int)
  /-- `if(wpid<=0)` after `forkWork` -/
  | testForked
  /-- `wpid=shm->wp.pid` in the `else` branch -/
  | rereadWp
  /-- `popen` in `checkJVM` -/
  | checkJVM
  /-- `pclose` -/
  | pclose (pid : Int)
  /-- `if(checkJVM(conf)==1)` -/
  | checked
  /-- `if(wpid > 0)` -/
  | killTest
  /-- `kill(wpid,15)` -/
  | kill
  /-- `while(wpid == shm->mp.pid)` -/
  | spin
  /-- `while (!shutdown)` -/
  | loopTest
  /-- `if(shm->mp.pid>0)` -/
  | finish
  /-- `kill(shm->mp.pid,9)` -/
  | finishKill
  | exited
  deriving DecidableEq, Repr

/-- Where `sigchld_handler` is, with its local `pid`. -/
inductive ChldPc
  /-- `while((pid = waitpid(-1, NULL, WNOHANG)) > 0)` -/
  | loop
  /-- `if(pid==mpid)` -/
  | reaped (pid : Int)
  /-- `kill(mpid,15)` -/
  | killM
  /-- `pid = waitpid(mpid, NULL, 0)` -/
  | waitM
  /-- `shm->mp.pid=0` -/
  | clearMp (pid : Int)
  /-- `mpid=-1` -/
  | clearMpid (pid : Int)
  /-- `wpid = shm->wp.pid` -/
  | readWp (pid : Int)
  /-- `if(pid==wpid || pid==mpid)` -/
  | test (pid : Int)
  /-- `kill(wpid,15)` -/
  | killW
  /-- `pid = waitpid(wpid, NULL, 0)` -/
  | waitW
  /-- `shm->wp.pid=0` -/
  | clearWp
  /-- `wpid=-1` -/
  | clearWpid
  deriving DecidableEq, Repr

/-- Where `sigterm_handler` is. -/
inductive TermPc
  /-- `count_sigterm++` and its tests -/
  | enter
  /-- `if(timer/1000000 > jvmExitTimeout)` -/
  | timeout
  /-- `kill(shm->wp.pid,9)` -/
  | killTimeout
  /-- `shutdown=1` -/
  | setShutdown
  /-- `if(shm->wp.pid>0)` -/
  | testWp
  /-- `kill(shm->wp.pid,15)` -/
  | killWp
  deriving DecidableEq, Repr

/-- A handler that is running. -/
inductive Frame
  | chld (pc : ChldPc)
  | term (pc : TermPc)
  deriving DecidableEq, Repr

def Frame.isChld : Frame → Bool
  | chld _ => true
  | term _ => false

/-- The configuration: is there a class for the master, and a command for `checkJVM`? -/
structure Conf where
  ext : Bool
  checks : Bool

/-- The daemon and its children. `wp`, `mp` and `status` are `shm->wp.pid`, `shm->mp.pid` and
`shm->dp.status`; the innermost handler comes first in `frames`; `pending` says that a `SIGCHLD` has
not been handled yet. -/
structure DaemonState where
  children : Children Kind
  wp : Int
  mp : Int
  status : Int
  wpid : Int
  mpid : Int
  shutdown : Bool
  count_sigterm : Nat
  pending : Bool
  main : MainPc
  frames : List Frame
  deriving DecidableEq

/-- What a step depends on: the result of `fork` or `waitpid`, the outcome of a test of the clock
or of `checkJVM`, or what happens around the daemon. -/
inductive Act
  | next
  | fork (pid : Int)
  | forkFails
  | reap (pid : Int)
  | choose (yes : Bool)
  | die (pid : Int)
  | raise
  | sigchld
  | sigterm
  | notify (status : Int)
  deriving DecidableEq, Repr

namespace DaemonState

/-- The shared memory has just been created. -/
def new : DaemonState := ⟨[], 0, 0, 0, -1, -1, false, 0, false, .top, []⟩

/-! ## The main loop -/

inductive MainStep (conf : Conf) (s : DaemonState) : Act → DaemonState → Prop
  | top : s.main = .top → MainStep conf s .next
      { s with main := if s.mpid ≤ 0 then (if conf.ext then .setStatus else .assignM 0) else .wait }
  | setStatus : s.main = .setStatus →
      MainStep conf s .next { s with status := 1, main := .clearMp }
  | clearMp : s.main = .clearMp → MainStep conf s .next { s with mp := 0, main := .forkM }
  | forkM {pid : Int} : s.main = .forkM → s.children.Fresh pid → MainStep conf s (.fork pid)
      { s with children := ⟨pid, .master, true⟩ :: s.children, main := .storeMp pid }
  | forkMFails : s.main = .forkM → MainStep conf s .forkFails { s with main := .exited }
  | storeMp {spid : Int} : s.main = .storeMp spid →
      MainStep conf s .next { s with mp := spid, main := .assignM spid }
  | assignM {spid : Int} : s.main = .assignM spid →
      MainStep conf s .next { s with mpid := spid, main := .testM }
  | testM : s.main = .testM →
      MainStep conf s .next { s with main := if s.mpid < 0 then .loopTest else .wait }
  | wait : s.main = .wait → MainStep conf s .next
      { s with main := if s.status = 1 ∧ s.shutdown = false then .wait else .checkShutdown }
  | checkShutdown : s.main = .checkShutdown →
      MainStep conf s .next { s with main := if s.shutdown then .finish else .readWp }
  | readWp : s.main = .readWp → MainStep conf s .next { s with wpid := s.wp, main := .test }
  | test : s.main = .test →
      MainStep conf s .next { s with main := if s.wpid ≤ 0 then .clearWp else .rereadWp }
  | clearWp : s.main = .clearWp → MainStep conf s .next { s with wp := 0, main := .forkW }
  | forkW {pid : Int} : s.main = .forkW → s.children.Fresh pid → MainStep conf s (.fork pid)
      { s with children := ⟨pid, .worker, true⟩ :: s.children, main := .storeWp pid }
  | forkWFails : s.main = .forkW → MainStep conf s .forkFails { s with main := .exited }
  | storeWp {wpid : Int} : s.main = .storeWp wpid →
      MainStep conf s .next { s with wp := wpid, main := .assignW wpid }
  | assignW {wpid : Int} : s.main = .assignW wpid →
      MainStep conf s .next { s with wpid := wpid, main := .testForked }
  | testForked : s.main = .testForked →
      MainStep conf s .next { s with main := if s.wpid ≤ 0 then .loopTest else .checkJVM }
  | rereadWp : s.main = .rereadWp →
      MainStep conf s .next { s with wpid := s.wp, main := .checkJVM }
  | noChecks : s.main = .checkJVM → conf.checks = false →
      MainStep conf s .next { s with main := .loopTest }
  | popen {pid : Int} : s.main = .checkJVM → conf.checks → s.children.Fresh pid →
      MainStep conf s (.fork pid)
        { s with children := ⟨pid, .other, true⟩ :: s.children, main := .pclose pid }
  | popenFails : s.main = .checkJVM → conf.checks →
      MainStep conf s .forkFails { s with main := .loopTest }
  | pclose {pid : Int} : s.main = .pclose pid → s.children.Zombie pid →
      MainStep conf s (.reap pid) { s with children := s.children.reap pid, main := .checked }
  | pcloseNone {pid : Int} : s.main = .pclose pid → pid ∉ s.children.pids →
      MainStep conf s .next { s with main := .checked }
  | checked {yes : Bool} : s.main = .checked →
      MainStep conf s (.choose yes) { s with main := if yes then .killTest else .loopTest }
  | killTest : s.main = .killTest →
      MainStep conf s .next { s with main := if 0 < s.wpid then .kill else .loopTest }
  | kill : s.main = .kill → MainStep conf s .next { s with main := .spin }
  | spin : s.main = .spin →
      MainStep conf s .next { s with main := if s.wpid = s.mp then .spin else .loopTest }
  | loopTest : s.main = .loopTest →
      MainStep conf s .next { s with main := if s.shutdown then .finish else .top }
  | finish : s.main = .finish →
      MainStep conf s .next { s with main := if 0 < s.mp then .finishKill else .exited }
  | finishKill : s.main = .finishKill → MainStep conf s .next { s with main := .exited }

/-! ## The handlers -/

inductive ChldStep (s : DaemonState) (rest : List Frame) : ChldPc → Act → DaemonState → Prop
  | wait {pid : Int} : s.children.Zombie pid → ChldStep s rest .loop (.reap pid)
      { s with children := s.children.reap pid, frames := .chld (.reaped pid) :: rest }
  | ret : (∀ pid, ¬ s.children.Zombie pid) →
      ChldStep s rest .loop .next { s with frames := rest }
  | reaped {pid : Int} : ChldStep s rest (.reaped pid) .next
      { s with frames := .chld (if pid = s.mpid then .killM else .readWp pid) :: rest }
  | killM : ChldStep s rest .killM .next { s with frames := .chld .waitM :: rest }
  | waitM {pid : Int} : s.children.Zombie pid → Children.Waits s.mpid pid →
      ChldStep s rest .waitM (.reap pid)
        { s with children := s.children.reap pid, frames := .chld (.clearMp pid) :: rest }
  | waitMNone : (∀ pid ∈ s.children.pids, ¬ Children.Waits s.mpid pid) →
      ChldStep s rest .waitM .next { s with frames := .chld (.clearMp (-1)) :: rest }
  | clearMp {pid : Int} : ChldStep s rest (.clearMp pid) .next
      { s with mp := 0, frames := .chld (.clearMpid pid) :: rest }
  | clearMpid {pid : Int} : ChldStep s rest (.clearMpid pid) .next
      { s with mpid := -1, frames := .chld (.readWp pid) :: rest }
  | readWp {pid : Int} : ChldStep s rest (.readWp pid) .next
      { s with wpid := s.wp, frames := .chld (.test pid) :: rest }
  | test {pid : Int} : ChldStep s rest (.test pid) .next
      { s with frames := .chld (if pid = s.wpid ∨ pid = s.mpid then .killW else .loop) :: rest }
  | killW : ChldStep s rest .killW .next { s with frames := .chld .waitW :: rest }
  | waitW {pid : Int} : s.children.Zombie pid → Children.Waits s.wpid pid →
      ChldStep s rest .waitW (.reap pid)
        { s with children := s.children.reap pid, frames := .chld .clearWp :: rest }
  | waitWNone : (∀ pid ∈ s.children.pids, ¬ Children.Waits s.wpid pid) →
      ChldStep s rest .waitW .next { s with frames := .chld .clearWp :: rest }
  | clearWp : ChldStep s rest .clearWp .next
      { s with wp := 0, frames := .chld .clearWpid :: rest }
  | clearWpid : ChldStep s rest .clearWpid .next
      { s with wpid := -1, frames := .chld .loop :: rest }

inductive TermStep (s : DaemonState) (rest : List Frame) : TermPc → Act → DaemonState → Prop
  | first : s.count_sigterm = 0 → TermStep s rest .enter .next
      { s with count_sigterm := 1, frames := .term .setShutdown :: rest }
  | later : s.count_sigterm ≠ 0 → TermStep s rest .enter .next
      { s with count_sigterm := s.count_sigterm + 2,
               frames := .term (if (s.count_sigterm + 1) % 10000 = 0 then .setShutdown
                 else .timeout) :: rest }
  | timeout : TermStep s rest .timeout (.choose true)
      { s with frames := .term .killTimeout :: rest }
  | killTimeout : TermStep s rest .killTimeout .next { s with frames := rest }
  | inTime : TermStep s rest .timeout (.choose false)
      { s with frames := .term .setShutdown :: rest }
  | setShutdown : TermStep s rest .setShutdown .next
      { s with shutdown := true, frames := .term .testWp :: rest }
  | testWp : 0 < s.wp → TermStep s rest .testWp .next { s with frames := .term .killWp :: rest }
  | testWpNone : ¬ 0 < s.wp → TermStep s rest .testWp .next { s with frames := rest }
  | killWp : TermStep s rest .killWp .next { s with frames := rest }

/-! ## The environment -/

inductive EnvStep (s : DaemonState) : Act → DaemonState → Prop
  | die {c : Child Kind} : c ∈ s.children → c.alive →
      EnvStep s (.die c.pid) { s with children := s.children.die c.pid, pending := true }
  | raise : EnvStep s .raise { s with pending := true }
  | sigchld : s.pending → s.frames.countP Frame.isChld = 0 →
      EnvStep s .sigchld { s with pending := false, frames := .chld .loop :: s.frames }
  | sigterm : s.frames.countP (!·.isChld) = 0 →
      EnvStep s .sigterm { s with frames := .term .enter :: s.frames }
  | notify {status : Int} : EnvStep s (.notify status) { s with status }

/-- One step of the daemon or of what is around it. -/
inductive Step (conf : Conf) (s : DaemonState) : Act → DaemonState → Prop
  | env {a : Act} {s' : DaemonState} : EnvStep s a s' → Step conf s a s'
  | main {a : Act} {s' : DaemonState} : s.frames = [] → MainStep conf s a s' → Step conf s a s'
  | chld {a : Act} {s' : DaemonState} {pc : ChldPc} {rest : List Frame} :
      s.frames = .chld pc :: rest → ChldStep s rest pc a s' → Step conf s a s'
  | term {a : Act} {s' : DaemonState} {pc : TermPc} {rest : List Frame} :
      s.frames = .term pc :: rest → TermStep s rest pc a s' → Step conf s a s'

def lts (conf : Conf) : LTS DaemonState Act where
  init s := s = new
  step := Step conf

end DaemonState

end DevTools.Daemon
