import DevTools.Lib.Stdio
import Mathlib.Logic.Function.Basic

/-!
# `parse_properties`

The configuration file is read twice. The first pass takes the scalar values and finds out how long
the four lists in brackets are; between the passes their arrays are allocated, and the second pass
fills them. A line is what one `fgets` takes, at most 2047 characters of it.

The line is read to where `line` points, which is `_line` at first. Every key with a value moves
`line` behind the `=`, for good. So `_line` is a memory here, and `line` a position in it; both
passes read into it. The memory has no end: whether a line that is read is inside of the 2048 bytes
of `_line` is `InBuffer`, and nothing is said about a line that is not.

What is not initialised is `Uninit`. The numbers are left out: they go through an array on the stack
that may not be terminated, and nothing here depends on them. The byte before a block of memory is
taken not to be a blank, and a store outside of an array not to stop the second pass.
-/

namespace DevTools.Daemon

/-! ## Lines -/

/-- The keys with a text. -/
inductive StringKey
  | K_NAME
  | K_VM_WORKDIR
  | K_PID
  | K_LOGFILE
  | K_VM_CHECKS_CMD
  | K_VM_CHECKS_KEYWORD
  | K_MAIN_CLASS
  | K_EXT_MAIN_CLASS
  deriving DecidableEq, Repr

inductive BoolKey
  | K_VM_STDOUT
  | K_VM_DAEMON
  | K_DEBUG
  deriving DecidableEq, Repr

inductive NumberKey
  | K_VM_EXIT_TIMEOUT
  | K_VM_CHECKS_INTERVAL
  | K_VM_CHECKS_RETRYTIMES
  deriving DecidableEq, Repr

/-- The keys with a list. -/
inductive ListKey
  | K_MAIN_ARGS
  | K_EXT_MAIN_ARGS
  | K_VM_OPTIONS
  | K_EXT_VM_OPTIONS
  deriving DecidableEq, Repr

def StringKey.key : StringKey → String
  | .K_NAME => "wrapper.name"
  | .K_VM_WORKDIR => "wrapper.workdir"
  | .K_PID => "wrapper.pid"
  | .K_LOGFILE => "wrapper.logfile"
  | .K_VM_CHECKS_CMD => "wrapper.checks.cmd"
  | .K_VM_CHECKS_KEYWORD => "wrapper.checks.keyword"
  | .K_MAIN_CLASS => "wrapper.work.main.class"
  | .K_EXT_MAIN_CLASS => "wrapper.master.main.class"

def BoolKey.key : BoolKey → String
  | .K_VM_STDOUT => "wrapper.work.stdout"
  | .K_VM_DAEMON => "wrapper.work.daemon"
  | .K_DEBUG => "wrapper.debug"

def NumberKey.key : NumberKey → String
  | .K_VM_EXIT_TIMEOUT => "wrapper.jvm_exit.timeout"
  | .K_VM_CHECKS_INTERVAL => "wrapper.checks.interval"
  | .K_VM_CHECKS_RETRYTIMES => "wrapper.checks.retryTimes"

def ListKey.key : ListKey → String
  | .K_MAIN_ARGS => "wrapper.work.main.args"
  | .K_EXT_MAIN_ARGS => "wrapper.master.main.args"
  | .K_VM_OPTIONS => "wrapper.work.vm.options"
  | .K_EXT_VM_OPTIONS => "wrapper.master.vm.options"

/-- Which branch a line takes. -/
inductive Line
  | bool (k : BoolKey)
  | string (k : StringKey)
  | number (k : NumberKey)
  | list (k : ListKey)
  /-- `[` -/
  | opens
  /-- `]` -/
  | closes
  /-- `#` -/
  | comment
  | other
  deriving DecidableEq, Repr

def boolBranch (k : BoolKey) : List Char × Line := (k.key.toList, .bool k)
def stringBranch (k : StringKey) : List Char × Line := (k.key.toList, .string k)
def numberBranch (k : NumberKey) : List Char × Line := (k.key.toList, .number k)
def listBranch (k : ListKey) : List Char × Line := (k.key.toList, .list k)

/-- The branches of the second pass. -/
def listBranches : List (List Char × Line) :=
  [listBranch .K_MAIN_ARGS, listBranch .K_EXT_MAIN_ARGS, listBranch .K_VM_OPTIONS,
   listBranch .K_EXT_VM_OPTIONS, (['['], .opens), ([']'], .closes), (['#'], .comment)]

/-- The branches of the first pass. -/
def branches : List (List Char × Line) :=
  [boolBranch .K_VM_STDOUT, boolBranch .K_VM_DAEMON, stringBranch .K_VM_WORKDIR,
   stringBranch .K_LOGFILE, stringBranch .K_NAME, stringBranch .K_PID, boolBranch .K_DEBUG,
   numberBranch .K_VM_EXIT_TIMEOUT, stringBranch .K_VM_CHECKS_CMD,
   stringBranch .K_VM_CHECKS_KEYWORD, numberBranch .K_VM_CHECKS_INTERVAL,
   numberBranch .K_VM_CHECKS_RETRYTIMES, stringBranch .K_MAIN_CLASS,
   stringBranch .K_EXT_MAIN_CLASS] ++ listBranches

/-- The first branch whose `strncmp` is 0. -/
def branchOf (branches : List (List Char × Line)) (line : List Char) : Line :=
  match branches.find? fun b => b.1.isPrefixOf line with
  | some b => b.2
  | none => .other

/-! ## Values -/

/-- The loop `for(begin = line; *begin != '=' && equal <= length; begin ++)`. -/
def equalLoop : List Char → Nat → Nat
  | [], equal => equal
  | c :: rest, equal => if c = '=' then equal else equalLoop rest (equal + 1)

/-- `equal` after the loop: one more than the position of the `=`, or than the length. -/
def equalOf (line : List Char) : Nat := equalLoop line 1

/-- What `del_tail` removes. -/
def isBlank (c : Char) : Bool := c = ' ' || c = '\t' || c = '\n'

/-- A block of memory with a string. -/
structure Block where
  bytes : List Char
  /-- `del_tail` has looked in front of the block -/
  under : Bool
  deriving DecidableEq, Repr

/-- The loop of `del_tail`; the first argument is `p + 1 - str`. -/
def delTailLoop : Nat → List Char → Block
  | 0, str => ⟨str, true⟩
  | p + 1, str => if isBlank (str.getD p NUL) then delTailLoop p (str.set p NUL) else ⟨str, false⟩

/-- `del_tail(str, len)` on a block of `len` bytes. -/
def delTail (str : List Char) : Block := delTailLoop str.length str

/-! ## The first pass -/

/-- The values of `tag` that a `switch` tells apart. -/
inductive Tag
  | INIT
  | MAIN_CLASS
  | of (k : ListKey)
  deriving DecidableEq, Repr

/-- What is not initialised: `_line`, `tag`, `conf->daemon` and `conf->ext_conf.argsLen`. -/
structure Uninit where
  mem : Nat → Char
  tag : Tag
  daemon : Bool
  argsLen : Int

structure Parse where
  mem : Nat → Char
  /-- `line - _line` -/
  line : Nat
  i : Int
  offset : Int
  ignore : Int
  tag : Tag
  strings : StringKey → Option Block
  bools : BoolKey → Bool
  len : ListKey → Int

/-- How `parse_properties` ends without a second pass. -/
inductive Stop
  | exits
  /-- `malloc` or `strncpy` with a length of -1 -/
  | crashes
  deriving DecidableEq, Repr

/-- The variables before the first line. -/
def Uninit.start (u : Uninit) : Parse where
  mem := u.mem
  line := 0
  i := 0
  offset := 0
  ignore := 0
  tag := u.tag
  strings _ := none
  bools
    | .K_VM_STDOUT => true
    | .K_VM_DAEMON => u.daemon
    | .K_DEBUG => false
  len
    | .K_EXT_MAIN_ARGS => u.argsLen
    | .K_MAIN_ARGS | .K_VM_OPTIONS | .K_EXT_VM_OPTIONS => 0

/-- `fgets` has put the characters and a terminator to `line`. -/
def stored (mem : Nat → Char) (line : Nat) (chunk : List Char) (a : Nat) : Char :=
  if line ≤ a ∧ a ≤ line + chunk.length then chunk.getD (a - line) NUL else mem a

/-- `!strncmp(s, p, strlen(s))`. -/
def startsAt (mem : Nat → Char) (p : Nat) (s : List Char) : Bool :=
  (List.range s.length).all fun j => mem (p + j) = s.getD j NUL

namespace Parse

/-- The branch of a key with a truth value. -/
def readBool (s : Parse) (k : BoolKey) (line : List Char) : Except Stop Parse :=
  let s := { s with line := s.line + equalOf line }
  if startsAt s.mem s.line "false".toList then
    .ok { s with bools := Function.update s.bools k false }
  else if startsAt s.mem s.line "true".toList then
    .ok { s with bools := Function.update s.bools k true }
  else .error .exits

/-- The branch of a key with a text: `length - equal` bytes are allocated, copied and trimmed. -/
def readString (s : Parse) (k : StringKey) (line : List Char) : Except Stop Parse :=
  let equal := equalOf line
  if line.length < equal then .error .crashes
  else .ok { s with line := s.line + equal
                    strings := Function.update s.strings k (some (delTail (line.drop equal))) }

/-- The branch of a key with a number. -/
def readNumber (s : Parse) (line : List Char) : Except Stop Parse :=
  let equal := equalOf line
  if line.length < equal then .error .crashes else .ok { s with line := s.line + equal }

/-- The branch of `]`. -/
def close (s : Parse) : Parse :=
  match s.tag with
  | .of k => { s with len := Function.update s.len k (s.i - s.offset - s.ignore - 1), tag := .INIT }
  | .INIT | .MAIN_CLASS => { s with tag := .INIT }

/-- One line of the first pass, `i++` included. -/
def pass1 (s : Parse) (chunk : List Char) : Except Stop Parse :=
  let s := { s with mem := stored s.mem s.line chunk }
  let line := cstring chunk
  let next : Except Stop Parse := match branchOf branches line with
    | .bool k => s.readBool k line
    | .string .K_MAIN_CLASS => { s with tag := .MAIN_CLASS }.readString .K_MAIN_CLASS line
    | .string k => s.readString k line
    | .number _ => s.readNumber line
    | .list k => .ok { s with tag := .of k }
    | .opens => .ok { s with offset := s.i, ignore := 0 }
    | .closes => .ok s.close
    | .comment => .ok { s with ignore := s.ignore + 1 }
    | .other => match s.tag with
      | .of _ => .ok s
      | .INIT | .MAIN_CLASS => if line.all isBlank then .ok s else .error .exits
  next.map fun s => { s with i := s.i + 1 }

end Parse

/-! ## What a line of the first pass does -/

/-- What the line is for the first pass. -/
def lineOf (chunk : List Char) : Line := branchOf branches (cstring chunk)

/-- How far a line moves `line`. -/
def advanceOf (chunk : List Char) : Nat :=
  match lineOf chunk with
  | .bool _ | .string _ | .number _ => equalOf (cstring chunk)
  | .list _ | .opens | .closes | .comment | .other => 0

/-- What the first pass counts. -/
structure Count where
  i : Int
  offset : Int
  ignore : Int
  tag : Tag
  len : ListKey → Int

def Parse.count (s : Parse) : Count := ⟨s.i, s.offset, s.ignore, s.tag, s.len⟩

/-- `tag` after a line of the first pass. -/
def Tag.next1 (tag : Tag) : Line → Tag
  | .string .K_MAIN_CLASS => .MAIN_CLASS
  | .list k => .of k
  | .closes => .INIT
  | _ => tag

/-- The lengths after a `]`. -/
def Count.close (c : Count) : ListKey → Int :=
  match c.tag with
  | .of k => Function.update c.len k (c.i - c.offset - c.ignore - 1)
  | .INIT | .MAIN_CLASS => c.len

def Count.step (c : Count) (l : Line) : Count where
  i := c.i + 1
  offset := if l = .opens then c.i else c.offset
  ignore := if l = .opens then 0 else if l = .comment then c.ignore + 1 else c.ignore
  tag := c.tag.next1 l
  len := if l = .closes then c.close else c.len

theorem exceptMap_eq_ok {α β : Type} {x : Except Stop α} {f : α → β} {b : β}
    (h : x.map f = .ok b) : ∃ a, x = .ok a ∧ f a = b := by
  cases x with
  | error stop => cases h
  | ok a => exact ⟨a, rfl, Except.ok.inj h⟩

namespace Parse

theorem readBool_ok {s s' : Parse} {k : BoolKey} {line : List Char}
    (h : s.readBool k line = .ok s') :
    s'.line = s.line + equalOf line ∧ s'.count = s.count := by
  unfold readBool at h
  simp only at h
  split at h
  · cases h
    exact ⟨rfl, rfl⟩
  · split at h
    · cases h
      exact ⟨rfl, rfl⟩
    · cases h

theorem readString_ok {s s' : Parse} {k : StringKey} {line : List Char}
    (h : s.readString k line = .ok s') :
    s'.line = s.line + equalOf line ∧ s'.count = s.count := by
  unfold readString at h
  simp only at h
  split at h
  · cases h
  · cases h
    exact ⟨rfl, rfl⟩

theorem readNumber_ok {s s' : Parse} {line : List Char} (h : s.readNumber line = .ok s') :
    s'.line = s.line + equalOf line ∧ s'.count = s.count := by
  unfold readNumber at h
  simp only at h
  split at h
  · cases h
  · cases h
    exact ⟨rfl, rfl⟩

theorem close_count (s : Parse) :
    s.close.line = s.line ∧
      s.close.count = { s.count with len := s.count.close, tag := .INIT } := by
  unfold close count Count.close
  cases s.tag <;> exact ⟨rfl, rfl⟩

/-- **One line**: where it leaves `line`, and the counters. -/
theorem pass1_ok {s s' : Parse} {chunk : List Char} (h : s.pass1 chunk = .ok s') :
    s'.line = s.line + advanceOf chunk ∧ s'.count = s.count.step (lineOf chunk) := by
  obtain ⟨t, ht, rfl⟩ := exceptMap_eq_ok h
  unfold advanceOf lineOf
  generalize branchOf branches (cstring chunk) = l at ht
  cases l with
  | bool k =>
    obtain ⟨hline, hcount⟩ := readBool_ok ht
    exact ⟨hline, congrArg (Count.step · (.bool k)) hcount⟩
  | string k =>
    cases k with
    | K_MAIN_CLASS =>
      obtain ⟨hline, hcount⟩ := readString_ok ht
      exact ⟨hline, congrArg (Count.step · (.string .K_NAME)) hcount⟩
    | _ =>
      obtain ⟨hline, hcount⟩ := readString_ok ht
      exact ⟨hline, congrArg (Count.step · (.string .K_NAME)) hcount⟩
  | number k =>
    obtain ⟨hline, hcount⟩ := readNumber_ok ht
    exact ⟨hline, congrArg (Count.step · (.number k)) hcount⟩
  | list k =>
    cases ht
    exact ⟨rfl, rfl⟩
  | opens =>
    cases ht
    exact ⟨rfl, rfl⟩
  | closes =>
    cases ht
    obtain ⟨hline, hcount⟩ := close_count { s with mem := stored s.mem s.line chunk }
    exact ⟨hline, congrArg (Count.step · .other) hcount⟩
  | comment =>
    cases ht
    exact ⟨rfl, rfl⟩
  | other =>
    -- the line is kept or the program exits
    have hs : t = { s with mem := stored s.mem s.line chunk } := by
      simp only at ht
      split at ht
      · cases ht
        rfl
      all_goals
        split at ht
        · cases ht
          rfl
        · cases ht
    rw [hs]
    exact ⟨rfl, rfl⟩

theorem foldlM_pass1_cons {s t : Parse} {chunk : List Char} {lines : List (List Char)} :
    (chunk :: lines).foldlM pass1 s = .ok t ↔
      ∃ s', s.pass1 chunk = .ok s' ∧ lines.foldlM pass1 s' = .ok t := by
  rw [List.foldlM_cons]
  constructor
  · intro h
    cases hs : s.pass1 chunk with
    | error stop =>
      rw [hs] at h
      cases h
    | ok s' =>
      rw [hs] at h
      exact ⟨s', rfl, h⟩
  · intro h
    obtain ⟨s', hs, h⟩ := h
    rw [hs]
    exact h

/-- The lines of a pass that does not stop. -/
theorem foldlM_pass1_ok {s s' : Parse} {lines : List (List Char)}
    (h : lines.foldlM pass1 s = .ok s') :
    s'.line = s.line + (lines.map advanceOf).sum ∧
      s'.count = (lines.map lineOf).foldl Count.step s.count := by
  induction lines generalizing s with
  | nil =>
    cases h
    exact ⟨rfl, rfl⟩
  | cons chunk lines ih =>
    obtain ⟨t, ht, h⟩ := foldlM_pass1_cons.mp h
    obtain ⟨hline, hcount⟩ := ih h
    obtain ⟨hline1, hcount1⟩ := pass1_ok ht
    rw [hline1] at hline
    rw [hcount1] at hcount
    refine ⟨?_, hcount⟩
    rw [hline, List.map_cons, List.sum_cons, Nat.add_assoc]

end Parse

/-! ## The second pass -/

/-- The variables of the second pass, with the entries that it has stored. -/
structure Fill where
  tag : Tag
  i : Nat
  stores : List (ListKey × Nat × Block)

/-- One line of the second pass. -/
def Fill.pass2 (s : Fill) (chunk : List Char) : Fill :=
  let line := cstring chunk
  match branchOf listBranches line with
  | .list k => { s with tag := .of k, i := 0 }
  | .closes => { s with tag := .INIT }
  | .opens | .comment => s
  | _ => match s.tag with
    | .of k => { s with i := s.i + 1, stores := s.stores ++ [(k, s.i, delTail line)] }
    | .INIT | .MAIN_CLASS => s

/-- The lines of a file: `buffSize` is 2048. -/
def linesOf (file : List Char) : List (List Char) := fgetsAll 2047 file.length file

/-- `parse_properties`: what the first pass leaves, and what the second one stores. -/
def parseProperties (u : Uninit) (file : List Char) : Except Stop (Parse × Fill) :=
  match (linesOf file).foldlM Parse.pass1 u.start with
  | .error stop => .error stop
  | .ok s =>
    if s.len .K_VM_OPTIONS = 0 then .error .exits
    else .ok (s, (linesOf file).foldl Fill.pass2 ⟨s.tag, 0, []⟩)

theorem parseProperties_ok {u : Uninit} {file : List Char} {s : Parse} {fill : Fill}
    (h : parseProperties u file = .ok (s, fill)) :
    (linesOf file).foldlM Parse.pass1 u.start = .ok s ∧ s.len .K_VM_OPTIONS ≠ 0 ∧
      fill = (linesOf file).foldl Fill.pass2 ⟨s.tag, 0, []⟩ := by
  unfold parseProperties at h
  split at h
  · cases h
  · split at h
    · cases h
    · cases h
      exact ⟨by assumption, by assumption, rfl⟩

end DevTools.Daemon
