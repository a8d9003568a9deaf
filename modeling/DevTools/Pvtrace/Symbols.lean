import DevTools.Lib.Stdio
import Mathlib.Data.List.TakeWhile
import Mathlib.Logic.Function.Basic

/-!
# pvtrace: the call stack, the symbol table and the call matrix

`pvtrace` replays a trace of function entries and exits. It keeps the open calls on a stack, gives
every entered address a slot of `functions`, and counts in `calls[from][to]` how often one function
called another. `emitSymbols` writes the result as a graph.

* `translateFunctionFromSymbol` builds the command in the array `line`, reads what `addr2line` says
  into the same array, and copies its first line into a block of the heap.
* `step` is the body of the loop in `main`.
* `emitSymbols` gives the lines of `graph.dot`.

`none` is a failed assertion, an access behind the end of an array or of a block, or a label that is
printed through the uninitialised pointer `func`.
-/

namespace DevTools.Pvtrace

/-- A line of the trace. -/
inductive Event
  | enter (address : Nat)
  | exit (address : Nat)
  deriving DecidableEq, Repr

def Event.address : Event → Nat
  | enter a | exit a => a

abbrev Bytes := List UInt8

def MAX_ELEMENTS : Nat := 500

def MAX_FUNCTIONS : Nat := 30000

/-- The size of `imageName` and `line`. -/
def MAX_FUNCTION_NAME : Nat := 250

/-- The globals of `stack.c` (top first) and `symbols.cpp`. A slot of `functions` that holds 0 is
empty; `funNameMap` gives the block that a name was copied to. -/
structure Globals where
  stack : List Nat
  /-- the string in `imageName` -/
  imageName : Bytes
  /-- all of the array -/
  line : Bytes
  functions : Nat → Nat
  funNameMap : Nat → Option Bytes
  totals : Nat → Nat
  calls : Nat → Nat → Nat

/-! ## Strings in memory -/

def ascii (text : List Char) : Bytes := text.map fun c => UInt8.ofNat c.toNat

/-- A write to the beginning of an array that it fits into. -/
def overwrite (mem new : Bytes) : Bytes := new ++ mem.drop new.length

/-- What `strlen` and `%s` find in an array or block; `none` when they run over its end. -/
def readString (mem : Bytes) : Option Bytes :=
  if 0 ∈ mem then some (mem.takeWhile (· ≠ 0)) else none

def isLineEnd (c : UInt8) : Bool := c == 0x0d || c == 0x0a

/-- The command that is built in `line`. -/
def addr2line (imageName : Bytes) (address : Nat) : Bytes :=
  ascii "addr2line -e ".toList ++ imageName ++ ascii " -f -s 0x".toList ++
    ascii (toHex address) ++ ascii " |c++filt".toList

/-- The block that a name is copied to: `calloc(len)`, and the loop up to the end of the line. -/
def copyName (line : Bytes) : Bytes :=
  let name := line.takeWhile (!isLineEnd ·)
  name ++ List.replicate (line.length - name.length) 0

/-- The indices of a loop over the table. -/
def slots : List Nat := List.range' 0 MAX_FUNCTIONS

namespace Globals

/-- `initSymbol` and `stackInit`. -/
def init (image : Bytes) : Option Globals :=
  if image.length < MAX_FUNCTION_NAME then
    some ⟨[], image, List.replicate MAX_FUNCTION_NAME 0, fun _ => 0, fun _ => none, fun _ => 0,
      fun _ _ => 0⟩
  else none

/-! ## The stack -/

def stackNumElems (s : Globals) : Nat := s.stack.length

def stackTop (s : Globals) : Option Nat := s.stack.head?

def stackPush (value : Nat) (s : Globals) : Option Globals :=
  if s.stackNumElems < MAX_ELEMENTS then some { s with stack := value :: s.stack } else none

def stackPop (s : Globals) : Option Globals :=
  match s.stack with
  | [] => none
  | _ :: rest => some { s with stack := rest }

/-! ## The symbols -/

def lookupSymbol (address : Nat) (s : Globals) : Option Nat :=
  match slots.find? fun index => s.functions index = 0 ∨ s.functions index = address with
  | none => none
  | some index => if s.functions index = 0 then none else some index

/-- `translateFunctionFromSymbol`; `popen` is what `addr2line` prints, unless it cannot be started.
`fread` puts no terminator behind what it reads. -/
def translateFunctionFromSymbol (popen : Nat → Option Bytes) (address : Nat) (s : Globals) :
    Option Globals :=
  match s.funNameMap address with
  | some _ => some s
  | none =>
    let command := addr2line s.imageName address
    if MAX_FUNCTION_NAME ≤ command.length then none
    else
      let line := overwrite s.line (command ++ [0])
      match popen address with
      | none => some { s with line }
      | some text =>
        let line := overwrite line (text.take MAX_FUNCTION_NAME)
        match readString line with
        | none => none
        | some str =>
          some { s with line, funNameMap := Function.update s.funNameMap address (copyName str) }

def addSymbol (popen : Nat → Option Bytes) (address : Nat) (s : Globals) : Option Globals :=
  match slots.find? fun index => s.functions index = address ∨ s.functions index = 0 with
  | none => none
  | some index =>
    if s.functions index = address then some s
    else
      let s' := { s with functions := Function.update s.functions index address }
      s'.translateFunctionFromSymbol popen address

/-- `calls[from][to]++`, in `unsigned int`. -/
def countCall (caller callee : Nat) (s : Globals) : Globals :=
  let row := Function.update (s.calls caller) callee ((s.calls caller callee + 1) % 2 ^ 32)
  { s with calls := Function.update s.calls caller row }

def addCallTrace (address : Nat) (s : Globals) : Option Globals :=
  if s.stackNumElems ≠ 0 then do
    let top ← s.stackTop
    let caller ← s.lookupSymbol top
    let callee ← s.lookupSymbol address
    return s.countCall caller callee
  else some s

/-- One turn of the loop in `main`. -/
def step (popen : Nat → Option Bytes) (s : Globals) : Event → Option Globals
  | .enter address => do
    let s ← s.addSymbol popen address
    let s ← s.addCallTrace address
    s.stackPush address
  | .exit _ => s.stackPop

end Globals

/-! ## The graph -/

inductive Shape
  | rectangle
  | ellipse
  deriving DecidableEq, Repr

/-- `S%d [label="%s",shape=..]`. -/
structure Node where
  id : Int
  label : Bytes
  shape : Shape
  deriving DecidableEq

/-- `S%d -> S%d [label="%d calls" ..]`. -/
structure Edge where
  source : Int
  target : Int
  label : Int
  deriving DecidableEq

/-- `digraph %s {..}`. -/
structure Graph where
  name : Bytes
  nodes : List Node
  edges : List Edge
  deriving DecidableEq

namespace Globals

/-- How often the inner loop over the node shapes finds a call. -/
def numCallees (s : Globals) (caller : Nat) : Nat :=
  (slots.takeWhile fun callee => s.functions callee ≠ 0).countP fun callee =>
    s.calls caller callee ≠ 0

/-- The loop that identifies node shapes. A name that is not in `funNameMap` leaves `func` as it
was. -/
def emitNodes (s : Globals) : List Nat → Option Bytes → Option (List Node)
  | [], _ => some []
  | caller :: rest, func =>
    if s.functions caller = 0 then some []
    else
      let totals := (s.totals caller + s.numCallees caller) % 2 ^ 32
      match (s.funNameMap (s.functions caller)).or func with
      | none => none
      | some block => match readString block with
        | none => none
        | some label =>
          let shape := if totals ≠ 0 then Shape.rectangle else Shape.ellipse
          (s.emitNodes rest (some block)).map (⟨wrap32 (s.functions caller), label, shape⟩ :: ·)

/-- The inner loop over the call graph, which looks at the first empty slot too. -/
def emitRow (s : Globals) (caller : Nat) : List Nat → List Edge
  | [] => []
  | callee :: rest =>
    let edge : Edge := ⟨wrap32 (s.functions caller), wrap32 (s.functions callee),
      wrap32 (s.calls caller callee)⟩
    (if s.calls caller callee ≠ 0 then [edge] else []) ++
      if s.functions callee = 0 then [] else s.emitRow caller rest

/-- The loop that emits the call graph. -/
def emitEdges (s : Globals) : List Nat → List Edge
  | [] => []
  | caller :: rest =>
    if s.functions caller = 0 then [] else s.emitRow caller slots ++ s.emitEdges rest

/-- `emitSymbols`, once `graph.dot` is open. -/
def emitSymbols (s : Globals) : Option Graph :=
  (s.emitNodes slots none).map fun nodes => ⟨s.imageName, nodes, s.emitEdges slots⟩

end Globals

/-- `main`, from the first line of the trace to the graph. -/
def pvtrace (popen : Nat → Option Bytes) (image : Bytes) (trace : List Event) : Option Graph :=
  (Globals.init image).bind fun s => (trace.foldlM (Globals.step popen) s).bind Globals.emitSymbols

/-! ## Where the strings end -/

/-- The array is all there, and its last byte has never been written. -/
def Terminated (line : Bytes) : Prop := ∃ mem : Bytes, mem.length = 249 ∧ line = mem ++ [0]

theorem terminated_init : Terminated (List.replicate MAX_FUNCTION_NAME 0) :=
  ⟨List.replicate 249 0, List.length_replicate, List.replicate_succ'⟩

theorem terminated_overwrite {line new : Bytes} (h : Terminated line) (hnew : new.length ≤ 249) :
    Terminated (overwrite line new) := by
  obtain ⟨mem, hlen, rfl⟩ := h
  refine ⟨new ++ mem.drop new.length, ?_, ?_⟩
  · rw [List.length_append, List.length_drop]
    omega
  · rw [overwrite, List.drop_append_of_le_length (by omega), List.append_assoc]

/-- A command that fits ends at its terminator. -/
theorem terminated_command {line command : Bytes} (h : Terminated line)
    (hfits : command.length < MAX_FUNCTION_NAME) :
    Terminated (overwrite line (command ++ [0])) := by
  have hmax : MAX_FUNCTION_NAME = 250 := rfl
  rcases Nat.lt_or_ge command.length 249 with hlt | hge
  · exact terminated_overwrite h (by simpa using hlt)
  · obtain ⟨mem, hlen, rfl⟩ := h
    refine ⟨command, by omega, ?_⟩
    have hdrop : (mem ++ [0]).drop (command ++ [0]).length = [] :=
      List.drop_eq_nil_of_le (by simp; omega)
    rw [overwrite, hdrop, List.append_nil]

theorem readString_append {str rest : Bytes} (h : (0 : UInt8) ∉ str) :
    readString (str ++ 0 :: rest) = some str := by
  have hmem : (0 : UInt8) ∈ str ++ 0 :: rest := by simp
  rw [readString, if_pos hmem, List.takeWhile_append_of_pos]
  · simp
  · intro c hc
    simpa using fun h0 : c = 0 => h (h0 ▸ hc)

/-- A text without a NUL is read with whatever the array has behind it. -/
theorem readString_overwrite {line text : Bytes} (h : Terminated line) (htext : (0 : UInt8) ∉ text)
    (hlen : text.length ≤ 249) : ∃ more, readString (overwrite line text) = some (text ++ more) ∧
      (0 : UInt8) ∉ text ++ more := by
  obtain ⟨mem, -, hmem⟩ := terminated_overwrite h hlen
  have hin : (0 : UInt8) ∈ overwrite line text := by simp [hmem]
  refine ⟨(line.drop text.length).takeWhile (· ≠ 0), ?_, ?_⟩
  · rw [readString, if_pos hin, overwrite, List.takeWhile_append_of_pos]
    intro c hc
    simpa using fun h0 : c = 0 => htext (h0 ▸ hc)
  · intro h0
    rcases List.mem_append.mp h0 with h0 | h0
    · exact htext h0
    · exact absurd (List.mem_takeWhile_imp h0) (by simp)

/-- A name can be printed exactly if its line has an end. -/
theorem zero_mem_copyName {line : Bytes} (h : (0 : UInt8) ∉ line) :
    (0 : UInt8) ∈ copyName line ↔ ∃ c ∈ line, isLineEnd c := by
  have hname : (0 : UInt8) ∉ line.takeWhile (!isLineEnd ·) := fun h0 =>
    h (List.takeWhile_subset _ h0)
  have hlen : (line.takeWhile (!isLineEnd ·)).length ≤ line.length :=
    (List.takeWhile_prefix _).length_le
  have hall : (line.takeWhile (!isLineEnd ·)).length = line.length ↔ ∀ c ∈ line, !isLineEnd c := by
    constructor
    · intro heq
      have hsame := (List.takeWhile_prefix (!isLineEnd ·)).eq_of_length heq
      exact List.takeWhile_eq_self_iff.mp hsame
    · intro hno
      rw [List.takeWhile_eq_self_iff.mpr hno]
  simp only [copyName, List.mem_append, hname, false_or, List.mem_replicate, and_true]
  constructor
  · intro hne
    by_contra hno
    exact hne (by rw [hall.mpr (by simpa using hno), Nat.sub_self])
  · intro hend hzero
    obtain ⟨c, hc, hce⟩ := hend
    have hno := hall.mp (by omega) c hc
    rw [hce] at hno
    cases hno

end DevTools.Pvtrace
