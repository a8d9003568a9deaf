import DevTools.Lib.Stdio
import DevTools.Pvtrace.Symbols

/-!
# The trace file

The traced program writes a line for every function it enters or leaves, with the function's
address as `%p` prints it. `pvtrace` reads the lines back with `fscanf` in a loop that ends at the
end of the file. The two are different programs: one has 64-bit pointers, the other reads them into
an `unsigned int`.

**Theorem (`readTrace_writeTrace_iff`).** The loop processes what was written exactly if every
pointer is below `2 ^ 32`, and the file is not empty or the variable `type` happens to be neither
`E` nor `X` before it is first assigned.
-/

namespace DevTools.Pvtrace

/-! ## The writer -/

/-- `__cyg_profile_func_enter` and `__cyg_profile_func_exit`. -/
def cygProfileFunc : Event → List Char
  | .enter this_fn => 'E' :: '0' :: 'x' :: toHex this_fn ++ ['\n']
  | .exit this_fn => 'X' :: '0' :: 'x' :: toHex this_fn ++ ['\n']

/-- `trace.txt` after some callbacks. -/
def writeTrace (callbacks : List Event) : List Char := callbacks.flatMap cygProfileFunc

/-! ## The reader -/

/-- The stream and the two variables of `main`. -/
structure Reader where
  tracef : InStream
  type : Char
  address : Nat
  deriving DecidableEq

namespace Reader

/-- `fscanf( tracef, "%c0x%x\n", &type, &address )`. -/
def fscanf (r : Reader) : Reader :=
  match r.tracef.scanChar with
  | (none, s) => { r with tracef := s }
  | (some type, s) => match s.literal '0' with
    | (false, s) => { r with tracef := s, type }
    | (true, s) => match s.literal 'x' with
      | (false, s) => { r with tracef := s, type }
      | (true, s) => match s.scanHex with
        | (none, s) => { r with tracef := s, type }
        | (some address, s) => ⟨s.skipSpace, type, address⟩

/-- The `switch`. -/
def processed (r : Reader) : List Event :=
  if r.type = 'E' then [.enter r.address] else if r.type = 'X' then [.exit r.address] else []

/-- The loop `while(!feof(tracef))`; `none` when it is still running after so many turns. -/
def readLoop : Nat → Reader → Option (List Event)
  | 0, _ => none
  | fuel + 1, r =>
    if r.tracef.eof then some [] else (readLoop fuel r.fscanf).map (r.fscanf.processed ++ ·)

end Reader

/-- What the loop processes of a file. The variables start with whatever is in memory. -/
def readTrace (type : Char) (address : Nat) (file : List Char) : Option (List Event) :=
  Reader.readLoop (file.length + 2) ⟨⟨file, false⟩, type, address⟩

/-! ## Reading what was written -/

variable {e : Event} {es : List Event} {s : InStream} {type : Char} {address : Nat}

/-- The event with the low 32 bits of its address. -/
def low32 : Event → Event
  | .enter a => .enter (a % 2 ^ 32)
  | .exit a => .exit (a % 2 ^ 32)

def Event.letter : Event → Char
  | .enter _ => 'E'
  | .exit _ => 'X'

theorem cygProfileFunc_eq (e : Event) :
    cygProfileFunc e = e.letter :: '0' :: 'x' :: (toHex e.address ++ ['\n']) := by
  cases e with
  | enter a => rfl
  | exit a => rfl

/-- A line begins with a letter. -/
theorem head_writeTrace : ∀ c ∈ (writeTrace es).head?, isSpaceC c = false := by
  intro c hc
  cases es with
  | nil => cases hc
  | cons e es =>
    rw [writeTrace, List.flatMap_cons, cygProfileFunc_eq] at hc
    cases hc
    cases e with
    | enter a => exact (by decide : isSpaceC 'E' = false)
    | exit a => exact (by decide : isSpaceC 'X' = false)

theorem isEmpty_writeTrace : (writeTrace es).isEmpty = es.isEmpty := by
  cases es with
  | nil => rfl
  | cons e es =>
    rw [writeTrace, List.flatMap_cons, cygProfileFunc_eq]
    rfl

/-- One turn reads one line. -/
theorem fscanf_writeTrace (hpos : 0 < e.address) (hlt : e.address < 2 ^ 64) :
    Reader.fscanf ⟨⟨writeTrace (e :: es), false⟩, type, address⟩ =
      ⟨⟨writeTrace es, es.isEmpty⟩, e.letter, e.address % 2 ^ 32⟩ := by
  have hline : writeTrace (e :: es) =
      e.letter :: '0' :: 'x' :: (toHex e.address ++ '\n' :: writeTrace es) := by
    rw [writeTrace, List.flatMap_cons, cygProfileFunc_eq]
    simp [writeTrace]
  have hhex : InStream.scanHex ⟨toHex e.address ++ '\n' :: writeTrace es, false⟩ =
      (some (e.address % 2 ^ 32), ⟨'\n' :: writeTrace es, false⟩) :=
    InStream.scanHex_toHex hpos hlt (by decide) (by decide) (by decide)
  have hskip : InStream.skipSpace ⟨'\n' :: writeTrace es, false⟩ =
      ⟨writeTrace es, (writeTrace es).isEmpty⟩ :=
    InStream.skipSpace_cons (by decide) head_writeTrace
  rw [hline]
  simp only [Reader.fscanf, InStream.scanChar, InStream.literal, if_true, hhex, hskip,
    isEmpty_writeTrace]

theorem processed_line : Reader.processed ⟨s, e.letter, e.address % 2 ^ 32⟩ = [low32 e] := by
  cases e with
  | enter a => rfl
  | exit a => rfl

/-- The loop reads all the lines, and ends after the last one. -/
theorem readLoop_writeTrace {fuel : Nat} (hes : ∀ e ∈ es, 0 < e.address ∧ e.address < 2 ^ 64)
    (hfuel : es.length < fuel) :
    Reader.readLoop fuel ⟨⟨writeTrace es, es.isEmpty⟩, type, address⟩ = some (es.map low32) := by
  induction es generalizing fuel type address with
  | nil =>
    cases fuel with
    | zero => cases hfuel
    | succ fuel => rfl
  | cons e es ih =>
    cases fuel with
    | zero => cases hfuel
    | succ fuel =>
      obtain ⟨hpos, hlt⟩ := hes e List.mem_cons_self
      have hrest := fun e' he' => hes e' (List.mem_cons_of_mem e he')
      rw [Reader.readLoop, if_neg (by simp), List.isEmpty_cons, fscanf_writeTrace hpos hlt,
        ih hrest (Nat.lt_of_succ_lt_succ hfuel), processed_line]
      rfl

theorem length_le_writeTrace (es : List Event) : es.length ≤ (writeTrace es).length := by
  induction es with
  | nil => exact le_rfl
  | cons e es ih =>
    rw [writeTrace, List.flatMap_cons, cygProfileFunc_eq]
    simp only [List.length_cons, List.length_append]
    rw [writeTrace] at ih
    omega

theorem readTrace_cons (hes : ∀ e' ∈ e :: es, 0 < e'.address ∧ e'.address < 2 ^ 64) :
    readTrace type address (writeTrace (e :: es)) = some ((e :: es).map low32) := by
  have hlen := length_le_writeTrace (e :: es)
  exact readLoop_writeTrace hes (by omega)

/-- An empty file is still read once, and nothing is assigned. -/
theorem readTrace_nil : readTrace type address (writeTrace []) =
    some (Reader.processed ⟨⟨[], true⟩, type, address⟩) := by
  simp [readTrace, writeTrace, Reader.readLoop, Reader.fscanf, InStream.scanChar]

theorem low32_eq_self_iff : low32 e = e ↔ e.address < 2 ^ 32 := by
  cases e with
  | enter a => simp [low32, Event.address]
  | exit a => simp [low32, Event.address]

theorem processed_eq_nil_iff {r : Reader} : r.processed = [] ↔ r.type ≠ 'E' ∧ r.type ≠ 'X' := by
  unfold Reader.processed
  split_ifs with hE hX
  · simp [hE]
  · simp [hX]
  · simp [hE, hX]

/-- **The trace file.** -/
theorem readTrace_writeTrace_iff (type : Char) (address : Nat)
    (hes : ∀ e ∈ es, 0 < e.address ∧ e.address < 2 ^ 64) :
    readTrace type address (writeTrace es) = some es ↔
      (∀ e ∈ es, e.address < 2 ^ 32) ∧ (es = [] → type ≠ 'E' ∧ type ≠ 'X') := by
  cases es with
  | nil =>
    rw [readTrace_nil, Option.some_inj, processed_eq_nil_iff]
    simp
  | cons e es =>
    have hsame : (e :: es).map low32 = e :: es ↔ ∀ e' ∈ e :: es, low32 e' = id e' := by
      rw [← List.map_inj_left, List.map_id]
    rw [readTrace_cons hes, Option.some_inj, hsame]
    simp [low32_eq_self_iff]

/-- A function of a position-independent program is read as another one. -/
theorem not_readTrace_writeTrace :
    (∀ e ∈ [Event.enter 0x555555554000], 0 < e.address ∧ e.address < 2 ^ 64) ∧
      readTrace 'A' 0 (writeTrace [.enter 0x555555554000]) ≠ some [.enter 0x555555554000] := by
  have hes : ∀ e ∈ [Event.enter 0x555555554000], 0 < e.address ∧ e.address < 2 ^ 64 := by
    decide
  refine ⟨hes, ?_⟩
  rw [readTrace_cons hes]
  decide

theorem readTrace_writeTrace_iff_sample :
    (∀ e ∈ [Event.enter 0x401136, .exit 0x401136], 0 < e.address ∧ e.address < 2 ^ 64) ∧
      readTrace 'A' 0 (writeTrace [.enter 0x401136, .exit 0x401136]) =
        some [.enter 0x401136, .exit 0x401136] := by
  have hes : ∀ e ∈ [Event.enter 0x401136, .exit 0x401136],
      0 < e.address ∧ e.address < 2 ^ 64 := by
    decide
  exact ⟨hes, (readTrace_writeTrace_iff 'A' 0 hes).mpr ⟨by decide, nofun⟩⟩

end DevTools.Pvtrace
