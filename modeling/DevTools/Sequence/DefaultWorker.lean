import DevTools.Lib.CString
import Mathlib.Data.Int.ConditionallyCompleteOrder
import Mathlib.Order.ConditionallyCompleteLattice.Basic

/-!
# `DefaultSequenceWorker`

The worker behind the increment algorithms. It owns a segment `(value, max]` of a counter kept
in the database, hands out pieces of it with a fetch-and-add on `value`, and asks the database
for the next segment when the current one is used up.

* `nextRange` installs the segment that the reply of `seq_nextval_v2` describes.
* `addAndIncrement` claims the next `step` counters of the segment, or its truncated tail.
* `tagRange` puts the datacenter id over the raw counters.

Arithmetic on `value` is 64-bit; `classify_of_noOverflow` says what a call gets when nothing
wraps.
-/

namespace DevTools.Sequence

/-- The range of ids a call returns. -/
structure SequenceRange where
  min : Int
  max : Int
  deriving DecidableEq, Repr

structure SequenceException where
  reason : String
  deriving DecidableEq, Repr

/-! ## Layout constants -/

def datacenterIdBits32 : Nat := 5

def datacenterIdBits64 : Nat := 10

def sequenceBits32 : Nat := 31 - datacenterIdBits32

def sequenceBits64 : Nat := 61 - datacenterIdBits64

/-- Distance from the top of `int64_t` at which `nextRange` refuses a segment. -/
def DELTA : Int := 100000000

def tableName : String := "t_sequence"

/-- The fields of a worker that its calls read or write. A mask that the constructor leaves
uninitialised is 0 here; no branch reads it. -/
structure DefaultSequenceWorker where
  name : String
  seqBits : Int
  datacenterIdMask32 : Nat
  datacenterIdMask64 : Nat
  value : Int
  max : Int
  step : Int
  deriving DecidableEq, Repr

/-! ## Parsing the database's reply -/

/-- What `my_strchr` does: it stops at a position, answers NULL, or runs on into the memory
behind the string. -/
inductive Strchr
  | found (pos : Nat)
  | null
  | overrun
  deriving DecidableEq, Repr

/-- `my_strchr(str, ch)`. The loop tests `*str`, which never moves, and advances `ptr`; a
non-empty string without `ch` is therefore scanned past its end. -/
def myStrchr (str : List Char) (ch : Char) : Strchr :=
  match str with
  | [] => .null
  | c :: _ => if c.toNat = 0 then .null else match str.idxOf? ch with
    | some pos => .found pos
    | none => .overrun

/-- What the database call inside `nextRange` comes back with. -/
inductive DbReply
  /-- `GetConnection(0)` is NULL -/
  | noConnection
  /-- an `SQLException` from preparing, executing or reading -/
  | sqlException
  /-- `m_res->next()` is false -/
  | noRow
  | row (text : List Char)
  deriving DecidableEq, Repr

/-- How `nextRange` ends when it installs nothing. -/
inductive RefillFailure
  | throws (e : SequenceException)
  /-- `LOG(FATAL)` ends the process -/
  | fatal (message : String)
  /-- the reply's comma search left the string -/
  | overrun
  deriving DecidableEq, Repr

/-- `newValue` and `step` as read from a reply; `none` when the search for the comma overruns. -/
def parseReply (text : List Char) : Option (Int × Int) :=
  match myStrchr text ',' with
  | .found pos => some (atol (text.take pos), wrap32 (atol (text.drop (pos + 1))))
  | .null => some (-1, 0)
  | .overrun => none

/-- The tests of `nextRange` on `newValue`, and the installation of the segment. -/
def install (name : String) (newValue step : Int) (out : DefaultSequenceWorker) :
    Except RefillFailure DefaultSequenceWorker :=
  if newValue = -1 then
    .error (.throws ⟨"DBServer busy, Please contact the administrator!"⟩)
  else if newValue = 0 then
    .error (.throws ⟨"Sequence value cannot be less than zero, value = " ++ toString newValue ++
      ", please check table " ++ tableName ++ " and Sequence name " ++ name⟩)
  else if newValue < 0x7fffffffffffffff - DELTA then
    .ok { out with value := newValue, max := wrap64 (newValue + step), step := step }
  else
    .error (.fatal ("Sequence value overflow, value = " ++ toString newValue ++
      ", please check table " ++ tableName ++ " and Sequence name " ++ name))

/-- `nextRange(name, out)`, given what the database call comes back with. -/
def nextRange (name : String) (reply : DbReply) (out : DefaultSequenceWorker) :
    Except RefillFailure DefaultSequenceWorker :=
  if name = "" then .error (.throws ⟨"sequence name can't null"⟩)
  else match reply with
    | .noConnection => .error (.throws ⟨"can't get connection"⟩)
    | .sqlException => .error (.throws ⟨"System Error"⟩)
    | .noRow => install name (-1) 0 out
    | .row text => match parseReply text with
      | none => .error .overrun
      | some (newValue, step) => install name newValue step out

/-- A row whose reply has a comma is put to the tests of `install`. -/
theorem nextRange_of_parse {name : String} {text : List Char} {v s : Int} (hname : name ≠ "")
    (h : parseReply text = some (v, s)) (out : DefaultSequenceWorker) :
    nextRange name (.row text) out = install name v s out := by
  simp [nextRange, hname, h]

/-- A comma is found, unless the string is empty as a C string. -/
theorem myStrchr_comma (l r : List Char) (hl : ',' ∉ l) :
    myStrchr (l ++ ',' :: r) ',' =
      if l.head?.any fun c => c.toNat = 0 then .null else .found l.length := by
  have hidx : (l ++ ',' :: r).idxOf? ',' = some l.length := idxOf?_split hl
  cases l with
  | nil =>
    simp only [List.nil_append] at hidx ⊢
    simp [myStrchr, hidx]
  | cons c l =>
    simp only [List.cons_append] at hidx ⊢
    simp [myStrchr, hidx]

theorem parseReply_comma {l r : List Char} (hl : ',' ∉ l) (hnul : ∀ c ∈ l.head?, c.toNat ≠ 0) :
    parseReply (l ++ ',' :: r) = some (atol l, wrap32 (atol r)) := by
  have hnot : ¬ (l.head?.any fun c => c.toNat = 0) = true := by
    intro h
    obtain ⟨c, hc, h0⟩ := (Option.any_eq_true _ _).mp h
    exact hnul c hc (of_decide_eq_true h0)
  rw [parseReply, myStrchr_comma l r hl, if_neg hnot]
  simp

theorem install_eq_ok {name : String} {v s : Int} {out w : DefaultSequenceWorker}
    (h : install name v s out = .ok w) :
    v ≠ -1 ∧ v ≠ 0 ∧ v < 0x7fffffffffffffff - DELTA ∧
      w = { out with value := v, max := wrap64 (v + s), step := s } := by
  unfold install at h
  split at h
  · cases h
  · split at h
    · cases h
    · split at h
      · exact ⟨‹_›, ‹_›, ‹_›, (Except.ok.inj h).symm⟩
      · cases h

theorem parseReply_range {text : List Char} {v s : Int} (h : parseReply text = some (v, s)) :
    InInt64 v ∧ InInt32 s := by
  unfold parseReply at h
  split at h
  · simp only [Option.some.injEq, Prod.mk.injEq] at h
    obtain ⟨rfl, rfl⟩ := h
    exact ⟨inInt64_atol _, inInt32_wrap32 _⟩
  · simp only [Option.some.injEq, Prod.mk.injEq] at h
    obtain ⟨rfl, rfl⟩ := h
    exact ⟨by decide, by decide⟩
  · cases h

/-- **What a successful refill changes.** The three fields of the segment, nothing else, and
`max` is the 64-bit sum of the other two. -/
theorem nextRange_eq_ok {name : String} {reply : DbReply} {out w : DefaultSequenceWorker}
    (h : nextRange name reply out = .ok w) :
    name ≠ "" ∧ ∃ v s, InInt64 v ∧ InInt32 s ∧ v ≠ -1 ∧ v ≠ 0 ∧
      v < 0x7fffffffffffffff - DELTA ∧
      w = { out with value := v, max := wrap64 (v + s), step := s } := by
  unfold nextRange at h
  split at h
  · cases h
  · refine ⟨‹_›, ?_⟩
    split at h
    · cases h
    · cases h
    · exact ⟨_, _, by decide, by decide, install_eq_ok h⟩
    · split at h
      · cases h
      · rename_i v s hp
        exact ⟨v, s, (parseReply_range hp).1, (parseReply_range hp).2, install_eq_ok h⟩

/-- The same, as an equation between the worker's fields. -/
theorem nextRange_fields {name : String} {reply : DbReply} {out w : DefaultSequenceWorker}
    (h : nextRange name reply out = .ok w) :
    w.max = wrap64 (w.value + w.step) ∧ InInt64 w.value ∧ w.name = out.name ∧
      w.seqBits = out.seqBits ∧ w.datacenterIdMask32 = out.datacenterIdMask32 ∧
      w.datacenterIdMask64 = out.datacenterIdMask64 := by
  obtain ⟨-, v, s, hv, -, -, -, -, rfl⟩ := nextRange_eq_ok h
  exact ⟨rfl, hv, rfl, rfl, rfl, rfl⟩

/-- Without a row there is no segment. -/
theorem nextRange_row {name : String} {reply : DbReply} {out w : DefaultSequenceWorker}
    (h : nextRange name reply out = .ok w) : ∃ text, reply = .row text := by
  unfold nextRange at h
  split at h
  · cases h
  · split at h
    · cases h
    · cases h
    · exact absurd rfl (install_eq_ok h).1
    · exact ⟨_, rfl⟩

/-! ## Construction -/

/-- The masks and the largest datacenter id for a `seqBits`: the `switch` of the constructor.
The last component is the local `datacenterId`, which the default branch resets to 0. -/
def layout (seqBits datacenterId : Int) : Nat × Nat × Nat × Int :=
  if seqBits = 32 then
    (toU32 (datacenterId * 2 ^ sequenceBits32), 0, 2 ^ datacenterIdBits32 - 1, datacenterId)
  else if seqBits = 64 then
    (0, toU64 (toU64 datacenterId * 2 ^ sequenceBits64), 2 ^ datacenterIdBits64 - 1, datacenterId)
  else (0, 0, 0, 0)

/-- The constructor `DefaultSequenceWorker(name, workerId, datacenterId, seqBits)`, given the
reply to its first `nextRange`. -/
def construct (name : String) (datacenterId seqBits : Int) (reply : DbReply) :
    Except RefillFailure DefaultSequenceWorker :=
  let (mask32, mask64, maxDatacenterId, dc) := layout seqBits datacenterId
  if maxDatacenterId < toU32 dc ∨ dc < 0 then
    .error (.throws ⟨"datacenter Id can't be greater than " ++ toString maxDatacenterId ++
      " or less than 0"⟩)
  else
    nextRange name reply
      { name := name, seqBits := seqBits, datacenterIdMask32 := mask32,
        datacenterIdMask64 := mask64, value := 0, max := 0, step := 0 }

/-- A constructor that succeeds has installed a first segment. -/
theorem construct_nextRange {name : String} {dc bits : Int} {reply : DbReply}
    {w : DefaultSequenceWorker} (h : construct name dc bits reply = .ok w) :
    ∃ out, nextRange name reply out = .ok w := by
  unfold construct at h
  split at h
  split at h
  · cases h
  · exact ⟨_, h⟩

theorem construct_fields {name : String} {dc bits : Int} {reply : DbReply}
    {w : DefaultSequenceWorker} (h : construct name dc bits reply = .ok w) :
    w.max = wrap64 (w.value + w.step) ∧ InInt64 w.value ∧ w.name = name ∧ w.seqBits = bits ∧
      w.datacenterIdMask32 = (layout bits dc).1 ∧ w.datacenterIdMask64 = (layout bits dc).2.1 := by
  unfold construct at h
  split at h
  rename_i m32 m64 mx dc' hl
  split at h
  · cases h
  · obtain ⟨hmax, hv, hname, hbits, h32, h64⟩ := nextRange_fields h
    exact ⟨hmax, hv, hname, hbits, by rw [h32, hl], by rw [h64, hl]⟩

/-! ## Claiming counters -/

/-- `worker->value >= worker->max`. -/
def DefaultSequenceWorker.exhausted (w : DefaultSequenceWorker) : Prop := w.max ≤ w.value

instance (w : DefaultSequenceWorker) : Decidable w.exhausted := inferInstanceAs (Decidable (_ ≤ _))

/-- `__sync_add_and_fetch(&worker->value, step)`: the worker afterwards, whose `value` is the
result. -/
def DefaultSequenceWorker.addAndFetch (w : DefaultSequenceWorker) (step : Int) :
    DefaultSequenceWorker :=
  { w with value := wrap64 (w.value + step) }

@[simp] theorem DefaultSequenceWorker.addAndFetch_max (w : DefaultSequenceWorker) (step : Int) :
    (w.addAndFetch step).max = w.max := rfl

/-- The end of `addAndIncrement`: which range `currentValue` gives, `none` for status -1. -/
def classify (currentValue step max : Int) : Option SequenceRange :=
  if max < currentValue then
    if wrap64 (currentValue - step) < max then
      some ⟨wrap64 (wrap64 (currentValue - step) + 1), max⟩
    else none
  else some ⟨wrap64 (wrap64 (currentValue - step) + 1), currentValue⟩

/-- `addAndIncrement(step, worker, sr)` run without interference: `none` is status -1. -/
def addAndIncrement (step : Int) (w : DefaultSequenceWorker) :
    Option SequenceRange × DefaultSequenceWorker :=
  if w.exhausted then (none, w)
  else
    let w' := w.addAndFetch step
    (classify w'.value step w'.max, w')

/-- **What a claim gets.** When neither end of the addition leaves `int64_t`, a fetch-and-add
from `v` gets the counters of `(v, v + step]` up to `max`, and nothing if there are none. -/
theorem classify_of_noOverflow {v step max : Int} (hv : InInt64 v) (hvs : InInt64 (v + step))
    (hstep : 1 ≤ step) :
    classify (v + step) step max =
      if v < max then some ⟨v + 1, min (v + step) max⟩ else none := by
  have hprev : wrap64 (v + step - step) = v := by
    rw [show v + step - step = v by omega]
    exact wrap64_of_inInt64 hv
  have hsucc : wrap64 (v + 1) = v + 1 := by
    apply wrap64_of_inInt64
    unfold InInt64 at hv hvs ⊢
    omega
  unfold classify
  rw [hprev, hsucc]
  by_cases hover : max < v + step
  · rw [if_pos hover, min_eq_right hover.le]
  · rw [if_neg hover, if_pos (by omega), min_eq_left (by omega)]

/-! ## Tagging -/

/-- The `switch` at the end of `getAndIncrement` on one bound: `|` of the mask and of the
bound's 64-bit word, read back as a signed number. -/
def DefaultSequenceWorker.tag (w : DefaultSequenceWorker) (x : Int) : Int :=
  if w.seqBits = 32 then wrap64 (w.datacenterIdMask32 ||| toU64 x : Nat)
  else if w.seqBits = 64 then wrap64 (w.datacenterIdMask64 ||| toU64 x : Nat)
  else x

/-- The range as returned to the caller. -/
def DefaultSequenceWorker.tagRange (w : DefaultSequenceWorker) (r : SequenceRange) :
    SequenceRange :=
  ⟨w.tag r.min, w.tag r.max⟩

theorem tagRange_of_increment {w : DefaultSequenceWorker} (h : w.seqBits = 0)
    (r : SequenceRange) : w.tagRange r = r := by
  simp [DefaultSequenceWorker.tagRange, DefaultSequenceWorker.tag, h]

end DevTools.Sequence
