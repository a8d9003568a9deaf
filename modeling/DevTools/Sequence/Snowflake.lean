import DevTools.Sequence.DefaultWorker

/-!
# `SnowflakeIdWorker`

The worker behind the `SNOW_FLAKE` algorithm. An id is a millisecond, a node number and a
number inside the millisecond, packed into 64 bits.

* `timeGen` and `tilNextMillis` read a clock about which nothing is assumed.
* `reserve` is the locked section of `getAndIncrement`: it advances `sequence` and
  `lastTimestamp` and settles which numbers of which millisecond the call gets.
* `pack` shifts and ors the fields together; `pack_eq` reads it as arithmetic.

`construct` takes the file-level `maxWorkerId` and gives it back: one branch of the constructor
rewrites it for all workers of the process.
-/

namespace DevTools.Sequence

/-! ## Layout constants -/

/-- 2018-01-01, in milliseconds. -/
def twepoch : Int := 1514764800000

def workerIdBits : Nat := 5

def datacenterIdBits : Nat := 5

/-- What the variable `maxWorkerId` holds when the process starts. -/
def initialMaxWorkerId : Nat := 2 ^ workerIdBits - 1

def maxDatacenterId : Nat := 2 ^ datacenterIdBits - 1

def sequenceBits : Nat := 12

def workerIdShift : Nat := sequenceBits

def datacenterIdShift : Nat := sequenceBits + workerIdBits

def timestampLeftShift : Nat := sequenceBits + workerIdBits + datacenterIdBits

def sequenceMask : Nat := 2 ^ sequenceBits - 1

/-! ## The clock -/

/-- What one run of `timeGen` may see: `gettimeofday`, and `time` should it be asked. -/
structure Reading where
  tv_sec : Int
  tv_usec : Int
  time : Int
  deriving DecidableEq, Repr

/-- `timeGen(lastTimestamp)`. A reading before `lastTimestamp` gets one second more if the last
digits of its seconds and of `time(NULL)` differ. -/
def timeGen (lastTimestamp : Int) (r : Reading) : Int :=
  let timestamp := wrap64 (toU64 r.tv_sec * 1000 + toU64 r.tv_usec / 1000 : Nat)
  if timestamp < lastTimestamp then
    let tv_sec := if r.tv_sec.tmod 10 ≠ r.time.tmod 10 then r.tv_sec + 1 else r.tv_sec
    wrap64 (tv_sec * 1000 + r.tv_usec.tdiv 1000)
  else timestamp

/-- `tilNextMillis(lastTimestamp)`: the first later timestamp, `none` if the readings end
before there is one. -/
def tilNextMillis (lastTimestamp : Int) : List Reading → Option Int
  | [] => none
  | r :: later =>
    let timestamp := timeGen lastTimestamp r
    if timestamp ≤ lastTimestamp then tilNextMillis lastTimestamp later else some timestamp

theorem lt_of_tilNextMillis {last ts : Int} {clock : List Reading}
    (h : tilNextMillis last clock = some ts) : last < ts := by
  induction clock with
  | nil => cases h
  | cons r later ih =>
    simp only [tilNextMillis] at h
    split at h
    · exact ih h
    · cases h
      omega

/-! ## Construction -/

structure SnowflakeIdWorker where
  name : String
  workerId : Nat
  datacenterId : Int
  sequence : Nat
  lastTimestamp : Int
  deriving DecidableEq, Repr

namespace SnowflakeIdWorker

/-- The constructor, and `maxWorkerId` afterwards. The source also tests `workerId < 0`, which
no unsigned number meets. -/
def construct (maxWorkerId : Nat) (name : String) (workerId : Nat) (datacenterId : Int) :
    Except SequenceException SnowflakeIdWorker × Nat :=
  if datacenterId < 0 then checkWorkerId (2 ^ (workerIdBits + datacenterIdBits) - 1)
  else if maxDatacenterId < toU32 datacenterId then
    (.error ⟨"datacenter Id can't be greater than " ++ toString maxDatacenterId ++
      " or less than 0"⟩, maxWorkerId)
  else checkWorkerId maxWorkerId
where
  checkWorkerId (maxWorkerId : Nat) : Except SequenceException SnowflakeIdWorker × Nat :=
    if maxWorkerId < workerId then
      (.error ⟨"worker Id can't be greater than " ++ toString maxWorkerId ++
        " or less than 0"⟩, maxWorkerId)
    else
      (.ok { name := name, workerId := workerId, datacenterId := datacenterId, sequence := 0,
             lastTimestamp := 0 }, maxWorkerId)

/-! ## One call -/

/-- What the locked section leaves in the locals: the numbers `minSeq .. maxSeq` of the
millisecond `timestamp1`. -/
structure Issue where
  timestamp1 : Int
  minSeq : Nat
  maxSeq : Nat
  deriving DecidableEq, Repr

/-- The locked section of `getAndIncrement`, on the readings of its clock; `none` when
`tilNextMillis` does not come back. -/
def reserve (w : SnowflakeIdWorker) (step : Int) (clock : List Reading) :
    Option (Except SequenceException Issue × SnowflakeIdWorker) :=
  match clock with
  | [] => none
  | r :: later =>
    let timestamp := timeGen w.lastTimestamp r
    if timestamp < w.lastTimestamp then
      some (.error ⟨"Clock moved backwards.  Refusing to generate id for " ++
        toString (w.lastTimestamp - timestamp) ++ " milliseconds:" ++ toString timestamp ++ ":" ++
        toString w.lastTimestamp⟩, w)
    else if w.lastTimestamp = timestamp then
      let minSeq := (w.sequence + 1) % 2 ^ 32
      let sequence := (w.sequence + toU32 step) % 2 ^ 32
      if sequenceMask < sequence then
        match tilNextMillis w.lastTimestamp later with
        | none => none
        | some timestamp =>
          if sequenceMask < minSeq then
            some (.ok ⟨timestamp, 0, toU32 (step - 1)⟩,
              { w with sequence := toU32 (step - 1), lastTimestamp := timestamp })
          else
            -- the rest of the old millisecond; the new one is stored
            some (.ok ⟨w.lastTimestamp, minSeq, sequenceMask⟩,
              { w with sequence := 0, lastTimestamp := timestamp })
      else
        some (.ok ⟨timestamp, minSeq, sequence⟩,
          { w with sequence := sequence, lastTimestamp := timestamp })
    else
      some (.ok ⟨timestamp, 0, toU32 (step - 1)⟩,
        { w with sequence := toU32 (step - 1), lastTimestamp := timestamp })

/-- `tmpSeq`: the id without its number. -/
def tmpSeq (w : SnowflakeIdWorker) (timestamp1 : Int) : Int :=
  if w.datacenterId < 0 then
    or64 (shl64 (timestamp1 - twepoch) timestampLeftShift) (shlU32 w.workerId workerIdShift)
  else
    or64 (or64 (shl64 (timestamp1 - twepoch) timestampLeftShift)
      (shl32 w.datacenterId datacenterIdShift)) (shlU32 w.workerId workerIdShift)

/-- The range a call returns for what it reserved. -/
def pack (w : SnowflakeIdWorker) (iss : Issue) : SequenceRange :=
  ⟨or64 (w.tmpSeq iss.timestamp1) iss.minSeq, or64 (w.tmpSeq iss.timestamp1) iss.maxSeq⟩

/-- `getAndIncrement(step, sr)`: the range or the exception, and the worker afterwards; `none`
when the call does not return. -/
def getAndIncrement (w : SnowflakeIdWorker) (step : Int) (clock : List Reading) :
    Option (Except SequenceException SequenceRange × SnowflakeIdWorker) :=
  if sequenceMask < toU32 step then
    some (.error ⟨"'" ++ w.name ++ "' step(" ++ toString step ++ ") more than " ++
      toString sequenceMask⟩, w)
  else match w.reserve step clock with
    | none => none
    | some (.error e, w') => some (.error e, w')
    | some (.ok iss, w') => some (.ok (w'.pack iss), w')

/-! ## What a call reserves -/

/-- The fields stay inside their bits. -/
structure Fits (w : SnowflakeIdWorker) : Prop where
  workerId : w.workerId < 2 ^ (workerIdBits + datacenterIdBits)
  datacenterId : w.datacenterId ≤ maxDatacenterId
  sequence : w.sequence ≤ sequenceMask

/-- **What the locked section can do.** A call with a step in `1 .. 4095` gets the next numbers
of the current millisecond, or the first ones of a later millisecond, or the rest of the current
millisecond while the worker moves on to a later one. -/
theorem reserve_cases {w w' : SnowflakeIdWorker} {step : Int} {clock : List Reading} {iss : Issue}
    (hw : w.sequence ≤ sequenceMask) (hpos : 1 ≤ step) (hle : step ≤ sequenceMask)
    (h : w.reserve step clock = some (.ok iss, w')) :
    (w.sequence + step.toNat ≤ sequenceMask ∧
      iss = ⟨w.lastTimestamp, w.sequence + 1, w.sequence + step.toNat⟩ ∧
      w' = { w with sequence := w.sequence + step.toNat }) ∨
    (∃ ts, w.lastTimestamp < ts ∧ iss = ⟨ts, 0, step.toNat - 1⟩ ∧
      w' = { w with sequence := step.toNat - 1, lastTimestamp := ts }) ∨
    (∃ ts, w.lastTimestamp < ts ∧ w.sequence + 1 ≤ sequenceMask ∧
      sequenceMask < w.sequence + step.toNat ∧
      iss = ⟨w.lastTimestamp, w.sequence + 1, sequenceMask⟩ ∧
      w' = { w with sequence := 0, lastTimestamp := ts }) := by
  have hmask : sequenceMask = 4095 := rfl
  have hnum : (w.sequence + toU32 step) % 2 ^ 32 = w.sequence + step.toNat := by
    unfold toU32
    omega
  have hmin : (w.sequence + 1) % 2 ^ 32 = w.sequence + 1 := by omega
  have hfirst : toU32 (step - 1) = step.toNat - 1 := by
    unfold toU32
    omega
  unfold reserve at h
  split at h
  · cases h
  · simp only [hnum, hmin, hfirst] at h
    split at h
    · cases h
    · split at h
      · rename_i hge hsame
        split at h
        · split at h
          · cases h
          · rename_i ts hts
            have hlt := lt_of_tilNextMillis hts
            split at h
            · cases h
              exact .inr (.inl ⟨ts, hlt, rfl, rfl⟩)
            · cases h
              exact .inr (.inr ⟨ts, hlt, by omega, by omega, rfl, rfl⟩)
        · cases h
          refine .inl ⟨by omega, by rw [← hsame], by rw [← hsame]⟩
      · rename_i hge hne
        cases h
        exact .inr (.inl ⟨_, by omega, rfl, rfl⟩)

theorem reserve_of_throws {w w' : SnowflakeIdWorker} {step : Int} {clock : List Reading}
    {e : SequenceException} (h : w.reserve step clock = some (.error e, w')) : w' = w := by
  unfold reserve at h
  split at h
  · cases h
  · simp only at h
    split at h
    · cases h
      rfl
    · split at h
      · split at h
        · split at h
          · cases h
          · split at h
            · cases h
            · cases h
        · cases h
      · cases h

/-- Nothing but `sequence` and `lastTimestamp` ever changes. -/
theorem reserve_identity {w w' : SnowflakeIdWorker} {step : Int} {clock : List Reading}
    {res : Except SequenceException Issue} (h : w.reserve step clock = some (res, w')) :
    w'.workerId = w.workerId ∧ w'.datacenterId = w.datacenterId := by
  unfold reserve at h
  split at h
  · cases h
  · simp only at h
    split at h
    · cases h
      exact ⟨rfl, rfl⟩
    · split at h
      · split at h
        · split at h
          · cases h
          · split at h
            · cases h
              exact ⟨rfl, rfl⟩
            · cases h
              exact ⟨rfl, rfl⟩
        · cases h
          exact ⟨rfl, rfl⟩
      · cases h
        exact ⟨rfl, rfl⟩

/-- A call that throws has changed nothing. -/
theorem eq_of_throws {w w' : SnowflakeIdWorker} {step : Int} {clock : List Reading}
    {e : SequenceException} (h : w.getAndIncrement step clock = some (.error e, w')) : w' = w := by
  unfold getAndIncrement at h
  split at h
  · cases h
    rfl
  · split at h
    · cases h
    · rename_i hres
      cases h
      exact reserve_of_throws hres
    · cases h

/-- A call that returns has reserved what it returns. -/
theorem reserve_of_returns {w w' : SnowflakeIdWorker} {step : Int} {clock : List Reading}
    {r : SequenceRange} (h : w.getAndIncrement step clock = some (.ok r, w')) :
    toU32 step ≤ sequenceMask ∧ ∃ iss, w.reserve step clock = some (.ok iss, w') ∧
      r = w'.pack iss := by
  unfold getAndIncrement at h
  split at h
  · cases h
  · refine ⟨by omega, ?_⟩
    split at h
    · cases h
    · cases h
    · rename_i iss w'' hres
      simp only [Option.some.injEq, Prod.mk.injEq, Except.ok.injEq] at h
      obtain ⟨rfl, rfl⟩ := h
      exact ⟨iss, hres, rfl⟩

/-! ## Packing -/

/-- The millisecond can be packed. -/
def InEpoch (timestamp : Int) : Prop := twepoch ≤ timestamp ∧ timestamp < twepoch + 2 ^ 41

instance (t : Int) : Decidable (InEpoch t) := inferInstanceAs (Decidable (_ ∧ _))

/-- The ten bits between the number and the millisecond. -/
def node (w : SnowflakeIdWorker) : Nat :=
  if w.datacenterId < 0 then w.workerId
  else w.datacenterId.toNat * 2 ^ workerIdBits ||| w.workerId

/-- The id of a number of a millisecond, as an unbounded integer. -/
def idOf (w : SnowflakeIdWorker) (timestamp : Int) (number : Nat) : Int :=
  ((timestamp - twepoch) * 2 ^ 10 + w.node) * 2 ^ 12 + number

theorem node_lt {w : SnowflakeIdWorker} (h : w.Fits) : w.node < 2 ^ 10 := by
  have hw : w.workerId < 2 ^ 10 := h.workerId
  unfold node
  split
  · exact hw
  · have hd : w.datacenterId ≤ 31 := h.datacenterId
    apply Nat.or_lt_two_pow _ hw
    show w.datacenterId.toNat * 32 < 1024
    omega

/-- The node's bits are or-ed in at once. -/
theorem tmpSeq_or {w : SnowflakeIdWorker} (h : w.Fits) (t : Int) :
    w.tmpSeq t = or64 (shl64 (t - twepoch) timestampLeftShift) (w.node * 2 ^ 12 : Nat) := by
  have hw : w.workerId < 2 ^ 10 := h.workerId
  have hworker : shlU32 w.workerId workerIdShift = w.workerId * 2 ^ 12 := by
    apply shlU32_of_range
    show w.workerId * 2 ^ 12 < _
    omega
  unfold tmpSeq
  rw [hworker]
  by_cases hd : w.datacenterId < 0
  · have hnode : w.node = w.workerId := if_pos hd
    rw [if_pos hd, hnode]
  · have hnode : w.node = (w.datacenterId.toNat * 2 ^ 5 ||| w.workerId) := if_neg hd
    have hdc : w.datacenterId ≤ 31 := h.datacenterId
    have hdata : shl32 w.datacenterId datacenterIdShift =
        (w.datacenterId.toNat * 2 ^ 5 * 2 ^ 12 : Nat) := by
      rw [shl32_of_range]
      · show w.datacenterId * 2 ^ 17 = _
        omega
      · show _ ≤ w.datacenterId * 2 ^ 17 ∧ w.datacenterId * 2 ^ 17 < _
        omega
    rw [if_neg hd, or64_assoc, hdata, or64_natCast (by omega) (by omega),
      mul_two_pow_or_mul_two_pow, ← hnode]

/-- **The fields of an id without its number.** The millisecond wraps to 42 bits and sign; the
node's ten bits lie below it. -/
theorem tmpSeq_fields {w : SnowflakeIdWorker} (h : w.Fits) (t : Int) :
    ∃ ts : Int, -2 ^ 41 ≤ ts ∧ ts < 2 ^ 41 ∧ (InEpoch t → ts = t - twepoch) ∧
      w.tmpSeq t = (ts * 2 ^ 10 + w.node) * 2 ^ 12 := by
  have hnode := node_lt h
  have hshift : shl64 (t - twepoch) timestampLeftShift = wrap64 ((t - twepoch) * 2 ^ 22) := rfl
  obtain ⟨ts, hts⟩ : ∃ ts : Int, wrap64 ((t - twepoch) * 2 ^ 22) = ts * 2 ^ 22 := by
    refine ⟨wrap64 ((t - twepoch) * 2 ^ 22) / 2 ^ 22, ?_⟩
    unfold wrap64
    omega
  have hrange : -2 ^ 41 ≤ ts ∧ ts < 2 ^ 41 := by
    unfold wrap64 at hts
    omega
  have hupper : toU64 (ts * 2 ^ 22) = (ts % 2 ^ 42).toNat * 2 ^ 22 := by
    unfold toU64
    omega
  refine ⟨ts, hrange.1, hrange.2, ?_, ?_⟩
  · intro ht
    unfold InEpoch at ht
    rw [wrap64_of_inInt64 ⟨by omega, by omega⟩] at hts
    omega
  · rw [tmpSeq_or h, hshift, hts, or64_low hupper (by omega) (by omega),
      wrap64_of_inInt64 ⟨by omega, by omega⟩]
    push_cast
    ring

theorem tmpSeq_eq {w : SnowflakeIdWorker} (h : w.Fits) {t : Int} (ht : InEpoch t) :
    w.tmpSeq t = w.idOf t 0 := by
  obtain ⟨ts, -, -, hts, heq⟩ := tmpSeq_fields h t
  rw [heq, hts ht, idOf, Nat.cast_zero, add_zero]

/-- A number is or-ed in where the id is clear. -/
theorem or64_tmpSeq {w : SnowflakeIdWorker} (h : w.Fits) (t : Int) {q : Nat}
    (hq : q ≤ sequenceMask) : or64 (w.tmpSeq t) q = w.tmpSeq t + q := by
  have hmask : sequenceMask = 4095 := rfl
  have hnode := node_lt h
  obtain ⟨ts, hlow, hhigh, -, heq⟩ := tmpSeq_fields h t
  have hupper : toU64 (w.tmpSeq t) = ((ts * 2 ^ 10 + w.node) % 2 ^ 52).toNat * 2 ^ 12 := by
    rw [heq]
    unfold toU64
    omega
  rw [or64_low hupper (by omega) (by omega), heq]
  apply wrap64_of_inInt64
  unfold InInt64
  omega

/-- **Packing as arithmetic.** With the fields inside their bits, or-ing is adding. -/
theorem pack_eq {w : SnowflakeIdWorker} (h : w.Fits) {iss : Issue} (ht : InEpoch iss.timestamp1)
    (hmin : iss.minSeq ≤ sequenceMask) (hmax : iss.maxSeq ≤ sequenceMask) :
    w.pack iss = ⟨w.idOf iss.timestamp1 iss.minSeq, w.idOf iss.timestamp1 iss.maxSeq⟩ := by
  have hadd (q : Nat) : w.idOf iss.timestamp1 0 + q = w.idOf iss.timestamp1 q := by
    simp [idOf]
  unfold pack
  rw [or64_tmpSeq h _ hmin, or64_tmpSeq h _ hmax, tmpSeq_eq h ht, hadd, hadd]

/-! ## What a call returns -/

theorem idOf_lt {w : SnowflakeIdWorker} {t t' : Int} {q q' : Nat} (hq : q ≤ sequenceMask)
    (h : t < t' ∨ t = t' ∧ q < q') : w.idOf t q < w.idOf t' q' := by
  have hmask : sequenceMask = 4095 := rfl
  unfold idOf
  omega

theorem idOf_congr {w w' : SnowflakeIdWorker} (h : w'.node = w.node) (t : Int) (q : Nat) :
    w'.idOf t q = w.idOf t q := by
  unfold idOf
  rw [h]

theorem reserve_fits {w w' : SnowflakeIdWorker} {step : Int} {clock : List Reading} {iss : Issue}
    (hw : w.Fits) (hpos : 1 ≤ step) (hle : step ≤ sequenceMask)
    (h : w.reserve step clock = some (.ok iss, w')) : w'.Fits ∧ w'.node = w.node := by
  have hmask : sequenceMask = 4095 := rfl
  obtain ⟨hseq, -, rfl⟩ | ⟨ts, -, -, rfl⟩ | ⟨ts, -, -, -, -, rfl⟩ :=
    reserve_cases hw.sequence hpos hle h
  · exact ⟨⟨hw.workerId, hw.datacenterId, hseq⟩, rfl⟩
  · refine ⟨⟨hw.workerId, hw.datacenterId, ?_⟩, rfl⟩
    show step.toNat - 1 ≤ sequenceMask
    omega
  · exact ⟨⟨hw.workerId, hw.datacenterId, Nat.zero_le _⟩, rfl⟩

/-- The reserved numbers come after everything up to the old state and no later than the new
one. -/
theorem reserve_order {w w' : SnowflakeIdWorker} {step : Int} {clock : List Reading} {iss : Issue}
    (hw : w.Fits) (hpos : 1 ≤ step) (hle : step ≤ sequenceMask)
    (h : w.reserve step clock = some (.ok iss, w')) :
    iss.minSeq ≤ iss.maxSeq ∧ iss.maxSeq ≤ sequenceMask ∧
      w.idOf w.lastTimestamp w.sequence < w.idOf iss.timestamp1 iss.minSeq ∧
      w.idOf iss.timestamp1 iss.maxSeq ≤ w.idOf w'.lastTimestamp w'.sequence := by
  have hmask : sequenceMask = 4095 := rfl
  have hseq := hw.sequence
  obtain ⟨hfit, rfl, rfl⟩ | ⟨ts, hts, rfl, rfl⟩ | ⟨ts, hts, hmin, -, rfl, rfl⟩ :=
    reserve_cases hw.sequence hpos hle h
  · refine ⟨?_, hfit, idOf_lt hseq (.inr ⟨rfl, Nat.lt_succ_self _⟩), le_rfl⟩
    show w.sequence + 1 ≤ w.sequence + step.toNat
    omega
  · refine ⟨Nat.zero_le _, ?_, idOf_lt hseq (.inl hts), le_rfl⟩
    show step.toNat - 1 ≤ sequenceMask
    omega
  · exact ⟨hmin, le_rfl, idOf_lt hseq (.inr ⟨rfl, Nat.lt_succ_self _⟩),
      (idOf_lt le_rfl (.inl hts)).le⟩

/-- Every id between two ids of one millisecond has that millisecond's node bits. -/
theorem node_of_mem {w : SnowflakeIdWorker} (hw : w.Fits) {t x : Int} {q q' : Nat}
    (hq : q' ≤ sequenceMask) (hx : w.idOf t q ≤ x ∧ x ≤ w.idOf t q') :
    x / 2 ^ 12 % 2 ^ 10 = w.node := by
  have hmask : sequenceMask = 4095 := rfl
  have hnode := node_lt hw
  unfold idOf at hx
  omega

/-- **One call.** The range lies after all ids up to the worker's old state, ends no later than
its new state, and keeps to the worker's node. -/
theorem getAndIncrement_spec {w w' : SnowflakeIdWorker} {step : Int} {clock : List Reading}
    {r : SequenceRange} (hw : w.Fits) (hpos : 1 ≤ step) (hle : step ≤ sequenceMask)
    (h : w.getAndIncrement step clock = some (.ok r, w'))
    (ht : ∀ iss, w.reserve step clock = some (.ok iss, w') → InEpoch iss.timestamp1) :
    w'.Fits ∧ w'.node = w.node ∧ r.min ≤ r.max ∧
      w.idOf w.lastTimestamp w.sequence < r.min ∧
      r.max ≤ w'.idOf w'.lastTimestamp w'.sequence ∧
      ∀ x, r.min ≤ x ∧ x ≤ r.max → x / 2 ^ 12 % 2 ^ 10 = w.node := by
  obtain ⟨-, iss, hres, rfl⟩ := reserve_of_returns h
  obtain ⟨hfits, hnode⟩ := reserve_fits hw hpos hle hres
  obtain ⟨hne, hmax, hafter, hupto⟩ := reserve_order hw hpos hle hres
  have hpack := pack_eq hfits (ht iss hres) (hne.trans hmax) hmax
  rw [idOf_congr hnode, idOf_congr hnode] at hpack
  rw [hpack]
  refine ⟨hfits, hnode, ?_, hafter, ?_, ?_⟩
  · show w.idOf _ _ ≤ w.idOf _ _
    unfold idOf
    omega
  · rw [idOf_congr hnode]
    exact hupto
  · intro x hx
    exact node_of_mem hw hmax hx

end SnowflakeIdWorker

end DevTools.Sequence
