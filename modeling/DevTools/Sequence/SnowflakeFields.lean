import DevTools.Sequence.SnowflakeRuns
import Mathlib.Data.Int.Interval
import Mathlib.Data.Set.Card

/-!
# The fields of a Snowflake id

**Theorem (`decode_packed`).** The `SNOW_FLAKE` case of `SeqTools` reads back the millisecond, the
node number and the number that an id was packed from, ids are not negative, and the ids of one
worker are ordered by millisecond and number.

The second half is about the steps that `getAndIncrement` lets through, `0 .. 4095`. A step of 0
makes `step - 1` wrap: in a new millisecond it is stored as the number 4294967295.

**Theorem (`inFields_iff`).** As long as no earlier call has done so, a call keeps its range inside
the fields exactly if its step is not 0, or the millisecond is not a new one and the number after
`sequence` does not run into the node's bits.
-/

namespace DevTools.Sequence

/-! ## The decoder -/

/-- The `SNOW_FLAKE` case of `SeqTools`: `timestamp`, `workerId` and `sequence`. The shifts round
down, and `&` with `k` low ones is the remainder by `2 ^ k`. -/
def decodeSnowflake (sequence : Int) : Int × Nat × Int :=
  (wrap64 (sequence / 2 ^ timestampLeftShift + twepoch),
    toU32 (sequence / 2 ^ sequenceBits % 2 ^ 10), sequence % 2 ^ sequenceBits)

namespace SnowflakeIdWorker

/-- The id that `getAndIncrement` makes of one number. -/
def packed (w : SnowflakeIdWorker) (timestamp1 : Int) (number : Nat) : Int :=
  or64 (w.tmpSeq timestamp1) number

/-- The constructor accepts these fields in any process. -/
def Accepted (w : SnowflakeIdWorker) : Prop :=
  (w.datacenterId < 0 ∧ w.workerId ≤ 1023) ∨
    (0 ≤ w.datacenterId ∧ w.datacenterId ≤ 31 ∧ w.workerId ≤ 31)

/-- The node number that the two layouts stand for. -/
def nodeNumber (w : SnowflakeIdWorker) : Nat :=
  if w.datacenterId < 0 then w.workerId else w.datacenterId.toNat * 32 + w.workerId

variable {w w' : SnowflakeIdWorker}

theorem packed_eq (h : w.Fits) {t : Int} (ht : InEpoch t) {q : Nat} (hq : q ≤ sequenceMask) :
    w.packed t q = w.idOf t q := by
  unfold packed
  rw [or64_tmpSeq h t hq, tmpSeq_eq h ht]
  simp [idOf]

theorem node_eq_nodeNumber (h : w.Accepted) : w.node = w.nodeNumber := by
  unfold node nodeNumber
  rcases h with ⟨hneg, -⟩ | ⟨hpos, -, hid⟩
  · rw [if_pos hneg, if_pos hneg]
  · rw [if_neg (by omega), if_neg (by omega)]
    exact mul_two_pow_or (k := 5) (by omega)

theorem Accepted.fits (h : w.Accepted) : { w with sequence := 0 }.Fits := by
  refine ⟨?_, ?_, Nat.zero_le _⟩
  · show w.workerId < 1024
    rcases h with ⟨-, hid⟩ | ⟨-, -, hid⟩
    · omega
    · omega
  · show w.datacenterId ≤ 31
    rcases h with ⟨hneg, -⟩ | ⟨-, hdc, -⟩
    · omega
    · exact hdc

/-- Taking apart what `idOf` puts together. -/
theorem decode_idOf (h : w.Fits) {t : Int} (ht : InEpoch t) {q : Nat} (hq : q ≤ sequenceMask) :
    decodeSnowflake (w.idOf t q) = (t, w.node, (q : Int)) := by
  have hmask : sequenceMask = 4095 := rfl
  have hnode := node_lt h
  have hepoch : twepoch = 1514764800000 := rfl
  unfold InEpoch at ht
  have htime : wrap64 (w.idOf t q / 2 ^ timestampLeftShift + twepoch) = t := by
    have hdiv : w.idOf t q / 2 ^ timestampLeftShift = t - twepoch := by
      show w.idOf t q / 2 ^ 22 = _
      unfold idOf
      omega
    rw [hdiv, sub_add_cancel]
    exact wrap64_of_inInt64 ⟨by omega, by omega⟩
  have hid : toU32 (w.idOf t q / 2 ^ sequenceBits % 2 ^ 10) = w.node := by
    have hbits : w.idOf t q / 2 ^ sequenceBits % 2 ^ 10 = w.node := by
      show w.idOf t q / 2 ^ 12 % 2 ^ 10 = _
      unfold idOf
      omega
    rw [hbits]
    unfold toU32
    omega
  have hnum : w.idOf t q % 2 ^ sequenceBits = q := by
    show w.idOf t q % 2 ^ 12 = _
    unfold idOf
    omega
  unfold decodeSnowflake
  rw [htime, hid, hnum]

theorem idOf_lt_iff {t t' : Int} {q q' : Nat} (hq : q ≤ sequenceMask) (hq' : q' ≤ sequenceMask) :
    w.idOf t q < w.idOf t' q' ↔ t < t' ∨ t = t' ∧ q < q' := by
  have hmask : sequenceMask = 4095 := rfl
  unfold idOf
  omega

/-- The greatest node. -/
def sampleDatacenter : SnowflakeIdWorker := ⟨"ORDER", 31, 31, 0, 0⟩

/-- **Packing and `SeqTools` are inverse.** -/
theorem decode_packed (hw : w.Accepted) {t : Int} (ht : InEpoch t) {q : Nat}
    (hq : q ≤ sequenceMask) :
    decodeSnowflake (w.packed t q) = (t, w.nodeNumber, (q : Int)) ∧
      0 ≤ w.packed t q ∧ InInt64 (w.packed t q) ∧
      ∀ t' q', InEpoch t' → q' ≤ sequenceMask →
        (w.packed t q < w.packed t' q' ↔ t < t' ∨ t = t' ∧ q < q') := by
  have hfits := hw.fits
  have hnode : w.node < 2 ^ 10 := (node_lt hfits :)
  have hmask : sequenceMask = 4095 := rfl
  -- packing does not look at `sequence`
  have hpacked {t : Int} (ht : InEpoch t) {q : Nat} (hq : q ≤ sequenceMask) :
      w.packed t q = w.idOf t q := (packed_eq hfits ht hq :)
  have hdecode : decodeSnowflake (w.idOf t q) = (t, w.node, (q : Int)) :=
    (decode_idOf hfits ht hq :)
  have hrange : 0 ≤ w.idOf t q ∧ w.idOf t q < 2 ^ 63 := by
    unfold InEpoch at ht
    unfold idOf
    omega
  rw [hpacked ht hq, ← node_eq_nodeNumber hw]
  refine ⟨hdecode, hrange.1, ⟨by omega, hrange.2⟩, ?_⟩
  intro t' q' ht' hq'
  rw [hpacked ht' hq']
  exact idOf_lt_iff hq hq'

theorem decode_packed_sample :
    sampleDatacenter.Accepted ∧ InEpoch (twepoch + 2 ^ 41 - 1) ∧
      decodeSnowflake (sampleDatacenter.packed (twepoch + 2 ^ 41 - 1) 4095) =
        (twepoch + 2 ^ 41 - 1, 1023, 4095) := by
  have hw : sampleDatacenter.Accepted := .inr (by decide)
  have ht : InEpoch (twepoch + 2 ^ 41 - 1) := by decide
  exact ⟨hw, ht, (decode_packed hw ht (q := 4095) (by decide)).1⟩

/-! ## Every step that is let through -/

/-- How many ids a range holds. -/
def count (r : SequenceRange) : Nat := (r.max + 1 - r.min).toNat

theorem ncard_ids (r : SequenceRange) : r.ids.ncard = count r := by
  unfold SequenceRange.ids count
  rw [Set.ncard_eq_toFinset_card', Set.toFinset_Icc, Int.card_Icc]

/-- What a call should leave behind: a number of twelve bits, and ids that share one millisecond
and the worker's own node, as many as asked for unless the millisecond ends. -/
structure InFields (w w' : SnowflakeIdWorker) (step : Int) (r : SequenceRange) : Prop where
  sequence : w'.sequence ≤ sequenceMask
  fields : ∃ ts : Int, ∀ x ∈ r.ids, x / 2 ^ 22 = ts ∧ x / 2 ^ 12 % 2 ^ 10 = w.node
  atMost : r.ids.ncard ≤ step
  exactly : r.ids.ncard = step ∨ r.max % 2 ^ 12 = sequenceMask

/-- The range of the numbers `q .. q'` of a millisecond. -/
theorem fields_of_pack (h : w.Fits) {iss : Issue} (hmin : iss.minSeq ≤ sequenceMask)
    (hmax : iss.maxSeq ≤ sequenceMask) :
    (∃ ts : Int, ∀ x ∈ (w.pack iss).ids, x / 2 ^ 22 = ts ∧ x / 2 ^ 12 % 2 ^ 10 = w.node) ∧
      (w.pack iss).ids.ncard = iss.maxSeq + 1 - iss.minSeq ∧
      (w.pack iss).max % 2 ^ 12 = iss.maxSeq := by
  have hmask : sequenceMask = 4095 := rfl
  have hnode := node_lt h
  obtain ⟨ts, -, -, -, heq⟩ := tmpSeq_fields h iss.timestamp1
  have hpack : w.pack iss =
      ⟨w.tmpSeq iss.timestamp1 + iss.minSeq, w.tmpSeq iss.timestamp1 + iss.maxSeq⟩ := by
    unfold pack
    rw [or64_tmpSeq h _ hmin, or64_tmpSeq h _ hmax]
  rw [ncard_ids, hpack, heq]
  refine ⟨⟨ts, ?_⟩, ?_, ?_⟩
  · intro x hx
    simp only [SequenceRange.ids, Set.mem_Icc] at hx
    omega
  · unfold count
    simp only
    omega
  · simp only
    omega

/-- **A step of 0.** In the current millisecond nothing is reserved; in a new one `step - 1`
wraps. -/
theorem reserve_zero {clock : List Reading} {iss : Issue} (hw : w.sequence ≤ sequenceMask)
    (h : w.reserve 0 clock = some (.ok iss, w')) :
    ∃ r later, clock = r :: later ∧
      ((timeGen w.lastTimestamp r = w.lastTimestamp ∧
          iss = ⟨w.lastTimestamp, w.sequence + 1, w.sequence⟩ ∧ w' = w) ∨
        (w.lastTimestamp < timeGen w.lastTimestamp r ∧ w'.sequence = 2 ^ 32 - 1)) := by
  have hmask : sequenceMask = 4095 := rfl
  have hnum : (w.sequence + toU32 0) % 2 ^ 32 = w.sequence := by
    unfold toU32
    omega
  have hmin : (w.sequence + 1) % 2 ^ 32 = w.sequence + 1 := by omega
  have hwrap : toU32 (0 - 1) = 2 ^ 32 - 1 := by decide
  unfold reserve at h
  split at h
  · cases h
  · rename_i r later
    refine ⟨r, later, rfl, ?_⟩
    simp only [hnum, hmin, hwrap] at h
    split at h
    · cases h
    · split at h
      · rename_i hge hsame
        rw [if_neg (by omega)] at h
        cases h
        exact .inl ⟨hsame.symm, by rw [← hsame], by rw [← hsame]⟩
      · rename_i hge hne
        cases h
        exact .inr ⟨by omega, rfl⟩

/-- The number after the last one of a millisecond is the lowest bit of the node. -/
theorem or64_overflow (h : w.Fits) (t : Int) :
    or64 (w.tmpSeq t) (sequenceMask + 1 : Nat) =
      if 2 ∣ w.node then w.tmpSeq t + 4096 else w.tmpSeq t := by
  have hnode := node_lt h
  obtain ⟨ts, hlow, hhigh, -, heq⟩ := tmpSeq_fields h t
  -- the id without that bit
  have hclear (n : Nat) (hn : n < 2 ^ 9) :
      or64 ((ts * 2 ^ 9 + n) * 2 ^ 13) (4096 : Nat) = (ts * 2 ^ 9 + n) * 2 ^ 13 + 4096 := by
    have hupper : toU64 ((ts * 2 ^ 9 + n) * 2 ^ 13) =
        ((ts * 2 ^ 9 + n) % 2 ^ 51).toNat * 2 ^ 13 := by
      unfold toU64
      omega
    rw [or64_low hupper (by omega) (by omega), wrap64_of_inInt64 ⟨by omega, by omega⟩]
    rfl
  show or64 (w.tmpSeq t) (4096 : Nat) = _
  split_ifs with heven
  · have hid : w.tmpSeq t = (ts * 2 ^ 9 + (w.node / 2 : Nat)) * 2 ^ 13 := by
      rw [heq]
      omega
    rw [hid]
    exact hclear _ (by omega)
  · have hid : w.tmpSeq t = or64 ((ts * 2 ^ 9 + (w.node / 2 : Nat)) * 2 ^ 13) (4096 : Nat) := by
      rw [hclear _ (by omega), heq]
      omega
    have hidem : or64 (4096 : Nat) (4096 : Nat) = (4096 : Nat) := by decide
    rw [hid, or64_assoc, hidem]

/-! ## Runs -/

/-- A call of step 0 stays in the current millisecond, and the number after `sequence` is not a
bit of the node. -/
def Sound (w : SnowflakeIdWorker) (c : SnowflakeCall) : Prop :=
  c.step = 0 → ∀ r later, c.clock = r :: later → timeGen w.lastTimestamp r ≤ w.lastTimestamp ∧
    (w.sequence < sequenceMask ∨ 2 ∣ w.node)

/-- One worker, accepted after any construction history, and all the calls on it that come
back. -/
def calls : LTS SnowflakeIdWorker SnowflakeCall where
  init w := ∃ (history : List Construction) (c : Construction), c.Accepted history w
  step w c w' := InInt32 c.step ∧ ∃ res, w.getAndIncrement c.step c.clock = some (res, w')

/-- The steps that are let through. -/
theorem admitted_step {step : Int} (hint : InInt32 step) (h : toU32 step ≤ sequenceMask) :
    0 ≤ step ∧ step ≤ sequenceMask := by
  have hmask : sequenceMask = 4095 := rfl
  unfold InInt32 at hint
  unfold toU32 at h
  omega

/-- How many numbers are reserved. -/
theorem reserve_count {step : Int} {clock : List Reading} {iss : Issue} (hw : w.Fits)
    (hpos : 1 ≤ step) (hle : step ≤ sequenceMask)
    (h : w.reserve step clock = some (.ok iss, w')) :
    (iss.maxSeq + 1 - iss.minSeq : Nat) ≤ step ∧
      ((iss.maxSeq + 1 - iss.minSeq : Nat) = step ∨ iss.maxSeq = sequenceMask) := by
  have hmask : sequenceMask = 4095 := rfl
  have hseq := hw.sequence
  obtain ⟨-, rfl, -⟩ | ⟨ts, -, rfl, -⟩ | ⟨ts, -, -, hover, rfl, -⟩ :=
    reserve_cases hw.sequence hpos hle h
  · simp only
    omega
  · simp only
    omega
  · refine ⟨?_, .inr rfl⟩
    simp only
    omega

theorem inFields_of_pos {step : Int} {clock : List Reading} {r : SequenceRange} (hw : w.Fits)
    (hpos : 1 ≤ step) (hle : step ≤ sequenceMask)
    (hcall : w.getAndIncrement step clock = some (.ok r, w')) : InFields w w' step r := by
  obtain ⟨-, iss, hres, rfl⟩ := reserve_of_returns hcall
  obtain ⟨hfits, hnode⟩ := reserve_fits hw hpos hle hres
  obtain ⟨hne, hmax, -, -⟩ := reserve_order hw hpos hle hres
  obtain ⟨hmost, hexact⟩ := reserve_count hw hpos hle hres
  obtain ⟨hfields, hcard, hlast⟩ := fields_of_pack hfits (hne.trans hmax) hmax
  rw [hnode] at hfields
  refine ⟨hfits.sequence, hfields, ?_, ?_⟩
  · rw [hcard]
    exact hmost
  · rw [hcard, hlast]
    exact hexact.imp_right (congrArg Nat.cast)

/-- A call of step 0 on the current millisecond gets no id, unless the lowest bit of the node makes
it start over. -/
theorem ids_zero_iff (hw : w.Fits) :
    (w.pack ⟨w.lastTimestamp, w.sequence + 1, w.sequence⟩).ids = ∅ ↔
      w.sequence < sequenceMask ∨ 2 ∣ w.node := by
  have hmask : sequenceMask = 4095 := rfl
  have hseq := hw.sequence
  unfold pack SequenceRange.ids
  rw [Set.Icc_eq_empty_iff, or64_tmpSeq hw w.lastTimestamp hseq]
  by_cases hlt : w.sequence < sequenceMask
  · have hmin := or64_tmpSeq hw w.lastTimestamp (q := w.sequence + 1) (by omega)
    refine iff_of_true ?_ (.inl hlt)
    rw [hmin]
    push_cast
    omega
  · have hfull : w.sequence = sequenceMask := by omega
    rw [hfull, or64_overflow hw, hmask]
    simp only
    by_cases heven : 2 ∣ w.node
    · rw [if_pos heven]
      refine iff_of_true ?_ (.inr heven)
      omega
    · rw [if_neg heven]
      refine iff_of_false ?_ ?_
      · omega
      · simp [heven]

theorem inFields_zero_iff (hw : w.Fits) :
    InFields w w 0 (w.pack ⟨w.lastTimestamp, w.sequence + 1, w.sequence⟩) ↔
      w.sequence < sequenceMask ∨ 2 ∣ w.node := by
  rw [← ids_zero_iff hw]
  constructor
  · intro h
    have hcard := h.atMost
    refine (Set.ncard_eq_zero (Set.finite_Icc _ _)).mp ?_
    exact Nat.le_zero.mp (Int.ofNat_le.mp hcard)
  · intro hempty
    refine ⟨hw.sequence, ⟨0, ?_⟩, ?_, .inl ?_⟩
    · simp [hempty]
    · simp [hempty]
    · simp [hempty]

/-- **One call.** -/
theorem inFields_call_iff {c : SnowflakeCall} {r : SequenceRange} (hw : w.Fits)
    (hint : InInt32 c.step) (hcall : w.getAndIncrement c.step c.clock = some (.ok r, w')) :
    InFields w w' c.step r ↔ Sound w c := by
  obtain ⟨haccepted, iss, hres, hr⟩ := reserve_of_returns hcall
  obtain ⟨hnonneg, hle⟩ := admitted_step hint haccepted
  by_cases hzero : c.step = 0
  · rw [hzero] at hres ⊢
    obtain ⟨reading, later, hclock, hcase⟩ := reserve_zero hw.sequence hres
    rcases hcase with ⟨hsame, rfl, rfl⟩ | ⟨hnew, hseq⟩
    · rw [hr, inFields_zero_iff hw]
      constructor
      · intro hcond _ reading' later' hclock'
        rw [hclock] at hclock'
        cases hclock'
        exact ⟨hsame.le, hcond⟩
      · intro hsound
        exact (hsound hzero reading later hclock).2
    · refine iff_of_false ?_ ?_
      · intro h
        have hle := h.sequence
        rw [hseq] at hle
        exact absurd hle (by decide)
      · intro hsound
        have hle := (hsound hzero reading later hclock).1
        omega
  · refine iff_of_true (inFields_of_pos hw (by omega) hle hcall) ?_
    intro h
    exact absurd h hzero

/-- A sound call leaves the worker inside its bits. -/
theorem fits_step {c : SnowflakeCall} (hw : w.Fits) (hsound : Sound w c)
    (ha : calls.step w c w') : w'.Fits := by
  obtain ⟨hint, res, hcall⟩ := ha
  cases res with
  | error e =>
    rw [eq_of_throws hcall]
    exact hw
  | ok r =>
    have hfields := (inFields_call_iff hw hint hcall).mpr hsound
    obtain ⟨-, iss, hres, -⟩ := reserve_of_returns hcall
    obtain ⟨hid, hdc⟩ := reserve_identity hres
    refine ⟨?_, ?_, hfields.sequence⟩
    · rw [hid]
      exact hw.workerId
    · rw [hdc]
      exact hw.datacenterId

theorem fits_reach (h : (calls.restrict Sound).Reach w) : w.Fits := by
  refine LTS.Reach.invariant (T := calls.restrict Sound) (I := Fits) ?_
    (fun _ _ _ hi ha => fits_step hi ha.1 ha.2) h
  intro w hw
  obtain ⟨history, c, hacc⟩ := hw
  exact accepted_fits hacc

/-- **Steps and fields.** After sound calls only, a call keeps inside the fields exactly if it is
sound. -/
theorem inFields_iff (h : (calls.restrict Sound).Reach w) {c : SnowflakeCall}
    (hint : InInt32 c.step) {r : SequenceRange}
    (hcall : w.getAndIncrement c.step c.clock = some (.ok r, w')) :
    InFields w w' c.step r ↔ Sound w c :=
  inFields_call_iff (fits_reach h) hint hcall

/-- A first call of step 0 stores the number 4294967295. -/
theorem not_inFields :
    ∃ w w' r, calls.Reach w ∧ InInt32 0 ∧
      w.getAndIncrement 0 [SnowflakeRun.readingAt (twepoch + 1)] = some (.ok r, w') ∧
      ¬ InFields w w' 0 r := by
  have hcall : SnowflakeRun.sampleFlake.getAndIncrement 0 [SnowflakeRun.readingAt (twepoch + 1)] =
      some (.ok ⟨4214784, 4294967295⟩,
        { SnowflakeRun.sampleFlake with
          sequence := 4294967295, lastTimestamp := twepoch + 1 }) := by
    decide +kernel
  refine ⟨SnowflakeRun.sampleFlake, _, _, .init ⟨[], ⟨"ORDER", 5, -1, by decide⟩, ?_⟩, by decide,
    hcall, ?_⟩
  · exact run_eq_ok.mpr ⟨by decide, by decide, rfl⟩
  · intro h
    exact absurd h.sequence (by decide)

theorem inFields_iff_sample :
    ∃ w w' r, (calls.restrict Sound).Reach w ∧ InInt32 3 ∧
      w.getAndIncrement 3 [SnowflakeRun.readingAt (twepoch + 1)] = some (.ok r, w') ∧
      InFields w w' 3 r := by
  have hcall : SnowflakeRun.sampleFlake.getAndIncrement 3 [SnowflakeRun.readingAt (twepoch + 1)] =
      some (.ok ⟨4214784, 4214786⟩,
        { SnowflakeRun.sampleFlake with sequence := 2, lastTimestamp := twepoch + 1 }) := by
    decide +kernel
  have hreach : (calls.restrict Sound).Reach SnowflakeRun.sampleFlake :=
    .init ⟨[], ⟨"ORDER", 5, -1, by decide⟩, run_eq_ok.mpr ⟨by decide, by decide, rfl⟩⟩
  refine ⟨_, _, _, hreach, by decide, hcall, ?_⟩
  refine (inFields_iff hreach (c := ⟨3, _⟩) (by decide) hcall).mpr ?_
  intro h
  exact absurd h (by decide)

end SnowflakeIdWorker

end DevTools.Sequence
