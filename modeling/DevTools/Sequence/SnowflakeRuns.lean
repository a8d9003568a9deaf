import DevTools.Sequence.Snowflake
import DevTools.Sequence.Interleaving

/-!
# Runs of Snowflake workers

The mutex of a `SnowflakeIdWorker` serialises its calls, so a run of one worker is a sequence of
calls, each with its own step and its own clock readings. Nothing is assumed of the readings
except that the milliseconds that end up in ids fit their 41 bits.

**Theorem (`strictly_increasing`).** In every run each range is non-empty and lies above all
earlier ones, and a call that throws leaves the worker as it was.

The second half is about the constructor. `maxWorkerId` is shared by the process, and a
construction with a negative datacenter id raises it for good.

**Theorem (`identities_iff`).** The workers of a construction history keep to their identities
exactly if no construction without a datacenter precedes one that has a datacenter and a
worker id of more than five bits.
-/

namespace DevTools.Sequence

open SnowflakeIdWorker

/-! ## Constructions in one process -/

/-- The arguments of a construction. -/
structure Construction where
  name : String
  workerId : Nat
  datacenterId : Int
  isInt : InInt32 datacenterId := by decide

/-- The constructor on these arguments. -/
def Construction.run (c : Construction) (maxWorkerId : Nat) :
    Except SequenceException SnowflakeIdWorker × Nat :=
  SnowflakeIdWorker.construct maxWorkerId c.name c.workerId c.datacenterId

/-- `maxWorkerId` after a sequence of constructions. -/
def maxWorkerIdAfter (history : List Construction) : Nat :=
  history.foldl (fun m c => (c.run m).2) initialMaxWorkerId

/-- The construction succeeds after the given history. -/
def Construction.Accepted (c : Construction) (history : List Construction)
    (w : SnowflakeIdWorker) : Prop :=
  (c.run (maxWorkerIdAfter history)).1 = .ok w

theorem checkWorkerId_eq_ok {name : String} {workerId m : Nat} {dc : Int} {w : SnowflakeIdWorker} :
    (SnowflakeIdWorker.construct.checkWorkerId name workerId dc m).1 = .ok w ↔
      workerId ≤ m ∧ w = ⟨name, workerId, dc, 0, 0⟩ := by
  unfold SnowflakeIdWorker.construct.checkWorkerId
  by_cases hw : m < workerId
  · rw [if_pos hw]
    constructor
    · intro h
      cases h
    · intro h
      omega
  · rw [if_neg hw]
    constructor
    · intro h
      exact ⟨by omega, (Except.ok.inj h).symm⟩
    · intro h
      rw [h.2]

theorem checkWorkerId_maxWorkerId (name : String) (workerId m : Nat) (dc : Int) :
    (SnowflakeIdWorker.construct.checkWorkerId name workerId dc m).2 = m := by
  unfold SnowflakeIdWorker.construct.checkWorkerId
  split
  · rfl
  · rfl

/-- What an accepted construction has passed. -/
theorem run_eq_ok {c : Construction} {m : Nat} {w : SnowflakeIdWorker} :
    (c.run m).1 = .ok w ↔
      c.datacenterId ≤ 31 ∧ c.workerId ≤ (if c.datacenterId < 0 then 1023 else m) ∧
        w = ⟨c.name, c.workerId, c.datacenterId, 0, 0⟩ := by
  unfold Construction.run SnowflakeIdWorker.construct
  by_cases hneg : c.datacenterId < 0
  · have h31 : c.datacenterId ≤ 31 := by omega
    rw [if_pos hneg, if_pos hneg, checkWorkerId_eq_ok]
    simp [h31, workerIdBits, datacenterIdBits]
  · have hconv : maxDatacenterId < toU32 c.datacenterId ↔ ¬ c.datacenterId ≤ 31 := by
      have hmax : maxDatacenterId = 31 := rfl
      have hint := c.isInt
      unfold InInt32 at hint
      have hu := toU32_of_range (x := c.datacenterId) (by omega) (by omega)
      omega
    rw [if_neg hneg, if_neg hneg]
    by_cases hd : c.datacenterId ≤ 31
    · rw [if_neg (by rw [hconv]; exact not_not.mpr hd), checkWorkerId_eq_ok]
      simp [hd]
    · rw [if_pos (hconv.mpr hd)]
      simp [hd]

/-- Only a construction with a negative datacenter id writes `maxWorkerId`. -/
theorem run_maxWorkerId (c : Construction) (m : Nat) :
    (c.run m).2 = if c.datacenterId < 0 then 1023 else m := by
  unfold Construction.run SnowflakeIdWorker.construct
  by_cases hneg : c.datacenterId < 0
  · rw [if_pos hneg, if_pos hneg, checkWorkerId_maxWorkerId]
    rfl
  · rw [if_neg hneg, if_neg hneg]
    split
    · rfl
    · rw [checkWorkerId_maxWorkerId]

theorem maxWorkerIdAfter_append (history : List Construction) (c : Construction) :
    maxWorkerIdAfter (history ++ [c]) =
      if c.datacenterId < 0 then 1023 else maxWorkerIdAfter history := by
  unfold maxWorkerIdAfter
  rw [List.foldl_append]
  exact run_maxWorkerId c _

/-- `maxWorkerId` says whether a construction without a datacenter has been tried. -/
theorem maxWorkerIdAfter_eq (history : List Construction) :
    maxWorkerIdAfter history = if ∃ c ∈ history, c.datacenterId < 0 then 1023 else 31 := by
  induction history using List.reverseRecOn with
  | nil => simp [maxWorkerIdAfter, initialMaxWorkerId, workerIdBits]
  | append_singleton history c ih =>
    rw [maxWorkerIdAfter_append, ih]
    by_cases hc : c.datacenterId < 0
    · have hex : ∃ c' ∈ history ++ [c], c'.datacenterId < 0 := ⟨c, by simp, hc⟩
      rw [if_pos hc, if_pos hex]
    · have hiff : (∃ c' ∈ history ++ [c], c'.datacenterId < 0) ↔
          ∃ c' ∈ history, c'.datacenterId < 0 := by
        simp [or_and_right, exists_or, hc]
      rw [if_neg hc]
      simp only [hiff]

theorem accepted_fits {c : Construction} {history : List Construction} {w : SnowflakeIdWorker}
    (h : c.Accepted history w) : w.Fits := by
  obtain ⟨hd, hw, rfl⟩ := run_eq_ok.mp h
  rw [maxWorkerIdAfter_eq] at hw
  refine ⟨?_, hd, Nat.zero_le _⟩
  show c.workerId < 1024
  split at hw
  · omega
  · split at hw <;> omega

/-! ## Runs of one worker -/

/-- A worker and the ranges it has returned, newest first. -/
structure SnowflakeRun where
  worker : SnowflakeIdWorker
  issued : List SequenceRange
  deriving DecidableEq

structure SnowflakeCall where
  step : Int
  clock : List Reading
  deriving DecidableEq

namespace SnowflakeRun

def start (w : SnowflakeIdWorker) : SnowflakeRun := ⟨w, []⟩

/-- One call that comes back. Calls that return have a step in `1 .. 4095` and put a packable
millisecond into their ids; calls that throw are arbitrary. -/
inductive Step : SnowflakeRun → SnowflakeCall → SnowflakeRun → Prop
  | returns {s : SnowflakeRun} {c : SnowflakeCall} {r : SequenceRange} {w : SnowflakeIdWorker} :
      1 ≤ c.step → c.step ≤ sequenceMask →
      s.worker.getAndIncrement c.step c.clock = some (.ok r, w) →
      (∀ iss, s.worker.reserve c.step c.clock = some (.ok iss, w) → InEpoch iss.timestamp1) →
      Step s c ⟨w, r :: s.issued⟩
  | throws {s : SnowflakeRun} {c : SnowflakeCall} {e : SequenceException}
      {w : SnowflakeIdWorker} :
      s.worker.getAndIncrement c.step c.clock = some (.error e, w) → Step s c ⟨w, s.issued⟩

/-- The runs of a worker accepted after any construction history. -/
def lts : LTS SnowflakeRun SnowflakeCall where
  init s := ∃ (history : List Construction) (c : Construction) (w : SnowflakeIdWorker),
    c.Accepted history w ∧ s = start w
  step := Step

/-- The same steps as a function. -/
def exec (s : SnowflakeRun) (c : SnowflakeCall) : Option SnowflakeRun :=
  match s.worker.getAndIncrement c.step c.clock, s.worker.reserve c.step c.clock with
  | some (.error _, w), _ => some ⟨w, s.issued⟩
  | some (.ok r, w), some (.ok iss, _) =>
    if 1 ≤ c.step ∧ c.step ≤ sequenceMask ∧ InEpoch iss.timestamp1 then
      some ⟨w, r :: s.issued⟩
    else none
  | _, _ => none

theorem exec_sound {s s' : SnowflakeRun} {c : SnowflakeCall} (h : exec s c = some s') :
    Step s c s' := by
  unfold exec at h
  split at h
  · rename_i hcall
    cases h
    exact .throws hcall
  · rename_i iss _ hcall hres
    simp only [Option.ite_none_right_eq_some, Option.some.injEq] at h
    obtain ⟨⟨hpos, hle, ht⟩, rfl⟩ := h
    refine .returns hpos hle hcall ?_
    intro iss' hres'
    rw [hres] at hres'
    cases hres'
    exact ht
  · cases h

/-- Everything issued lies up to the worker's state, in order, on the worker's node. -/
structure Inv (s : SnowflakeRun) : Prop where
  fits : s.worker.Fits
  nonempty : ∀ r ∈ s.issued, r.min ≤ r.max
  upto : ∀ r ∈ s.issued, r.max ≤ s.worker.idOf s.worker.lastTimestamp s.worker.sequence
  increasing : s.issued.Pairwise fun r earlier => earlier.max < r.min
  node : ∀ r ∈ s.issued, ∀ x ∈ r.ids, x / 2 ^ 12 % 2 ^ 10 = s.worker.node

theorem inv_start {w : SnowflakeIdWorker} (h : w.Fits) : Inv (start w) where
  fits := h
  nonempty := by simp [start]
  upto := by simp [start]
  increasing := List.Pairwise.nil
  node := by simp [start]

theorem inv_step {s s' : SnowflakeRun} {c : SnowflakeCall} (h : Inv s) (ha : Step s c s') :
    Inv s' := by
  cases ha with
  | returns hpos hle hcall ht =>
    rename_i r w
    obtain ⟨hfits, hnode, hne, hafter, hupto, hmem⟩ :=
      getAndIncrement_spec h.fits hpos hle hcall ht
    -- the old state separates the new range from everything before it
    have hold : ∀ r' ∈ s.issued, r'.max < r.min := by
      intro r' hr'
      exact (h.upto r' hr').trans_lt hafter
    refine ⟨hfits, ?_, ?_, ?_, ?_⟩
    · intro r' hr'
      rcases List.mem_cons.mp hr' with rfl | hr'
      · exact hne
      · exact h.nonempty r' hr'
    · intro r' hr'
      rcases List.mem_cons.mp hr' with rfl | hr'
      · exact hupto
      · exact (hold r' hr').le.trans (hne.trans hupto)
    · exact List.Pairwise.cons hold h.increasing
    · intro r' hr' x hx
      show _ = (w.node : Int)
      rw [hnode]
      rcases List.mem_cons.mp hr' with rfl | hr'
      · exact hmem x hx
      · exact h.node r' hr' x hx
  | throws hcall =>
    obtain rfl := eq_of_throws hcall
    exact h

theorem inv_run {s s' : SnowflakeRun} (h : Inv s) (hr : lts.Run s s') : Inv s' :=
  LTS.Run.invariant h (fun _ _ _ _ hi ha => inv_step hi ha) hr

theorem inv_reach {s : SnowflakeRun} (h : lts.Reach s) : Inv s := by
  refine LTS.Reach.invariant (I := Inv) ?_ (fun _ _ _ hi ha => inv_step hi ha) h
  intro s hs
  obtain ⟨history, c, w, hacc, rfl⟩ := hs
  exact inv_start (accepted_fits hacc)

/-- Ranges at different positions have no id in common. -/
theorem Inv.disjoint {s : SnowflakeRun} (h : Inv s) {m n : Nat} (hmn : m ≠ n)
    {r r' : SequenceRange} (hr : s.issued[m]? = some r) (hr' : s.issued[n]? = some r') :
    Disjoint r.ids r'.ids := by
  obtain ⟨hm, rfl⟩ := List.getElem?_eq_some_iff.mp hr
  obtain ⟨hn, rfl⟩ := List.getElem?_eq_some_iff.mp hr'
  have hinc := List.pairwise_iff_getElem.mp h.increasing
  rcases Nat.lt_or_gt_of_ne hmn with hlt | hlt
  · exact (SequenceRange.disjoint_of_lt (hinc m n hm hn hlt)).symm
  · exact SequenceRange.disjoint_of_lt (hinc n m hn hm hlt)

/-- **Ids increase whatever the clock does.** -/
theorem strictly_increasing {s : SnowflakeRun} (h : lts.Reach s) :
    (∀ r ∈ s.issued, r.min ≤ r.max) ∧
      s.issued.Pairwise (fun r earlier => earlier.max < r.min) ∧
      ∀ step clock e w, s.worker.getAndIncrement step clock = some (.error e, w) →
        w.sequence = s.worker.sequence ∧ w.lastTimestamp = s.worker.lastTimestamp := by
  have hinv := inv_reach h
  refine ⟨hinv.nonempty, hinv.increasing, ?_⟩
  intro step clock e w hcall
  rw [eq_of_throws hcall]
  exact ⟨rfl, rfl⟩

/-- A reading of the given millisecond. -/
def readingAt (ms : Int) : Reading := ⟨ms / 1000, ms % 1000 * 1000, ms / 1000⟩

/-- A fresh millisecond, the rest of it once the clock has gone back and forth, a refused step,
and a clock that has moved back. -/
def sampleCalls : List SnowflakeCall :=
  [⟨5, [readingAt (twepoch + 7000)]⟩,
   ⟨4095, [readingAt (twepoch + 7000), readingAt (twepoch + 3000), readingAt (twepoch + 7001)]⟩,
   ⟨4096, []⟩, ⟨1, [readingAt (twepoch + 5)]⟩]

def sampleFlake : SnowflakeIdWorker := ⟨"ORDER", 5, -1, 0, 0⟩

theorem sampleFlake_reach : lts.Reach (start sampleFlake) :=
  .init ⟨[], ⟨"ORDER", 5, -1, by decide⟩, sampleFlake,
    run_eq_ok.mpr ⟨by decide, by decide, rfl⟩, rfl⟩

theorem strictly_increasing_sample :
    ∃ s, lts.Reach s ∧ s.issued.length = 2 ∧
      s.issued.Pairwise (fun r earlier => earlier.max < r.min) := by
  have hrun : sampleCalls.foldlM exec (start sampleFlake) =
      some ⟨⟨"ORDER", 5, -1, 0, twepoch + 7001⟩,
        [⟨29360148485, 29360152575⟩, ⟨29360148480, 29360148484⟩]⟩ := by decide +kernel
  have hreach := sampleFlake_reach.exec (fun _ _ _ => exec_sound) hrun
  exact ⟨_, hreach, rfl, (strictly_increasing hreach).2.1⟩

end SnowflakeRun

/-! ## Identities -/

open SnowflakeRun

/-- The worker of a construction that was accepted somewhere in the history. -/
def AcceptedIn (history : List Construction) (c : Construction) (w : SnowflakeIdWorker) : Prop :=
  ∃ earlier later, history = earlier ++ c :: later ∧ c.Accepted earlier w

/-- The constructions have different identities, in the layout both of them use. -/
def Construction.Apart (c c' : Construction) : Prop :=
  (c.datacenterId < 0 ∧ c'.datacenterId < 0 ∧ c.workerId ≠ c'.workerId) ∨
    (0 ≤ c.datacenterId ∧ 0 ≤ c'.datacenterId ∧
      (c.datacenterId, c.workerId) ≠ (c'.datacenterId, c'.workerId))

/-- Whether a construction is accepted is its own affair, a datacenter leaves five bits for the
worker, and workers with different identities never issue a common id. -/
structure Identities (history : List Construction) : Prop where
  independent : ∀ earlier c later, history = earlier ++ c :: later →
    ((∃ w, c.Accepted earlier w) ↔ ∃ w, c.Accepted [] w)
  fiveBits : ∀ c w, AcceptedIn history c w → 0 ≤ c.datacenterId → c.workerId ≤ 31
  distinct : ∀ c w c' w', AcceptedIn history c w → AcceptedIn history c' w' → c.Apart c' →
    ∀ s s', lts.Run (start w) s → lts.Run (start w') s' →
      ∀ r ∈ s.issued, ∀ r' ∈ s'.issued, Disjoint r.ids r'.ids

/-- A datacenter, and a worker id that fits ten bits but not five. -/
def Construction.Wide (c : Construction) : Prop :=
  0 ≤ c.datacenterId ∧ c.datacenterId ≤ 31 ∧ 31 < c.workerId ∧ c.workerId ≤ 1023

theorem accepted_iff {c : Construction} {earlier : List Construction} :
    (∃ w, c.Accepted earlier w) ↔ c.datacenterId ≤ 31 ∧
      c.workerId ≤
        (if c.datacenterId < 0 ∨ ∃ b ∈ earlier, b.datacenterId < 0 then 1023 else 31) := by
  have hmax : (if c.datacenterId < 0 then 1023 else maxWorkerIdAfter earlier) =
      if c.datacenterId < 0 ∨ ∃ b ∈ earlier, b.datacenterId < 0 then 1023 else 31 := by
    rw [maxWorkerIdAfter_eq]
    by_cases hc : c.datacenterId < 0
    · simp only [hc, if_true, true_or]
    · simp only [hc, if_false, false_or]
  constructor
  · intro hacc
    obtain ⟨w, hw⟩ := hacc
    obtain ⟨hd, hle, -⟩ := run_eq_ok.mp hw
    exact ⟨hd, hmax ▸ hle⟩
  · intro hacc
    exact ⟨_, run_eq_ok.mpr ⟨hacc.1, hmax ▸ hacc.2, rfl⟩⟩

/-- No construction without a datacenter precedes a wide one. -/
def Ordered (history : List Construction) : Prop :=
  history.Pairwise fun c c' => c.datacenterId < 0 → ¬ c'.Wide

theorem Ordered.not_wide {history earlier later : List Construction} {b c : Construction}
    (h : Ordered history) (heq : history = earlier ++ c :: later) (hb : b ∈ earlier)
    (hneg : b.datacenterId < 0) : ¬ c.Wide := by
  unfold Ordered at h
  rw [heq, List.pairwise_append] at h
  exact h.2.2 b hb c (by simp) hneg

/-- In an ordered history the limit for a worker with a datacenter is the initial one, as far as
it matters. -/
theorem Ordered.fiveBits {history earlier later : List Construction} {c : Construction}
    (h : Ordered history) (heq : history = earlier ++ c :: later)
    (hacc : ∃ w, c.Accepted earlier w) (hdc : 0 ≤ c.datacenterId) : c.workerId ≤ 31 := by
  obtain ⟨hd, hle⟩ := accepted_iff.mp hacc
  by_cases hb : ∃ b ∈ earlier, b.datacenterId < 0
  · obtain ⟨b, hmem, hneg⟩ := hb
    have hnot := h.not_wide heq hmem hneg
    unfold Construction.Wide at hnot
    split at hle
    · omega
    · omega
  · rw [if_neg (by simp only [hb, or_false]; omega)] at hle
    exact hle

theorem node_of_accepted {c : Construction} {earlier : List Construction} {w : SnowflakeIdWorker}
    (h : c.Accepted earlier w) :
    w.node = if c.datacenterId < 0 then c.workerId
      else c.datacenterId.toNat * 2 ^ workerIdBits ||| c.workerId := by
  obtain ⟨-, -, rfl⟩ := run_eq_ok.mp h
  rfl

/-- Different identities are different nodes, if a datacenter leaves five bits for the worker. -/
theorem node_ne {c c' : Construction} {earlier earlier' : List Construction}
    {w w' : SnowflakeIdWorker} (h : c.Accepted earlier w) (h' : c'.Accepted earlier' w')
    (hfive : 0 ≤ c.datacenterId → c.workerId ≤ 31) (hfive' : 0 ≤ c'.datacenterId → c'.workerId ≤ 31)
    (hapart : c.Apart c') : w.node ≠ w'.node := by
  rw [node_of_accepted h, node_of_accepted h']
  rcases hapart with ⟨hneg, hneg', hne⟩ | ⟨hpos, hpos', hne⟩
  · rw [if_pos hneg, if_pos hneg']
    exact hne
  · have hlt : c.workerId < 2 ^ workerIdBits := Nat.lt_succ_of_le (hfive hpos)
    have hlt' : c'.workerId < 2 ^ workerIdBits := Nat.lt_succ_of_le (hfive' hpos')
    rw [if_neg (by omega), if_neg (by omega), mul_two_pow_or hlt, mul_two_pow_or hlt']
    intro heq
    apply hne
    have hbits : 2 ^ workerIdBits = 32 := rfl
    rw [hbits] at heq hlt hlt'
    exact Prod.ext (by show c.datacenterId = c'.datacenterId; omega)
      (by show c.workerId = c'.workerId; omega)

theorem node_run {w : SnowflakeIdWorker} {s : SnowflakeRun} (hw : w.Fits)
    (h : lts.Run (start w) s) : s.worker.node = w.node := by
  refine (LTS.Run.invariant (I := fun s => Inv s ∧ s.worker.node = w.node) ⟨inv_start hw, rfl⟩
    ?_ h).2
  intro t a u _ hi ha
  refine ⟨inv_step hi.1 ha, ?_⟩
  cases ha with
  | returns hpos hle hcall ht =>
    exact (getAndIncrement_spec hi.1.fits hpos hle hcall ht).2.1.trans hi.2
  | throws hcall =>
    obtain rfl := eq_of_throws hcall
    exact hi.2

/-- Workers on different nodes share no id. -/
theorem disjoint_of_node_ne {w w' : SnowflakeIdWorker} {s s' : SnowflakeRun} (hw : w.Fits)
    (hw' : w'.Fits) (hne : w.node ≠ w'.node) (h : lts.Run (start w) s)
    (h' : lts.Run (start w') s') {r r' : SequenceRange} (hr : r ∈ s.issued) (hr' : r' ∈ s'.issued) :
    Disjoint r.ids r'.ids := by
  rw [Set.disjoint_left]
  intro x hx hx'
  have hnode := (inv_run (inv_start hw) h).node r hr x hx
  have hnode' := (inv_run (inv_start hw') h').node r' hr' x hx'
  rw [node_run hw h] at hnode
  rw [node_run hw' h'] at hnode'
  omega

theorem Ordered.identities {history : List Construction} (h : Ordered history) :
    Identities history where
  independent := by
    intro earlier c later heq
    rw [accepted_iff, accepted_iff]
    by_cases hb : ∃ b ∈ earlier, b.datacenterId < 0
    · obtain ⟨b, hmem, hneg⟩ := hb
      have hnot := h.not_wide heq hmem hneg
      unfold Construction.Wide at hnot
      rw [if_pos (.inr ⟨b, hmem, hneg⟩)]
      simp only [List.not_mem_nil, false_and, exists_false, or_false]
      split
      · rfl
      · omega
    · simp only [hb, List.not_mem_nil, false_and, exists_false]
  fiveBits := by
    intro c w hin hdc
    obtain ⟨earlier, later, heq, hacc⟩ := hin
    exact h.fiveBits heq ⟨w, hacc⟩ hdc
  distinct := by
    intro c w c' w' hin hin' hapart s s' hs hs' r hr r' hr'
    obtain ⟨earlier, later, heq, hacc⟩ := hin
    obtain ⟨earlier', later', heq', hacc'⟩ := hin'
    have hne := node_ne hacc hacc' (h.fiveBits heq ⟨w, hacc⟩) (h.fiveBits heq' ⟨w', hacc'⟩) hapart
    exact disjoint_of_node_ne (accepted_fits hacc) (accepted_fits hacc') hne hs hs' hr hr'

/-- **Exactly when identities are kept.** -/
theorem identities_iff (history : List Construction) :
    Identities history ↔
      history.Pairwise fun c c' => c.datacenterId < 0 → ¬ c'.Wide := by
  constructor
  · intro h
    rw [List.pairwise_iff_getElem]
    intro i j hi hj hij hneg hwide
    have heq : history = history.take j ++ history[j] :: history.drop (j + 1) := by
      rw [← List.drop_eq_getElem_cons hj, List.take_append_drop]
    have hmem : history[i] ∈ history.take j := by
      rw [List.mem_take_iff_getElem]
      exact ⟨i, by omega, rfl⟩
    have hacc : ∃ w, history[j].Accepted (history.take j) w := by
      rw [accepted_iff, if_pos (.inr ⟨_, hmem, hneg⟩)]
      exact ⟨hwide.2.1, hwide.2.2.2⟩
    obtain ⟨w, hw⟩ := hacc
    have hfive := h.fiveBits _ w ⟨_, _, heq, hw⟩ hwide.1
    exact absurd hwide.2.2.1 (by omega)
  · exact Ordered.identities

/-- A worker without a datacenter, then one with a datacenter and worker id 32, then the one it
collides with. -/
def sampleHistory : List Construction :=
  [⟨"A", 5, -1, by decide⟩, ⟨"B", 32, 0, by decide⟩, ⟨"C", 0, 1, by decide⟩]

theorem not_identities_sampleHistory : ¬ Identities sampleHistory := by
  intro h
  have hacc : Construction.Accepted ⟨"B", 32, 0, by decide⟩ [⟨"A", 5, -1, by decide⟩]
      ⟨"B", 32, 0, 0, 0⟩ :=
    run_eq_ok.mpr ⟨by decide, by decide, rfl⟩
  have hfive := h.fiveBits _ _ ⟨_, _, rfl, hacc⟩ (by decide)
  exact absurd hfive (by decide)

end DevTools.Sequence
