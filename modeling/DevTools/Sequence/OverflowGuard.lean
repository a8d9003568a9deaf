import DevTools.Sequence.HostileSteps

/-!
# The overflow guard

`nextRange` refuses a segment that starts within `DELTA` of the end of `int64_t`. The fetch-and-add
goes up to `2^31 - 1` past `max`, which is more than `DELTA`.

**Theorem (`overflow_guard_iff`).** Take calls one after the other, with steps from 1 to
`2^31 - 1`, on a segment that `nextRange` has accepted. Nothing goes wrong exactly if the segment
starts above 0 and the start plus the steps, up to the one that uses the segment up, is below
`2^63`. This holds of all such calls exactly if `max` keeps a distance of `2^31 - 1` from `2^63`.
On the segment of one counter that starts at the last number `nextRange` accepts, a call with the
largest step leaves `value` below 0 and gets a range that ends before it starts
(`guard_too_small`).
-/

namespace DevTools.Sequence

/-! ## Calls without interference -/

/-- `getAndIncrement(step, sr)` up to the point where it has to refill: the raw range, or `none`
when it asks the database. -/
def serve (step : Int) (w : DefaultSequenceWorker) : Option SequenceRange × DefaultSequenceWorker :=
  match addAndIncrement step w with
  | (some r, w') => (some r, w')
  | (none, w') => if w'.exhausted then (none, w') else addAndIncrement step w'

/-- `getAndIncrement(step, sr)`, given the reply to its refill if it makes one. -/
def getAndIncrement (step : Int) (reply : DbReply) (w : DefaultSequenceWorker) :
    Except RefillFailure (Option SequenceRange) × DefaultSequenceWorker :=
  match addAndIncrement step w with
  | (some r, w') => (.ok (some (w'.tagRange r)), w')
  | (none, w') =>
    if w'.exhausted then
      match nextRange w'.name reply w' with
      | .error e => (.error e, w')
      | .ok w'' =>
        (.ok ((addAndIncrement step w'').1.map w''.tagRange), (addAndIncrement step w'').2)
    else (.ok ((addAndIncrement step w').1.map w'.tagRange), (addAndIncrement step w').2)

/-- A call on a segment that has counters left is served by its first fetch-and-add. -/
theorem addAndIncrement_of_left {step : Int} {w : DefaultSequenceWorker} (hv : InInt64 w.value)
    (hmax : InInt64 w.max) (hlt : w.value < w.max) :
    addAndIncrement step w =
      (some ⟨w.value + 1, if w.max < wrap64 (w.value + step) then w.max
        else wrap64 (w.value + step)⟩, w.addAndFetch step) := by
  have hexh : ¬ w.exhausted := not_le.2 hlt
  have hsucc : wrap64 (w.value + 1) = w.value + 1 := by
    apply wrap64_of_inInt64
    unfold InInt64 at hv hmax ⊢
    omega
  have hc : classify (w.addAndFetch step).value step w.max = _ := classify_wrap hv
  simp only [addAndIncrement, hexh, if_false, DefaultSequenceWorker.addAndFetch_max, hc, hlt,
    if_true, hsucc]
  split_ifs <;> rfl

theorem serve_of_left {step : Int} {w : DefaultSequenceWorker} (hv : InInt64 w.value)
    (hmax : InInt64 w.max) (hlt : w.value < w.max) :
    serve step w =
      (some ⟨w.value + 1, if w.max < wrap64 (w.value + step) then w.max
        else wrap64 (w.value + step)⟩, w.addAndFetch step) := by
  simp only [serve, addAndIncrement_of_left hv hmax hlt]

theorem serve_of_exhausted {step : Int} {w : DefaultSequenceWorker} (h : w.max ≤ w.value) :
    serve step w = (none, w) := by
  have hexh : w.exhausted := h
  simp [serve, addAndIncrement, hexh]

/-- `serve` is `getAndIncrement` for a call that finds counters left: it asks nobody. -/
theorem getAndIncrement_of_left {step : Int} {w : DefaultSequenceWorker} (hv : InInt64 w.value)
    (hmax : InInt64 w.max) (hlt : w.value < w.max) (reply : DbReply) :
    getAndIncrement step reply w =
      (.ok ((serve step w).1.map w.tagRange), (serve step w).2) := by
  rw [serve_of_left hv hmax hlt, getAndIncrement, addAndIncrement_of_left hv hmax hlt]
  rfl

/-- The worker after calls on one segment. -/
def afterCalls (w : DefaultSequenceWorker) (steps : List Int) : DefaultSequenceWorker :=
  steps.foldl (fun w n => (serve n w).2) w

/-- The number that `value` should have: the steps of the calls that found counters left are
added up. -/
def total (max : Int) : Int → List Int → Int
  | v, [] => v
  | v, n :: steps => if v < max then total max (v + n) steps else v

/-- The fetch-and-add never wraps, every range is a range of positive numbers, and a used-up
segment gives nothing. -/
def NeverWraps (w : DefaultSequenceWorker) (steps : List Int) : Prop :=
  (∀ before, before <+: steps → (afterCalls w before).value = total w.max w.value before) ∧
  (∀ before n, before ++ [n] <+: steps →
    (∀ r, (serve n (afterCalls w before)).1 = some r → 0 < r.min ∧ r.min ≤ r.max) ∧
    (w.max ≤ total w.max w.value before → (serve n (afterCalls w before)).1 = none))

/-! ## The mathematical sum -/

theorem total_of_le {max v : Int} (h : max ≤ v) (steps : List Int) : total max v steps = v := by
  cases steps with
  | nil => rfl
  | cons n steps => exact if_neg (not_lt.2 h)

theorem total_append (max v : Int) (steps later : List Int) :
    total max v (steps ++ later) = total max (total max v steps) later := by
  induction steps generalizing v with
  | nil => rfl
  | cons n steps ih =>
    simp only [List.cons_append, total]
    split_ifs with h
    · exact ih (v + n)
    · rw [total_of_le (not_lt.1 h)]

theorem le_total {max v : Int} {steps : List Int} (hpos : ∀ n ∈ steps, 1 ≤ n) :
    v ≤ total max v steps := by
  induction steps generalizing v with
  | nil => exact le_rfl
  | cons n steps ih =>
    simp only [total]
    split_ifs with h
    · have hn := hpos n (by simp)
      have := ih (v := v + n) fun m hm => hpos m (by simp [hm])
      omega
    · exact le_rfl

/-- The step that uses the segment up is the last one that counts. -/
theorem total_le {max v bound : Int} {steps : List Int} (hv : v ≤ max - 1 + bound)
    (hb : ∀ n ∈ steps, n ≤ bound) : total max v steps ≤ max - 1 + bound := by
  induction steps generalizing v with
  | nil => exact hv
  | cons n steps ih =>
    simp only [total]
    split_ifs with h
    · have hn := hb n (by simp)
      exact ih (by omega) fun m hm => hb m (by simp [hm])
    · exact hv

theorem total_prefix_le {max v : Int} {before steps : List Int} (h : before <+: steps)
    (hpos : ∀ n ∈ steps, 1 ≤ n) : total max v before ≤ total max v steps := by
  obtain ⟨later, rfl⟩ := h
  rw [total_append]
  exact le_total fun n hn => hpos n (by simp [hn])

/-! ## The run -/

theorem afterCalls_snoc (w : DefaultSequenceWorker) (before : List Int) (n : Int) :
    afterCalls w (before ++ [n]) = (serve n (afterCalls w before)).2 := by
  simp [afterCalls]

/-- A call leaves `max` alone, and `value` in range. -/
theorem serve_inInt64 {n : Int} {w : DefaultSequenceWorker} (hv : InInt64 w.value)
    (hmax : InInt64 w.max) : InInt64 (serve n w).2.value ∧ (serve n w).2.max = w.max := by
  by_cases hlt : w.value < w.max
  · rw [serve_of_left hv hmax hlt]
    exact ⟨inInt64_wrap64 _, rfl⟩
  · rw [serve_of_exhausted (not_lt.1 hlt)]
    exact ⟨hv, rfl⟩

theorem afterCalls_inInt64 {w : DefaultSequenceWorker} (hv : InInt64 w.value)
    (hmax : InInt64 w.max) (steps : List Int) :
    InInt64 (afterCalls w steps).value ∧ (afterCalls w steps).max = w.max := by
  induction steps using List.reverseRecOn with
  | nil => exact ⟨hv, rfl⟩
  | append_singleton steps n ih =>
    rw [afterCalls_snoc]
    obtain ⟨hv', hmax'⟩ := serve_inInt64 (n := n) ih.1 (ih.2 ▸ hmax)
    exact ⟨hv', hmax'.trans ih.2⟩

variable {w : DefaultSequenceWorker} {steps : List Int}

/-- As long as the sum stays in range, `value` is the sum. -/
theorem afterCalls_value (hv : InInt64 w.value) (hmax : InInt64 w.max)
    (hpos : ∀ n ∈ steps, 1 ≤ n) (hfit : total w.max w.value steps < 2 ^ 63) {before : List Int}
    (h : before <+: steps) : (afterCalls w before).value = total w.max w.value before := by
  induction before using List.reverseRecOn with
  | nil => rfl
  | append_singleton before n ih =>
    have hbefore : before <+: steps := (List.prefix_append before [n]).trans h
    have hsum : total w.max w.value (before ++ [n]) ≤ total w.max w.value steps :=
      total_prefix_le h hpos
    have hlow : w.value ≤ total w.max w.value before :=
      le_total fun m hm => hpos m (hbefore.subset hm)
    obtain ⟨hv', hmax'⟩ := afterCalls_inInt64 hv hmax before
    specialize ih hbefore
    rw [afterCalls_snoc, total_append]
    simp only [total_append, total] at hsum ⊢
    split_ifs at hsum ⊢ with hlt
    · rw [serve_of_left hv' (hmax' ▸ hmax) (by omega)]
      have hn := hpos n (h.subset (by simp))
      rw [← ih] at hlow hsum ⊢
      apply wrap64_of_inInt64
      unfold InInt64 at hv ⊢
      omega
    · rw [serve_of_exhausted (by omega)]
      exact ih

theorem neverWraps_of_fit (hv : InInt64 w.value) (hmax : InInt64 w.max)
    (hpos : ∀ n ∈ steps, 1 ≤ n) (hstart : steps ≠ [] → 0 < w.value)
    (hfit : total w.max w.value steps < 2 ^ 63) : NeverWraps w steps := by
  refine ⟨fun before h => afterCalls_value hv hmax hpos hfit h, fun before n h => ?_⟩
  have hbefore : before <+: steps := (List.prefix_append before [n]).trans h
  have hval := afterCalls_value hv hmax hpos hfit hbefore
  obtain ⟨hv', hmax'⟩ := afterCalls_inInt64 hv hmax before
  by_cases hlt : total w.max w.value before < w.max
  · refine ⟨fun r hr => ?_, fun hle => absurd hlt (not_lt.2 hle)⟩
    have hzero : 0 < w.value := hstart (by
      rintro rfl
      simp at h)
    have hn := hpos n (h.subset (by simp))
    have hlow : w.value ≤ total w.max w.value before :=
      le_total fun m hm => hpos m (hbefore.subset hm)
    have hnext := afterCalls_value hv hmax hpos hfit h
    rw [total_append, total, if_pos hlt, afterCalls_snoc] at hnext
    rw [serve_of_left hv' (hmax' ▸ hmax) (by omega)] at hr hnext
    cases hr
    simp only [total] at hnext
    have hcur : wrap64 ((afterCalls w before).value + n) = total w.max w.value before + n := hnext
    rw [hval] at hcur
    simp only [hmax', hval, hcur]
    split_ifs <;> omega
  · refine ⟨fun r hr => ?_, fun _ => ?_⟩
    · rw [serve_of_exhausted (by omega)] at hr
      cases hr
    · rw [serve_of_exhausted (by omega)]

/-- **One list of calls.** -/
theorem neverWraps_iff (hv : InInt64 w.value) (hmax : InInt64 w.max) (hlt : w.value < w.max)
    (hzero : w.value ≠ 0) (hpos : ∀ n ∈ steps, 1 ≤ n) :
    NeverWraps w steps ↔
      (steps ≠ [] → 0 < w.value) ∧ total w.max w.value steps < 2 ^ 63 := by
  constructor
  · rintro ⟨hsum, hcalls⟩
    constructor
    · intro hne
      obtain ⟨n, later, rfl⟩ := List.exists_cons_of_ne_nil hne
      have hfirst := (hcalls [] n ⟨later, rfl⟩).1
      have hserve := @serve_of_left n w hv hmax hlt
      obtain ⟨hmin, -⟩ := hfirst _ (congrArg Prod.fst hserve)
      simp only at hmin
      omega
    · rw [← hsum steps List.prefix_rfl]
      exact (afterCalls_inInt64 hv hmax steps).1.2
  · rintro ⟨hstart, hfit⟩
    exact neverWraps_of_fit hv hmax hpos hstart hfit

/-- The two calls that go furthest: one up to the last counter but one, one with the largest
step. -/
theorem exists_total {max v : Int} (hlt : v < max) (hlen : max - v < 2 ^ 31) :
    ∃ steps : List Int, (∀ n ∈ steps, 1 ≤ n ∧ n < 2 ^ 31) ∧ steps ≠ [] ∧
      total max v steps = max - 1 + (2 ^ 31 - 1) := by
  by_cases hone : max - 1 = v
  · refine ⟨[2 ^ 31 - 1], by simp, by simp, ?_⟩
    rw [total, if_pos hlt, total]
    omega
  · refine ⟨[max - 1 - v, 2 ^ 31 - 1], ?_, by simp, ?_⟩
    · intro n hn
      simp only [List.mem_cons, List.not_mem_nil, or_false] at hn
      rcases hn with rfl | rfl <;> omega
    · rw [total, if_pos hlt, total, if_pos (by omega), total]
      omega

/-- **The overflow guard** is sufficient exactly for these calls, and for all calls exactly on
these segments. -/
theorem overflow_guard_iff {name : String} {reply : DbReply} {out : DefaultSequenceWorker}
    (hw : nextRange name reply out = .ok w) (hstep : 1 ≤ w.step)
    (hend : w.value + w.step < 2 ^ 63) :
    (∀ steps : List Int, (∀ n ∈ steps, 1 ≤ n ∧ n < 2 ^ 31) →
      (NeverWraps w steps ↔
        (steps ≠ [] → 0 < w.value) ∧ total w.max w.value steps < 2 ^ 63)) ∧
    ((∀ steps : List Int, (∀ n ∈ steps, 1 ≤ n ∧ n < 2 ^ 31) → NeverWraps w steps) ↔
      0 < w.value ∧ w.max + (2 ^ 31 - 1) ≤ 2 ^ 63) := by
  obtain ⟨-, v, s, hv, hs, -, hzero, -, hw⟩ := nextRange_eq_ok hw
  have hval : w.value = v := by rw [hw]
  have hlen : w.step = s := by rw [hw]
  have hsum : w.max = w.value + w.step := by
    have hin : InInt64 (v + s) := by
      unfold InInt64 at hv ⊢
      omega
    rw [hval, hlen, hw]
    exact wrap64_of_inInt64 hin
  have hv' : InInt64 w.value := hval ▸ hv
  have hmax : InInt64 w.max := by
    unfold InInt64 at hv' ⊢
    omega
  have hlist : ∀ steps : List Int, (∀ n ∈ steps, 1 ≤ n ∧ n < 2 ^ 31) →
      (NeverWraps w steps ↔
        (steps ≠ [] → 0 < w.value) ∧ total w.max w.value steps < 2 ^ 63) := fun steps hsteps =>
    neverWraps_iff hv' hmax (by omega) (hval ▸ hzero) fun n hn => (hsteps n hn).1
  refine ⟨hlist, fun hall => ?_, fun ⟨hpos, hroom⟩ steps hsteps => ?_⟩
  · obtain ⟨steps, hsteps, hne, htotal⟩ := @exists_total w.max w.value (by omega)
      (by rw [hsum, hlen]; unfold InInt32 at hs; omega)
    obtain ⟨hstart, hfit⟩ := (hlist steps hsteps).1 (hall steps hsteps)
    exact ⟨hstart hne, by omega⟩
  · refine (hlist steps hsteps).2 ⟨fun _ => hpos, ?_⟩
    have hle : total w.max w.value steps ≤ w.max - 1 + (2 ^ 31 - 1) :=
      total_le (by omega) fun n hn => by have := (hsteps n hn).2; omega
    omega

/-- The last segment that `nextRange` accepts, with one counter. -/
def lastSegment : DefaultSequenceWorker :=
  { name := "SEQ", seqBits := 0, datacenterIdMask32 := 0, datacenterIdMask64 := 0,
    value := 9223372036754775806, max := 9223372036754775807, step := 1 }

/-- The reply `9223372036754775806,1`. -/
def lastReply : DbReply := .row ("9223372036754775806,1".toList)

/-- A call with the step `2^31 - 1` on it. -/
theorem guard_too_small :
    ¬ ∀ (name : String) (reply : DbReply) (out w : DefaultSequenceWorker),
      nextRange name reply out = .ok w → 1 ≤ w.step → w.value + w.step < 2 ^ 63 →
      ∀ steps : List Int, (∀ n ∈ steps, 1 ≤ n ∧ n < 2 ^ 31) → NeverWraps w steps := by
  intro h
  have hwraps := h "SEQ" lastReply { lastSegment with value := 7, max := 7 } lastSegment
    (by decide) (by decide) (by decide) [2147483647] (by simp)
  have hvalue := hwraps.1 [2147483647] List.prefix_rfl
  exact absurd hvalue (by decide)

/-- The segment `(5, 7]` and three calls on it. -/
theorem overflow_guard_sample : NeverWraps WState.sampleWorker [1, 5, 2147483647] := by
  have hw : nextRange "SEQ" (.row ['5', ',', '2']) lastSegment = .ok WState.sampleWorker := by
    decide
  have hall := (overflow_guard_iff hw (by decide) (by decide)).2.2 (by decide)
  exact hall _ (by decide)

end DevTools.Sequence
