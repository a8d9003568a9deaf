import DevTools.Sequence.ExactlyOnce

/-!
# Steps of any sign

The step of a call comes from the client, and nothing between `nextValue` and the fetch-and-add
looks at it. `WrapStep` is `Step` with every `int` as a step and with `int64_t` wrapping around.

**Theorem (`never_rewinds`).** A fetch-and-add leaves `value` where it is or moves it forward, and
gives its call a non-empty range above the old `value`, exactly when `Forward` holds: the step is
positive and the sum fits in `int64_t`, or one of two corner cases. In a run in which every
fetch-and-add is of this kind and every refill brings fresh counters, no id is given out twice.

A step of -2 breaks this (`rewinds`): its call gets the range from 8 to 5, and the next call the
ids that the one before it has.

The invariant of the second part (`Unissued`) is that no claim has an id of `(value, max]`, which
is what is left of the segment.
-/

namespace DevTools.Sequence

/-! ## One fetch-and-add -/

/-- The fetch-and-add moves `value` forward. In the last two cases it gets no range, or `value`
wraps around upwards. -/
def Forward (step : Int) (w : DefaultSequenceWorker) : Prop :=
  (1 ≤ step ∧ w.value + step < 2 ^ 63) ∨ (step = 0 ∧ w.max < w.value) ∨
    (step < 0 ∧ w.value + step < -2 ^ 63)

instance (step : Int) (w : DefaultSequenceWorker) : Decidable (Forward step w) :=
  inferInstanceAs (Decidable (_ ∨ _ ∨ _))

/-- The classification of a fetch-and-add from `v`, wrapped or not. -/
theorem classify_wrap {v step max : Int} (hv : InInt64 v) :
    classify (wrap64 (v + step)) step max =
      if max < wrap64 (v + step) then
        if v < max then some ⟨wrap64 (v + 1), max⟩ else none
      else some ⟨wrap64 (v + 1), wrap64 (v + step)⟩ := by
  have hprev : wrap64 (wrap64 (v + step) - step) = v := by
    unfold InInt64 at hv
    unfold wrap64
    omega
  simp only [classify, hprev]

/-- The call is not given an id at or below `v`. -/
def Above (v : Int) (res : Option SequenceRange) : Prop :=
  ∀ r, res = some r → v < r.min ∧ r.min ≤ r.max

theorem forward_value {w : DefaultSequenceWorker} {n : Int} (hv : InInt64 w.value)
    (hn : InInt32 n) (h : Forward n w) :
    w.value ≤ (w.addAndFetch n).value ∧ (n ≠ 0 → w.value < (w.addAndFetch n).value) := by
  unfold InInt64 at hv
  unfold InInt32 at hn
  simp only [DefaultSequenceWorker.addAndFetch, wrap64]
  rcases h with h | h | h <;> omega

/-- What a fetch-and-add that moves forward gets: the counters it has passed, up to `max`. -/
theorem classify_of_forward {w : DefaultSequenceWorker} {n : Int} (hv : InInt64 w.value)
    (hmax : InInt64 w.max) (hn : InInt32 n) (h : Forward n w) :
    classify (w.addAndFetch n).value n w.max = if w.value < w.max
      then some ⟨w.value + 1, min (w.addAndFetch n).value w.max⟩ else none := by
  obtain ⟨hle, hlt⟩ := forward_value hv hn h
  have hc : classify (w.addAndFetch n).value n w.max = _ := classify_wrap hv
  rw [hc]
  have hcur : wrap64 (w.value + n) = (w.addAndFetch n).value := rfl
  rw [hcur]
  by_cases hlow : w.value < w.max
  · have hsucc : wrap64 (w.value + 1) = w.value + 1 := by
      apply wrap64_of_inInt64
      unfold InInt64 at hv hmax ⊢
      omega
    rw [if_pos hlow, if_pos hlow, hsucc]
    by_cases hover : w.max < (w.addAndFetch n).value
    · rw [if_pos hover, min_eq_right hover.le]
    · rw [if_neg hover, min_eq_left (not_lt.1 hover)]
  · have hover : w.max < (w.addAndFetch n).value := by
      by_cases h0 : n = 0
      · rcases h with h | h | h <;> omega
      · have := hlt h0
        omega
    rw [if_neg hlow, if_neg hlow, if_pos hover]

/-- **When a fetch-and-add is harmless.** -/
theorem forward_iff {w : DefaultSequenceWorker} {n : Int} (hv : InInt64 w.value)
    (hmax : InInt64 w.max) (hn : InInt32 n) :
    (w.value ≤ (w.addAndFetch n).value ∧
      Above w.value (classify (w.addAndFetch n).value n w.max)) ↔ Forward n w := by
  constructor
  · rintro ⟨hle, hr⟩
    by_contra hnot
    -- the counter stands still: a step of 0 at or below `max`
    have h0 : n = 0 ∧ w.value ≤ w.max := by
      unfold Forward at hnot
      unfold InInt64 at hv
      unfold InInt32 at hn
      simp only [DefaultSequenceWorker.addAndFetch, wrap64] at hle
      omega
    obtain ⟨rfl, hlow⟩ := h0
    have hc : classify (w.addAndFetch 0).value 0 w.max = _ := classify_wrap hv
    rw [Int.add_zero, wrap64_of_inInt64 hv, if_neg (by omega)] at hc
    have hrange := hr _ hc
    simp only at hrange
    omega
  · intro h
    refine ⟨(forward_value hv hn h).1, fun r hr => ?_⟩
    obtain ⟨-, hlt⟩ := forward_value hv hn h
    rw [classify_of_forward hv hmax hn h] at hr
    split_ifs at hr with hlow
    cases hr
    have hpos := hlt (by rintro rfl; rcases h with h | h | h <;> omega)
    simp only
    omega

namespace WState

variable {ι : Type} [DecidableEq ι] {step : ι → Int} {s s' : WState ι} {a : Act ι}

/-! ## Runs with wrapping arithmetic -/

/-- One atomic action. Where `Step` stops, `int64_t` wraps around. -/
inductive WrapStep (step : ι → Int) : WState ι → Act ι → WState ι → Prop
  | inRange {s s' : WState ι} {a : Act ι} : Step step s a s' → WrapStep step s a s'
  | refill {s : WState ι} {i : ι} {reply : DbReply} {w : DefaultSequenceWorker} :
      s.pc i = .refill → nextRange s.worker.name reply s.worker = .ok w →
      ¬ InInt64 (w.value + w.step) →
      WrapStep step s (.refill i reply)
        { s.goto i (.test .write) with worker := w, segs := w.segment :: s.segs }
  | add {s : WState ι} {i : ι} {m : Mode} : s.pc i = .add m →
      ¬ InInt64 (s.worker.value + step i) →
      WrapStep step s (.add i)
        { s.goto i (.classify m (s.worker.addAndFetch (step i)).value) with
          worker := s.worker.addAndFetch (step i) }

/-- The worker as a transition system, without `lts`'s exclusion of overflow. -/
def wrapLts (step : ι → Int) : LTS (WState ι) (Act ι) where
  init s := ∃ name datacenterId seqBits reply w, construct name datacenterId seqBits reply = .ok w ∧
    s = start w
  step := WrapStep step

theorem WrapStep.cases (h : WrapStep step s a s') :
    (∃ i p, Quiet step s i p ∧ s' = s.goto i p) ∨
    (∃ i m, a = .add i ∧ s.pc i = .add m ∧
      s' = { s.goto i (.classify m (s.worker.addAndFetch (step i)).value) with
        worker := s.worker.addAndFetch (step i) }) ∨
    (∃ i reply w, a = .refill i reply ∧ s.pc i = .refill ∧
      nextRange s.worker.name reply s.worker = .ok w ∧
      s' = { s.goto i (.test .write) with worker := w, segs := w.segment :: s.segs }) := by
  cases h with
  | inRange h =>
    rcases h.cases with hq | ⟨i, m, hi, -, ha, hs⟩ | ⟨i, reply, w, hi, hw, -, ha, hs⟩
    · exact .inl hq
    · exact .inr (.inl ⟨i, m, ha, hi, hs⟩)
    · exact .inr (.inr ⟨i, reply, w, ha, hi, hw, hs⟩)
  | refill hi hw => exact .inr (.inr ⟨_, _, _, rfl, hi, hw, rfl⟩)
  | add hi => exact .inr (.inl ⟨_, _, rfl, hi, rfl⟩)

/-- `value` and `max` are 64-bit numbers. -/
def InRange (s : WState ι) : Prop := InInt64 s.worker.value ∧ InInt64 s.worker.max

theorem inRange_of_nextRange {name : String} {reply : DbReply} {out w : DefaultSequenceWorker}
    (h : nextRange name reply out = .ok w) : InInt64 w.value ∧ InInt64 w.max := by
  obtain ⟨hmax, hv, -⟩ := nextRange_fields h
  exact ⟨hv, hmax ▸ inInt64_wrap64 _⟩

theorem inRange_reach (h : (wrapLts step).Reach s) : InRange s := by
  induction h with
  | init h =>
    obtain ⟨name, dc, bits, reply, w, hw, rfl⟩ := h
    obtain ⟨out, hout⟩ := construct_nextRange hw
    exact inRange_of_nextRange hout
  | step _ ha ih =>
    rcases WrapStep.cases ha with ⟨i, p, -, rfl⟩ | ⟨i, m, -, -, rfl⟩ | ⟨i, reply, w, -, -, hw, rfl⟩
    · exact ih
    · exact ⟨inInt64_wrap64 _, ih.2⟩
    · exact inRange_of_nextRange hw

/-! ## No id twice -/

/-- No claim has an id of `(value, max]`, and no two claims have one in common. -/
structure Unissued (step : ι → Int) (s : WState ι) : Prop where
  excl : Excl s.hold
  range : InRange s
  claims : ∀ i r, s.claim step i = some r →
    r.min ≤ r.max ∧ Disjoint r.ids (Set.Ioc s.worker.value s.worker.max)
  disjoint : ∀ i j r r', i ≠ j → s.claim step i = some r → s.claim step j = some r' →
    Disjoint r.ids r'.ids

/-- A fetch-and-add is to move forward; a refill is to bring counters that no call has. -/
def Harmless (step : ι → Int) (s : WState ι) : Act ι → Prop
  | .add i => Forward (step i) s.worker
  | .refill _ reply => ∀ w, nextRange s.worker.name reply s.worker = .ok w →
      ∀ j r, s.claim step j = some r → Disjoint r.ids (Set.Ioc w.value w.max)
  | _ => True

omit [DecidableEq ι] in
theorem unissued_start {w : DefaultSequenceWorker} (hw : InInt64 w.value ∧ InInt64 w.max) :
    Unissued step (start w : WState ι) where
  excl i j _ hi := by cases hi
  range := hw
  claims i r hi := by simp [claim, start, Pc.claim] at hi
  disjoint i j r r' _ hi := by simp [claim, start, Pc.claim] at hi

theorem unissued_quiet (h : Unissued step s) {i : ι} {p : Pc} (hp : Quiet step s i p) :
    Unissued step (s.goto i p) where
  excl := excl_goto h.excl hp.hold
  range := h.range
  claims j r hj := h.claims j r (by rwa [claim_quiet hp] at hj)
  disjoint j k r r' hjk hj hk :=
    h.disjoint j k r r' hjk (by rwa [claim_quiet hp] at hj) (by rwa [claim_quiet hp] at hk)

/-- What a fetch-and-add gets comes from what was left, and is not left afterwards. -/
theorem claim_add_ids {i : ι} {m : Mode} (hstep : InInt32 (step i)) (h : InRange s)
    (hf : Forward (step i) s.worker) {r : SequenceRange}
    (hr : claim step { s.goto i (.classify m (s.worker.addAndFetch (step i)).value) with
      worker := s.worker.addAndFetch (step i) } i = some r) :
    r.min ≤ r.max ∧ r.ids ⊆ Set.Ioc s.worker.value s.worker.max ∧
      r.max ≤ (s.worker.addAndFetch (step i)).value := by
  obtain ⟨-, habove⟩ := (forward_iff h.1 h.2 hstep).2 hf
  simp only [claim, goto_pc_self, Pc.claim, DefaultSequenceWorker.addAndFetch_max] at hr
  obtain ⟨hlow, hle⟩ := habove r hr
  rw [classify_of_forward h.1 h.2 hstep hf] at hr
  split_ifs at hr with hlt
  cases hr
  refine ⟨hle, fun x hx => ⟨hlow.trans_le hx.1, hx.2.trans (min_le_right _ _)⟩, min_le_left _ _⟩

theorem unissued_add (h : Unissued step s) {i : ι} {m : Mode} (hi : s.pc i = .add m)
    (hstep : InInt32 (step i)) (hf : Forward (step i) s.worker) :
    Unissued step { s.goto i (.classify m (s.worker.addAndFetch (step i)).value) with
      worker := s.worker.addAndFetch (step i) } := by
  have hle := (forward_value h.range.1 hstep hf).1
  -- an old claim is disjoint from all that was left, so also from what a call gets of it now
  have hnew {j : ι} {r r' : SequenceRange} (hj : s.claim step j = some r)
      (hsub : r'.ids ⊆ Set.Ioc s.worker.value s.worker.max) : Disjoint r.ids r'.ids :=
    (h.claims j r hj).2.mono_right hsub
  refine ⟨?_, ⟨inInt64_wrap64 _, h.range.2⟩, ?_, ?_⟩
  · exact excl_goto h.excl (.inl (by simp [hold, hi, Pc.hold]))
  · intro j r hj
    by_cases hji : j = i
    · subst hji
      obtain ⟨hne, -, hmax⟩ := claim_add_ids hstep h.range hf hj
      refine ⟨hne, Set.disjoint_left.2 fun x hx hx' => ?_⟩
      exact absurd (hx.2.trans hmax) (not_le.2 hx'.1)
    · rw [claim_add_ne hji] at hj
      obtain ⟨hne, hd⟩ := h.claims j r hj
      exact ⟨hne, hd.mono_right (Set.Ioc_subset_Ioc_left hle)⟩
  · intro j k r r' hjk hj hk
    by_cases hji : j = i
    · subst hji
      obtain ⟨-, hsub, -⟩ := claim_add_ids hstep h.range hf hj
      rw [claim_add_ne (Ne.symm hjk)] at hk
      exact (hnew hk hsub).symm
    · rw [claim_add_ne hji] at hj
      by_cases hki : k = i
      · subst hki
        obtain ⟨-, hsub, -⟩ := claim_add_ids hstep h.range hf hk
        exact hnew hj hsub
      · rw [claim_add_ne hki] at hk
        exact h.disjoint j k r r' hjk hj hk

theorem unissued_refill (h : Unissued step s) {i : ι} {w : DefaultSequenceWorker}
    (hi : s.pc i = .refill) (hw : InInt64 w.value ∧ InInt64 w.max)
    (hfresh : ∀ j r, s.claim step j = some r → Disjoint r.ids (Set.Ioc w.value w.max)) :
    Unissued step { s.goto i (.test .write) with worker := w, segs := w.segment :: s.segs } where
  excl := excl_goto h.excl (.inl (by simp [hold, hi, Pc.hold, Mode.hold]))
  range := hw
  claims j r hj := by
    rw [claim_refill h.excl hi] at hj
    exact ⟨(h.claims j r hj).1, hfresh j r hj⟩
  disjoint j k r r' hjk hj hk := by
    rw [claim_refill h.excl hi] at hj hk
    exact h.disjoint j k r r' hjk hj hk

theorem unissued_reach (hstep : ∀ i, InInt32 (step i))
    (h : ((wrapLts step).restrict (Harmless step)).Reach s) : Unissued step s := by
  induction h with
  | init h =>
    obtain ⟨name, dc, bits, reply, w, hw, rfl⟩ := h
    obtain ⟨out, hout⟩ := construct_nextRange hw
    exact unissued_start (inRange_of_nextRange hout)
  | step _ ha ih =>
    obtain ⟨hok, ha⟩ := ha
    obtain ⟨i, p, hp, rfl⟩ | ⟨i, m, rfl, hi, rfl⟩ | ⟨i, reply, w, rfl, hi, hw, rfl⟩ :=
      WrapStep.cases ha
    · exact unissued_quiet ih hp
    · exact unissued_add ih hi (hstep i) hok
    · exact unissued_refill ih hi (inRange_of_nextRange hw) (hok w hw)

/-- The fetch-and-add of call `i` moves the counter forward or leaves it, and the call is bound to
get a non-empty range above the old counter, or none. -/
def NoRewind (step : ι → Int) (i : ι) (s s' : WState ι) : Prop :=
  s.worker.value ≤ s'.worker.value ∧ Above s.worker.value (s'.claim step i)

theorem noRewind_iff {i : ι} (hstep : InInt32 (step i)) (h : InRange s)
    (ha : WrapStep step s (.add i) s') : NoRewind step i s s' ↔ Forward (step i) s.worker := by
  have hs : ∃ m, s' = { s.goto i (.classify m (s.worker.addAndFetch (step i)).value) with
      worker := s.worker.addAndFetch (step i) } := by
    cases ha with
    | inRange h => cases h; exact ⟨_, rfl⟩
    | add => exact ⟨_, rfl⟩
  obtain ⟨m, rfl⟩ := hs
  rw [← forward_iff h.1 h.2 hstep]
  simp [NoRewind, claim, Pc.claim, DefaultSequenceWorker.addAndFetch]

/-- **No step rewinds the sequence**, if every fetch-and-add is `Forward`, and only then. -/
theorem never_rewinds (hstep : ∀ i, InInt32 (step i)) :
    (∀ s s' i, (wrapLts step).Reach s → WrapStep step s (.add i) s' →
      (NoRewind step i s s' ↔ Forward (step i) s.worker)) ∧
    ∀ s, ((wrapLts step).restrict (Harmless step)).Reach s →
      (∀ i r, s.assigned i = some r → r.min ≤ r.max) ∧
      (∀ i j r r', i ≠ j → s.assigned i = some r → s.assigned j = some r' →
        Disjoint r.ids r'.ids) ∧
      ∀ a s', ((wrapLts step).restrict (Harmless step)).step s a s' →
        (∀ i reply, a ≠ .refill i reply) → s.worker.value ≤ s'.worker.value := by
  refine ⟨fun s s' i h ha => noRewind_iff (hstep i) (inRange_reach h) ha, fun s h => ?_⟩
  have hu := unissued_reach hstep h
  refine ⟨fun i r hi => (hu.claims i r (claim_of_assigned hi)).1, ?_, ?_⟩
  · intro i j r r' hij hi hj
    exact hu.disjoint i j r r' hij (claim_of_assigned hi) (claim_of_assigned hj)
  · rintro a s' ⟨hok, ha⟩ hcall
    rcases WrapStep.cases ha with ⟨i, p, -, rfl⟩ | ⟨i, m, rfl, -, rfl⟩ | ⟨i, reply, w, rfl, -⟩
    · exact le_rfl
    · exact (forward_value hu.range.1 (hstep i) hok).1
    · exact absurd rfl (hcall i reply)

/-- Three calls on the segment `(5, 15]`, the second with a step of -2. -/
def hostileWorker : DefaultSequenceWorker :=
  { sampleWorker with max := 15, step := 10 }

def hostileSteps : Fin 3 → Int
  | 0 => 2
  | 1 => -2
  | 2 => 2

def oneCall {n : Nat} (i : Fin n) : List (Act (Fin n)) :=
  [.call i, .lock i, .test i, .add i, .classify i, .unlock i]

theorem hostileWorker_init (step : ι → Int) : (wrapLts step).init (start hostileWorker) :=
  ⟨"SEQ", 1, 0, .row ['5', ',', '1', '0'], hostileWorker, by decide, rfl⟩

theorem exec_wrap [Fintype ι] (s : WState ι) (a : Act ι) (s' : WState ι)
    (h : exec step s a = some s') : (wrapLts step).step s a s' :=
  .inRange (exec_sound h)

theorem hostileRun_result :
    ((oneCall 0 ++ oneCall 1 ++ oneCall 2).foldlM (exec hostileSteps) (start hostileWorker)).map
        (fun s : WState (Fin 3) => (s.assigned 0, s.assigned 1, s.assigned 2)) =
      some (some ⟨6, 7⟩, some ⟨8, 5⟩, some ⟨6, 7⟩) := by
  decide +kernel

/-- The second call rewinds the counter and gets an empty range, and the third gets what the first
one has. -/
theorem rewinds :
    ¬ ∀ step : Fin 3 → Int, (∀ i, InInt32 (step i)) → ∀ s, (wrapLts step).Reach s →
      (∀ s' i, WrapStep step s (.add i) s' → s.worker.value ≤ s'.worker.value) ∧
      (∀ i r, s.assigned i = some r → r.min ≤ r.max) ∧
      ∀ i j r r', i ≠ j → s.assigned i = some r → s.assigned j = some r' →
        Disjoint r.ids r'.ids := by
  intro h
  obtain ⟨s, hs, hfields⟩ := Option.map_eq_some_iff.1 hostileRun_result
  simp only [Prod.mk.injEq] at hfields
  obtain ⟨h0, -, h2⟩ := hfields
  have hreach : (wrapLts hostileSteps).Reach s :=
    (LTS.Reach.init (hostileWorker_init hostileSteps)).exec exec_wrap hs
  obtain ⟨-, -, hd⟩ := h hostileSteps (by decide) s hreach
  have hboth : (6 : Int) ∈ SequenceRange.ids ⟨6, 7⟩ := ⟨by decide, by decide⟩
  exact Set.disjoint_left.1 (hd 0 2 _ _ (by decide) h0 h2) hboth hboth

/-- The steps of `exec` other than refills that are harmless. -/
def execHarmless [Fintype ι] (step : ι → Int) (s : WState ι) : Act ι → Option (WState ι)
  | .add i => if Forward (step i) s.worker then exec step s (.add i) else none
  | .refill _ _ => none
  | a => exec step s a

theorem execHarmless_sound [Fintype ι] (s : WState ι) (a : Act ι) (s' : WState ι)
    (h : execHarmless step s a = some s') :
    ((wrapLts step).restrict (Harmless step)).step s a s' := by
  unfold execHarmless at h
  split at h
  · split at h
    · exact ⟨‹_›, exec_wrap s _ s' h⟩
    · cases h
  · cases h
  · rename_i hadd hrefill
    refine ⟨?_, exec_wrap s a s' h⟩
    cases a with
    | add i => exact absurd rfl (hadd i)
    | refill i reply => exact absurd rfl (hrefill i reply)
    | _ => trivial

/-- Two calls with steps 3 and 2 on `(5, 15]`. -/
theorem never_rewinds_sample :
    ∃ s : WState (Fin 2), s.assigned 0 = some ⟨6, 8⟩ ∧ s.assigned 1 = some ⟨9, 10⟩ ∧
      Disjoint (SequenceRange.ids ⟨6, 8⟩) (SequenceRange.ids ⟨9, 10⟩) := by
  have hrun : ((oneCall 0 ++ oneCall 1).foldlM (execHarmless sampleSteps)
      (start hostileWorker)).map (fun s : WState (Fin 2) => (s.assigned 0, s.assigned 1)) =
      some (some ⟨6, 8⟩, some ⟨9, 10⟩) := by
    decide +kernel
  obtain ⟨s, hs, hfields⟩ := Option.map_eq_some_iff.1 hrun
  simp only [Prod.mk.injEq] at hfields
  obtain ⟨h0, h1⟩ := hfields
  have hinit : ((wrapLts sampleSteps).restrict (Harmless sampleSteps)).Reach
      (start hostileWorker) := .init (hostileWorker_init sampleSteps)
  have hall := (@never_rewinds (Fin 2) _ sampleSteps (by decide)).2 s
    (hinit.exec execHarmless_sound hs)
  exact ⟨s, h0, h1, hall.2.1 0 1 _ _ (by decide) h0 h1⟩

end WState

end DevTools.Sequence
