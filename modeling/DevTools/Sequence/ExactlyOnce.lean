import DevTools.Sequence.Interleaving

/-!
# Exactly-once allocation

**Theorem (`exactly_once`).** Let any number of calls with steps `≥ 1` interleave on one worker,
and let the segments that `nextRange` delivers be pairwise disjoint. The raw
ranges assigned with status 0 are non-empty, pairwise disjoint and each inside one segment, and
every counter of a replaced segment has been assigned to exactly one call.

**Theorem (`real_time_order`).** If the segments come in increasing order, a call that starts
after another has returned gets larger ids.

A step either leaves the worker and every call's claim alone, or is a fetch-and-add, or installs
a segment (`Step.cases`). Three invariants follow from that:

* `Shape`, which needs nothing of the segments: the lock excludes, `max` is the end of the
  newest segment, and a pending fetch-and-add lies inside it;
* `Inside`: every claim is a non-empty part of one segment;
* `Cover`: the claims partition what has been consumed, that is, all of the replaced segments
  and the newest one up to `min value max`.
-/

namespace DevTools.Sequence

namespace WState

variable {ι : Type} [DecidableEq ι] {step : ι → Int} {s s' : WState ι} {a : Act ι}

/-! ## Moving one call -/

@[simp] theorem goto_worker (s : WState ι) (i : ι) (p : Pc) : (s.goto i p).worker = s.worker := rfl

@[simp] theorem goto_segs (s : WState ι) (i : ι) (p : Pc) : (s.goto i p).segs = s.segs := rfl

@[simp] theorem goto_pc_self (s : WState ι) (i : ι) (p : Pc) : (s.goto i p).pc i = p := by
  simp [goto]

theorem goto_pc_ne (s : WState ι) {i j : ι} (p : Pc) (h : j ≠ i) : (s.goto i p).pc j = s.pc j := by
  simp [goto, h]

/-- The step changes neither the worker nor any claim. -/
structure Quiet (step : ι → Int) (s : WState ι) (i : ι) (p : Pc) : Prop where
  claim : p.claim (step i) s.worker.max = s.claim step i
  hold : p.hold = s.hold i ∨ p.hold = .free ∨ Grantable s.hold p.hold
  refill : p = .refill → s.worker.exhausted
  notPending : ∀ m cur, p ≠ .classify m cur

/-- **What a step can do.** -/
theorem Step.cases (h : Step step s a s') :
    (∃ i p, Quiet step s i p ∧ s' = s.goto i p) ∨
    (∃ i m, s.pc i = .add m ∧ InInt64 (s.worker.value + step i) ∧ a = .add i ∧
      s' = { s.goto i (.classify m (s.worker.addAndFetch (step i)).value) with
        worker := s.worker.addAndFetch (step i) }) ∨
    (∃ i reply w, s.pc i = .refill ∧ nextRange s.worker.name reply s.worker = .ok w ∧
      InInt64 (w.value + w.step) ∧ a = .refill i reply ∧
      s' = { s.goto i (.test .write) with worker := w, segs := w.segment :: s.segs }) := by
  cases h with
  | @call i hi =>
    refine .inl ⟨i, _, ⟨?_, .inr (.inl ?_), ?_, ?_⟩, rfl⟩
    · simp [claim, hi, Pc.claim]
    · rfl
    · nofun
    · nofun
  | @lock i m hi hg =>
    refine .inl ⟨i, _, ⟨?_, .inr (.inr ?_), ?_, ?_⟩, rfl⟩
    · cases m <;> simp [claim, hi, Pc.claim, Pc.entry]
    · cases m <;> exact hg
    · cases m <;> nofun
    · cases m <;> nofun
  | @check i hi =>
    refine .inl ⟨i, _, ⟨?_, .inl ?_, ?_, ?_⟩, rfl⟩
    · split <;> simp [claim, hi, Pc.claim]
    · split <;> simp [WState.hold, hi, Pc.hold, Mode.hold]
    · split
      · exact fun _ => ‹_›
      · nofun
    · split <;> nofun
  | refill hi hw hr => exact .inr (.inr ⟨_, _, _, hi, hw, hr, rfl, rfl⟩)
  | @refillThrows i reply e hi =>
    refine .inl ⟨i, _, ⟨?_, .inr (.inl ?_), ?_, ?_⟩, rfl⟩
    · simp [claim, hi, Pc.claim]
    · rfl
    · nofun
    · nofun
  | @test i m hi =>
    refine .inl ⟨i, _, ⟨?_, .inl ?_, ?_, ?_⟩, rfl⟩
    · split <;> simp [claim, hi, Pc.claim]
    · split <;> simp [WState.hold, hi, Pc.hold]
    · split <;> nofun
    · split <;> nofun
  | add hi hr => exact .inr (.inl ⟨_, _, hi, hr, rfl, rfl⟩)
  | @classify i m cur hi =>
    refine .inl ⟨i, _, ⟨?_, .inl ?_, ?_, ?_⟩, rfl⟩
    · simp [claim, hi, Pc.claim]
    · simp [WState.hold, hi, Pc.hold]
    · nofun
    · nofun
  | @unlock i m res hi =>
    refine .inl ⟨i, _, ⟨?_, .inr (.inl ?_), ?_, ?_⟩, rfl⟩
    · cases m <;> cases res <;> simp [claim, hi, Pc.claim, Pc.exit]
    · cases m <;> cases res <;> rfl
    · cases m <;> cases res <;> nofun
    · cases m <;> cases res <;> nofun

/-! ## The shape of a reachable state -/

structure Shape (step : ι → Int) (s : WState ι) : Prop where
  excl : Excl s.hold
  /-- `max` is the end of the newest segment, which `value` has entered. -/
  current : ∃ g older, s.segs = g :: older ∧ s.worker.max = g.start + g.len ∧
    g.start ≤ s.worker.value
  range : InInt64 s.worker.value
  /-- A pending fetch-and-add lies in the newest segment, below `value`. -/
  pending : ∀ i m cur, s.pc i = .classify m cur → InInt64 (cur - step i) ∧ InInt64 cur ∧
    cur ≤ s.worker.value ∧ ∀ g ∈ s.segs.head?, g.start ≤ cur - step i
  refill : ∀ i, s.pc i = .refill → s.worker.exhausted

omit [DecidableEq ι] in
/-- Only the writer is inside the lock. -/
theorem Shape.alone (h : Shape step s) {i j : ι} (hi : s.hold i = .write) (hj : j ≠ i) :
    s.hold j = .free :=
  h.excl i j (Ne.symm hj) hi

theorem hold_goto_ne (s : WState ι) {i j : ι} (p : Pc) (h : j ≠ i) :
    (s.goto i p).hold j = s.hold j := by
  rw [hold, goto_pc_ne s p h, hold]

theorem excl_goto (h : Excl s.hold) {i : ι} {p : Pc}
    (hp : p.hold = s.hold i ∨ p.hold = .free ∨ Grantable s.hold p.hold) :
    Excl (s.goto i p).hold := by
  have hself : (s.goto i p).hold i = p.hold := by simp [hold]
  rcases hp with hp | hp | hp
  · exact h.keep (.inl (hself.trans hp)) fun j hj => hold_goto_ne s p hj
  · exact h.keep (.inr (hself.trans hp)) fun j hj => hold_goto_ne s p hj
  · exact h.grant hp hself fun j hj => hold_goto_ne s p hj

omit [DecidableEq ι] in
theorem shape_start {w : DefaultSequenceWorker} (hmax : w.max = wrap64 (w.value + w.step))
    (hr : InInt64 (w.value + w.step)) (hv : InInt64 w.value) :
    Shape step (start w : WState ι) where
  excl i j _ hi := by cases hi
  current := ⟨w.segment, [], rfl, hmax.trans (wrap64_of_inInt64 hr), le_refl w.value⟩
  range := hv
  pending i m cur hi := by cases hi
  refill i hi := by cases hi

theorem shape_quiet (h : Shape step s) {i : ι} {p : Pc} (hp : Quiet step s i p) :
    Shape step (s.goto i p) where
  excl := excl_goto h.excl hp.hold
  current := h.current
  range := h.range
  pending j m cur hj := by
    rcases eq_or_ne j i with rfl | hne
    · rw [goto_pc_self] at hj
      exact absurd hj (hp.notPending m cur)
    · rw [goto_pc_ne s p hne] at hj
      exact h.pending j m cur hj
  refill j hj := by
    rcases eq_or_ne j i with rfl | hne
    · rw [goto_pc_self] at hj
      exact hp.refill hj
    · rw [goto_pc_ne s p hne] at hj
      exact h.refill j hj

theorem addAndFetch_value {w : DefaultSequenceWorker} {n : Int} (hr : InInt64 (w.value + n)) :
    (w.addAndFetch n).value = w.value + n :=
  wrap64_of_inInt64 hr

theorem shape_add (h : Shape step s) {i : ι} {m : Mode} (hi : s.pc i = .add m)
    (hr : InInt64 (s.worker.value + step i)) (hstep : 1 ≤ step i) :
    Shape step { s.goto i (.classify m (s.worker.addAndFetch (step i)).value) with
      worker := s.worker.addAndFetch (step i) } := by
  have hv := addAndFetch_value hr
  obtain ⟨g, older, hsegs, hmax, hlow⟩ := h.current
  exact {
    excl := excl_goto h.excl (.inl (by simp [hold, hi, Pc.hold]))
    current := ⟨g, older, hsegs, hmax, by simp only [hv]; omega⟩
    range := by simp only [hv]; exact hr
    pending := by
      intro j m' cur hj
      rcases eq_or_ne j i with rfl | hne
      · simp only [goto_pc_self, Pc.classify.injEq, hv] at hj
        obtain ⟨rfl, rfl⟩ := hj
        refine ⟨?_, hr, by simp only [hv]; omega, ?_⟩
        · rw [show s.worker.value + step j - step j = s.worker.value by omega]
          exact h.range
        · intro g' hg'
          simp only [goto_segs, hsegs, List.head?_cons, Option.mem_some_iff] at hg'
          subst hg'
          omega
      · simp only [goto_pc_ne s _ hne] at hj
        obtain ⟨h1, h2, h3, h4⟩ := h.pending j m' cur hj
        exact ⟨h1, h2, by simp only [hv]; omega, h4⟩
    refill := by
      intro j hj
      rcases eq_or_ne j i with rfl | hne
      · simp at hj
      · simp only [goto_pc_ne s _ hne] at hj
        have hexh := h.refill j hj
        simp only [DefaultSequenceWorker.exhausted, hv] at hexh ⊢
        exact le_trans hexh (by omega) }

theorem shape_refill (h : Shape step s) {i : ι} {w : DefaultSequenceWorker}
    (hi : s.pc i = .refill) (hmax : w.max = wrap64 (w.value + w.step))
    (hr : InInt64 (w.value + w.step)) (hv : InInt64 w.value) :
    Shape step { s.goto i (.test .write) with worker := w, segs := w.segment :: s.segs } := by
  have hwrite : s.hold i = .write := by simp [hold, hi, Pc.hold]
  exact {
    excl := excl_goto h.excl (.inl (by simp [hold, hi, Pc.hold, Mode.hold]))
    current := ⟨w.segment, s.segs, rfl, hmax.trans (wrap64_of_inInt64 hr), le_refl w.value⟩
    range := hv
    pending := by
      intro j m cur hj
      rcases eq_or_ne j i with rfl | hne
      · simp at hj
      · -- a pending call holds the lock, and the refilling call is alone in it
        simp only [goto_pc_ne s _ hne] at hj
        have hfree := h.alone hwrite hne
        rw [hold, hj] at hfree
        cases m <;> cases hfree
    refill := by
      intro j hj
      rcases eq_or_ne j i with rfl | hne
      · simp at hj
      · simp only [goto_pc_ne s _ hne] at hj
        have hfree := h.alone hwrite hne
        rw [hold, hj] at hfree
        cases hfree }

theorem shape_step (hstep : ∀ i, 1 ≤ step i) (h : Shape step s) (ha : Step step s a s') :
    Shape step s' := by
  rcases ha.cases with ⟨i, p, hp, rfl⟩ | ⟨i, m, hi, hr, -, rfl⟩ | ⟨i, reply, w, hi, hw, hr, -, rfl⟩
  · exact shape_quiet h hp
  · exact shape_add h hi hr (hstep i)
  · obtain ⟨hmax, hv, -⟩ := nextRange_fields hw
    exact shape_refill h hi hmax hr hv

theorem shape_init (h : (lts step).init s) : Shape step s := by
  obtain ⟨name, dc, bits, reply, w, hw, hr, rfl⟩ := h
  obtain ⟨hmax, hv, -⟩ := construct_fields hw
  exact shape_start hmax hr hv

theorem shape_reach (hstep : ∀ i, 1 ≤ step i) (h : (lts step).Reach s) : Shape step s :=
  h.invariant (fun _ => shape_init) fun _ _ _ => shape_step hstep

/-! ## What a pending call is bound to get -/

omit [DecidableEq ι] in
/-- From the fetch-and-add on, a call's range is the part of `(cur - step, cur]` below `max`. -/
theorem claim_pending (h : Shape step s) {i : ι} {m : Mode} {cur : Int} (hstep : 1 ≤ step i)
    (hi : s.pc i = .classify m cur) :
    s.claim step i = if cur - step i < s.worker.max
      then some ⟨cur - step i + 1, min cur s.worker.max⟩ else none := by
  obtain ⟨hlow, hcur, -, -⟩ := h.pending i m cur hi
  have hsum : cur - step i + step i = cur := by omega
  have hrange : InInt64 (cur - step i + step i) := by rwa [hsum]
  have hc : classify (cur - step i + step i) (step i) s.worker.max = _ :=
    classify_of_noOverflow hlow hrange hstep
  rw [hsum] at hc
  simpa [claim, hi, Pc.claim] using hc

theorem claim_goto_ne (s : WState ι) {i j : ι} (p : Pc) (h : j ≠ i) :
    (s.goto i p).claim step j = s.claim step j := by
  rw [claim, claim, goto_pc_ne s p h, goto_worker]

theorem claim_quiet {i : ι} {p : Pc} (hp : Quiet step s i p) (j : ι) :
    (s.goto i p).claim step j = s.claim step j := by
  by_cases hj : j = i
  · subst hj
    rw [← hp.claim, claim, goto_pc_self, goto_worker]
  · exact claim_goto_ne s p hj

omit [DecidableEq ι] in
/-- A call without the lock has a claim that no longer depends on the worker. -/
theorem claim_of_free {j : ι} (h : s.hold j = .free) {max : Int} :
    (s.pc j).claim (step j) max = s.claim step j := by
  unfold claim
  cases hj : s.pc j with
  | classify m cur => rw [hold, hj] at h; cases m <;> cases h
  | _ => rfl

/-- The fetch-and-add of call `i`. -/
theorem claim_add_ne {i j : ι} {m : Mode} (hne : j ≠ i) :
    claim step { s.goto i (.classify m (s.worker.addAndFetch (step i)).value) with
      worker := s.worker.addAndFetch (step i) } j = s.claim step j := by
  simp only [claim, goto_pc_ne s _ hne]
  rfl

theorem claim_add_self {i : ι} {m : Mode} (h : Shape step s)
    (hr : InInt64 (s.worker.value + step i)) (hstep : 1 ≤ step i) :
    claim step { s.goto i (.classify m (s.worker.addAndFetch (step i)).value) with
      worker := s.worker.addAndFetch (step i) } i =
      if s.worker.value < s.worker.max
        then some ⟨s.worker.value + 1, min (s.worker.value + step i) s.worker.max⟩ else none := by
  simp only [claim, goto_pc_self, Pc.claim, addAndFetch_value hr]
  exact classify_of_noOverflow h.range hr hstep

/-- A refill leaves every claim alone: nobody else is inside the lock. -/
theorem claim_refill (h : Excl s.hold) {i : ι} (hi : s.pc i = .refill)
    (w : DefaultSequenceWorker) (segs : List Segment) (j : ι) :
    claim step { s.goto i (.test .write) with worker := w, segs := segs } j =
      s.claim step j := by
  by_cases hj : j = i
  · subst hj
    simp [claim, hi, Pc.claim]
  · have hfree : s.hold j = .free := h i j (Ne.symm hj) (by simp [hold, hi, Pc.hold])
    simp only [claim, goto_pc_ne s _ hj]
    exact claim_of_free hfree

/-! ## Every claim lies in one segment -/

/-- Every claim is a non-empty part of one installed segment. -/
def Inside (step : ι → Int) (s : WState ι) : Prop :=
  ∀ i r, s.claim step i = some r → r.min ≤ r.max ∧ ∃ g ∈ s.segs, r.ids ⊆ g.ids

theorem inside_step (hstep : ∀ i, 1 ≤ step i) (hs : Shape step s) (h : Inside step s)
    (ha : Step step s a s') : Inside step s' := by
  intro j r hj
  rcases ha.cases with ⟨i, p, hp, rfl⟩ | ⟨i, m, hi, hr, -, rfl⟩ | ⟨i, reply, w, hi, -, -, -, rfl⟩
  · rw [claim_quiet hp] at hj
    exact h j r hj
  · by_cases hji : j = i
    · subst hji
      obtain ⟨g, older, hsegs, hmax, hlow⟩ := hs.current
      have hpos := hstep j
      rw [claim_add_self hs hr hpos] at hj
      split_ifs at hj with hlt
      cases hj
      refine ⟨by simp only; omega, g, by simp [hsegs], fun x hx => ?_⟩
      simp only [SequenceRange.ids, Set.mem_Icc] at hx
      exact ⟨by omega, by omega⟩
    · rw [claim_add_ne hji] at hj
      exact h j r hj
  · rw [claim_refill hs.excl hi] at hj
    obtain ⟨hr, g, hg, hsub⟩ := h j r hj
    exact ⟨hr, g, List.mem_cons_of_mem _ hg, hsub⟩

omit [DecidableEq ι] in
theorem inside_start (w : DefaultSequenceWorker) : Inside step (start w : WState ι) := by
  intro i r hi
  simp [claim, start, Pc.claim] at hi

theorem inside_reach (hstep : ∀ i, 1 ≤ step i) (h : (lts step).Reach s) : Inside step s := by
  induction h with
  | init h =>
    obtain ⟨name, dc, bits, reply, w, -, -, rfl⟩ := h
    exact inside_start w
  | step hr ha ih => exact inside_step hstep (shape_reach hstep hr) ih ha

/-! ## The claims partition what is consumed -/

/-- What has been consumed: the older segments, and the newest one up to `min value max`. -/
def consumed : List Segment → Int → Set Int
  | [], _ => ∅
  | g :: older, value =>
    Set.Ioc g.start (min value (g.start + g.len)) ∪ {x | ∃ g' ∈ older, x ∈ g'.ids}

/-- The segments are pairwise disjoint. -/
def Separate (segs : List Segment) : Prop :=
  segs.Pairwise fun g g' => Disjoint g.ids g'.ids

theorem Separate.tail {g : Segment} {older : List Segment} (h : Separate (g :: older)) :
    Separate older :=
  (List.pairwise_cons.1 h).2

theorem Separate.head {g g' : Segment} {older : List Segment} (h : Separate (g :: older))
    (hg' : g' ∈ older) : Disjoint g.ids g'.ids :=
  (List.pairwise_cons.1 h).1 g' hg'

/-- The claims partition what has been consumed. -/
def Cover (step : ι → Int) (s : WState ι) : Prop :=
  Exact (fun i => idsOf (s.claim step i)) (consumed s.segs s.worker.value)

omit [DecidableEq ι] in
theorem cover_start (w : DefaultSequenceWorker) : Cover step (start w : WState ι) := by
  refine (Exact.empty fun _ => rfl).congr (fun _ => rfl) ?_
  ext x
  simp [start, consumed, DefaultSequenceWorker.segment]

/-- The consumed part grows by exactly what the fetch-and-add takes. -/
theorem consumed_add {g : Segment} {older : List Segment} {v n : Int} (hlow : g.start ≤ v)
    (hn : 1 ≤ n) :
    consumed (g :: older) (v + n) =
      consumed (g :: older) v ∪ Set.Ioc v (min (v + n) (g.start + g.len)) := by
  ext x
  simp only [consumed, Set.mem_union, Set.mem_Ioc, Set.mem_ofPred_eq]
  constructor
  · rintro (⟨h1, h2⟩ | h)
    · by_cases hx : x ≤ v
      · exact .inl (.inl ⟨h1, by omega⟩)
      · exact .inr ⟨by omega, h2⟩
    · exact .inl (.inr h)
  · rintro ((⟨h1, h2⟩ | h) | ⟨h1, h2⟩)
    · exact .inl ⟨h1, by omega⟩
    · exact .inr h
    · exact .inl ⟨by omega, h2⟩

/-- What the fetch-and-add takes has not been consumed. -/
theorem fresh_add {g : Segment} {older : List Segment} {v n : Int}
    (hsep : Separate (g :: older)) (hlow : g.start ≤ v) :
    Disjoint (Set.Ioc v (min (v + n) (g.start + g.len))) (consumed (g :: older) v) := by
  rw [Set.disjoint_left]
  rintro x ⟨hx1, hx2⟩ (⟨-, hx⟩ | ⟨g', hg', hx⟩)
  · omega
  · exact Set.disjoint_left.1 (hsep.head hg') ⟨by omega, by omega⟩ hx

theorem cover_quiet (h : Cover step s) {i : ι} {p : Pc} (hp : Quiet step s i p) :
    Cover step (s.goto i p) :=
  Exact.congr h (fun j => by rw [claim_quiet hp]) rfl

theorem idsOf_add (v n max : Int) :
    idsOf (if v < max then some ⟨v + 1, min (v + n) max⟩ else none) =
      Set.Ioc v (min (v + n) max) := by
  split_ifs with h
  · ext x
    simp only [idsOf, SequenceRange.ids, Set.mem_Icc, Set.mem_Ioc]
    omega
  · ext x
    simp only [idsOf, Set.mem_empty_iff_false, Set.mem_Ioc, false_iff]
    omega

theorem cover_add (hs : Shape step s) (h : Cover step s) (hsep : Separate s.segs) {i : ι}
    {m : Mode} (hi : s.pc i = .add m) (hr : InInt64 (s.worker.value + step i))
    (hstep : 1 ≤ step i) :
    Cover step { s.goto i (.classify m (s.worker.addAndFetch (step i)).value) with
      worker := s.worker.addAndFetch (step i) } := by
  obtain ⟨g, older, hsegs, hmax, hlow⟩ := hs.current
  have hself := claim_add_self (m := m) hs hr hstep
  rw [hsegs] at hsep
  refine Exact.grant h (i := i) (T := Set.Ioc s.worker.value
    (min (s.worker.value + step i) (g.start + g.len))) ?_ ?_ ?_ ?_ ?_
  · simp [claim, hi, Pc.claim, idsOf]
  · rw [hsegs]
    exact fresh_add hsep hlow
  · rw [hself, idsOf_add, hmax]
  · intro j hj
    rw [claim_add_ne hj]
  · simp only [goto_segs, hsegs, addAndFetch_value hr]
    exact consumed_add hlow hstep

/-- A segment is replaced only when all of it has been consumed. -/
theorem cover_refill (hs : Shape step s) (h : Cover step s) {i : ι} {w : DefaultSequenceWorker}
    (hi : s.pc i = .refill) :
    Cover step { s.goto i (.test .write) with worker := w, segs := w.segment :: s.segs } := by
  obtain ⟨g, older, hsegs, hmax, hlow⟩ := hs.current
  have hexh : s.worker.max ≤ s.worker.value := hs.refill i hi
  refine Exact.congr h (fun j => ?_) ?_
  · rw [claim_refill hs.excl hi]
  · ext x
    simp only [consumed, hsegs, DefaultSequenceWorker.segment, Set.mem_union, Set.mem_Ioc,
      Set.mem_ofPred_eq, List.mem_cons, exists_eq_or_imp, Segment.ids]
    rw [min_eq_right (by omega : g.start + g.len ≤ s.worker.value)]
    constructor
    · rintro (⟨h1, h2⟩ | h)
      · omega
      · exact h
    · exact .inr

theorem cover_step (hstep : ∀ i, 1 ≤ step i) (hs : Shape step s) (h : Cover step s)
    (hsep : Separate s.segs) (ha : Step step s a s') : Cover step s' := by
  rcases ha.cases with ⟨i, p, hp, rfl⟩ | ⟨i, m, hi, hr, -, rfl⟩ | ⟨i, reply, w, hi, -, -, -, rfl⟩
  · exact cover_quiet h hp
  · exact cover_add hs h hsep hi hr (hstep i)
  · exact cover_refill hs h hi

/-- The segments before a step are among the segments after it. -/
theorem segs_step (ha : Step step s a s') : s'.segs = s.segs ∨ ∃ g, s'.segs = g :: s.segs := by
  rcases ha.cases with ⟨i, p, hp, rfl⟩ | ⟨i, m, hi, hr, -, rfl⟩ | ⟨i, reply, w, hi, -, -, -, rfl⟩
  · exact .inl rfl
  · exact .inl rfl
  · exact .inr ⟨_, rfl⟩

/-- Only a refill whose `nextRange` succeeds installs a segment. -/
theorem segs_of_call (ha : Step step s a s') (hcall : ∀ i reply, a ≠ .refill i reply) :
    s'.segs = s.segs := by
  cases ha with
  | @refill i reply => exact absurd rfl (hcall i reply)
  | _ => rfl

theorem segs_of_refill {i : ι} {reply : DbReply} (ha : Step step s (.refill i reply) s') :
    s'.segs = s.segs ∨ ∃ w, nextRange s.worker.name reply s.worker = .ok w ∧
      s'.segs = w.segment :: s.segs := by
  cases ha with
  | refill _ hw _ => exact .inr ⟨_, hw, rfl⟩
  | refillThrows => exact .inl rfl

theorem separate_of_step (ha : Step step s a s') (h : Separate s'.segs) : Separate s.segs := by
  rcases segs_step ha with hsegs | ⟨g, hsegs⟩
  · rwa [hsegs] at h
  · rw [hsegs] at h
    exact h.tail

theorem cover_reach (hstep : ∀ i, 1 ≤ step i) (h : (lts step).Reach s) (hsep : Separate s.segs) :
    Cover step s := by
  induction h with
  | init h =>
    obtain ⟨name, dc, bits, reply, w, -, -, rfl⟩ := h
    exact cover_start w
  | step hr ha ih =>
    have hsep' := separate_of_step ha hsep
    exact cover_step hstep (shape_reach hstep hr) (ih hsep') hsep' ha

/-! ## Exactly once -/

omit [DecidableEq ι] in
theorem claim_of_assigned {i : ι} {r : SequenceRange} (h : s.assigned i = some r) :
    s.claim step i = some r := by
  unfold assigned at h
  unfold claim
  split at h
  · rename_i hi
    rwa [hi]
  · rename_i hi
    rwa [hi]
  · cases h

omit [DecidableEq ι] in
/-- A claim inside a replaced segment is no longer pending. -/
theorem assigned_of_replaced (hs : Shape step s) (hsep : Separate s.segs) {i : ι}
    (hstep : 1 ≤ step i) {r : SequenceRange} (hi : s.claim step i = some r) {g : Segment}
    (hg : g ∈ s.segs.tail) {x : Int} (hx : x ∈ g.ids) (hxr : x ∈ r.ids) :
    s.assigned i = some r := by
  cases hpc : s.pc i with
  | done m res => simpa [claim, assigned, hpc, Pc.claim] using hi
  | returned r' => simpa [claim, assigned, hpc, Pc.claim] using hi
  | classify m cur =>
    exfalso
    obtain ⟨g₀, older, hsegs, hmax, -⟩ := hs.current
    obtain ⟨-, -, -, hlow⟩ := hs.pending i m cur hpc
    have hlow₀ := hlow g₀ (by simp [hsegs])
    rw [claim_pending hs hstep hpc] at hi
    split_ifs at hi with hlt
    cases hi
    rw [hsegs] at hsep hg
    simp only [SequenceRange.ids, Set.mem_Icc] at hxr
    exact Set.disjoint_left.1 (hsep.head hg) ⟨by omega, by omega⟩ hx
  | _ => simp [claim, hpc, Pc.claim] at hi

/-- Ranges assigned to different calls have no id in common. -/
theorem assigned_disjoint (hstep : ∀ i, 1 ≤ step i) (h : (lts step).Reach s)
    (hsep : Separate s.segs) {i j : ι} (hij : i ≠ j) {r r' : SequenceRange}
    (hi : s.assigned i = some r) (hj : s.assigned j = some r') : Disjoint r.ids r'.ids := by
  have hd := (cover_reach hstep h hsep).disjoint i j hij
  simpa only [claim_of_assigned hi, claim_of_assigned hj, idsOf] using hd

/-- **Exactly-once allocation.** -/
theorem exactly_once (hstep : ∀ i, 1 ≤ step i) (h : (lts step).Reach s)
    (hsep : Separate s.segs) :
    (∀ i r, s.assigned i = some r → r.min ≤ r.max ∧ ∃ g ∈ s.segs, r.ids ⊆ g.ids) ∧
    (∀ i j r r', i ≠ j → s.assigned i = some r → s.assigned j = some r' →
      Disjoint r.ids r'.ids) ∧
    (∀ g ∈ s.segs.tail, ∀ x ∈ g.ids, ∃! i, ∃ r, s.assigned i = some r ∧ x ∈ r.ids) := by
  have hs := shape_reach hstep h
  have hc := cover_reach hstep h hsep
  refine ⟨fun i r hi => inside_reach hstep h i r (claim_of_assigned hi), ?_, ?_⟩
  · intro i j r r' hij hi hj
    exact assigned_disjoint hstep h hsep hij hi hj
  · intro g hg x hx
    have hmem : x ∈ consumed s.segs s.worker.value := by
      cases hsegs : s.segs with
      | nil => simp [hsegs] at hg
      | cons g₀ older =>
        rw [hsegs] at hg
        exact .inr ⟨g, hg, hx⟩
    obtain ⟨i, hi, huniq⟩ := hc.existsUnique hmem
    cases hcl : s.claim step i with
    | none => simp [hcl, idsOf] at hi
    | some r =>
      simp only [hcl, idsOf] at hi
      refine ⟨i, ⟨r, assigned_of_replaced hs hsep (hstep i) hcl hg hx hi, hi⟩, ?_⟩
      rintro j ⟨r', hj, hxj⟩
      exact huniq j (by simpa only [claim_of_assigned hj, idsOf] using hxj)

/-- A worker on the segment `(5, 7]`, and two calls on it with steps 3 and 2. -/
def sampleWorker : DefaultSequenceWorker :=
  { name := "SEQ", seqBits := 0, datacenterIdMask32 := 0, datacenterIdMask64 := 0,
    value := 5, max := 7, step := 2 }

def sampleSteps : Fin 2 → Int
  | 0 => 3
  | 1 => 2

theorem sampleSteps_pos : ∀ i, 1 ≤ sampleSteps i := by decide

theorem sampleWorker_reach (step : Fin 2 → Int) : (lts step).Reach (start sampleWorker) :=
  .init ⟨"SEQ", 1, 0, .row ['5', ',', '2'], sampleWorker, by decide, by decide, rfl⟩

/-- Both calls pass the test and add; call 0 gets the truncated tail, call 1 overshoots, refills
and retries. -/
def sampleRun : List (Act (Fin 2)) :=
  [.call 0, .call 1, .lock 0, .lock 1, .test 0, .test 1, .add 0, .add 1, .classify 1,
    .classify 0, .unlock 1, .unlock 0, .lock 1, .check 1, .refill 1 (.row ['7', ',', '9']),
    .test 1, .add 1, .classify 1, .unlock 1]

theorem sampleRun_result :
    (sampleRun.foldlM (exec sampleSteps) (start sampleWorker)).map
        (fun s => (s.segs, s.pc 0, s.pc 1)) =
      some ([⟨7, 9⟩, ⟨5, 2⟩], .returned ⟨6, 7⟩, .returned ⟨8, 9⟩) := by
  decide +kernel

theorem exactly_once_sample :
    ∃ s : WState (Fin 2), s.pc 0 = .returned ⟨6, 7⟩ ∧ s.pc 1 = .returned ⟨8, 9⟩ ∧
      ∀ x ∈ Set.Ioc (5 : Int) 7, ∃! i, ∃ r, s.assigned i = some r ∧ x ∈ r.ids := by
  obtain ⟨s, hrun, hs⟩ := Option.map_eq_some_iff.1 sampleRun_result
  simp only [Prod.mk.injEq] at hs
  obtain ⟨hsegs, h0, h1⟩ := hs
  have hreach := (sampleWorker_reach sampleSteps).exec (fun _ _ _ => exec_sound) hrun
  have hsep : Separate s.segs := by
    rw [hsegs]
    simp [Separate, Segment.ids, Set.Ioc_disjoint_Ioc]
  refine ⟨s, h0, h1, fun x hx => ?_⟩
  exact (exactly_once sampleSteps_pos hreach hsep).2.2 ⟨5, 2⟩ (by simp [hsegs]) x hx

/-! ## Real-time order -/

/-- Each segment starts at or above the end of every older one. -/
def Increasing (segs : List Segment) : Prop :=
  segs.Pairwise fun g g' => g'.start + g'.len ≤ g.start

/-- The worker has moved past `x`: neither the rest of its segment nor a later one has it. -/
def Passed (s : WState ι) (x : Int) : Prop :=
  x ≤ s.worker.value ∧ ∃ g ∈ s.segs, x ≤ g.start + g.len

theorem increasing_of_step (ha : Step step s a s') (h : Increasing s'.segs) :
    Increasing s.segs := by
  rcases segs_step ha with hsegs | ⟨g, hsegs⟩
  · rwa [hsegs] at h
  · rw [hsegs] at h
    exact (List.pairwise_cons.1 h).2

theorem increasing_of_run (h : (lts step).Run s s') (hinc : Increasing s'.segs) :
    Increasing s.segs := by
  induction h with
  | refl => exact hinc
  | step _ ha ih => exact ih (increasing_of_step ha hinc)

theorem passed_step (hstep : ∀ i, 1 ≤ step i) {x : Int} (h : Passed s x)
    (ha : Step step s a s') (hinc : Increasing s'.segs) : Passed s' x := by
  obtain ⟨hx, g, hg, hxg⟩ := h
  rcases ha.cases with ⟨i, p, hp, rfl⟩ | ⟨i, m, hi, hr, -, rfl⟩ | ⟨i, reply, w, hi, -, -, -, rfl⟩
  · exact ⟨hx, g, hg, hxg⟩
  · have hpos := hstep i
    refine ⟨?_, g, hg, hxg⟩
    simp only [addAndFetch_value hr]
    omega
  · -- the new segment starts above the end of the one that bounds `x`
    have hend : g.start + g.len ≤ w.value := (List.pairwise_cons.1 hinc).1 g hg
    exact ⟨le_trans hxg hend, g, List.mem_cons_of_mem _ hg, hxg⟩

/-- A claim that appears in a step starts above everything passed before it. -/
theorem claim_step (hstep : ∀ i, 1 ≤ step i) (hs : Shape step s) (ha : Step step s a s') {i : ι}
    {r : SequenceRange} (hi : s'.claim step i = some r) :
    s.claim step i = some r ∨
      (∀ x, Passed s x → x < r.min) ∧ (Increasing s'.segs → Passed s' r.max) := by
  rcases ha.cases with ⟨j, p, hp, rfl⟩ | ⟨j, m, hj, hr, -, rfl⟩ | ⟨j, reply, w, hj, -, -, -, rfl⟩
  · rw [claim_quiet hp] at hi
    exact .inl hi
  · by_cases hij : i = j
    · subst hij
      obtain ⟨g, older, hsegs, hmax, -⟩ := hs.current
      rw [claim_add_self hs hr (hstep i)] at hi
      split_ifs at hi with hlt
      cases hi
      refine .inr ⟨fun x hx => ?_, fun _ => ⟨?_, g, by simp [hsegs], ?_⟩⟩
      · have := hx.1
        simp only
        omega
      · simp only [addAndFetch_value hr]
        exact min_le_left _ _
      · simp only
        omega
    · rw [claim_add_ne hij] at hi
      exact .inl hi
  · rw [claim_refill hs.excl hj] at hi
    exact .inl hi

theorem claims_passed (hstep : ∀ i, 1 ≤ step i) (h : (lts step).Reach s)
    (hinc : Increasing s.segs) {i : ι} {r : SequenceRange} (hi : s.claim step i = some r) :
    Passed s r.max := by
  induction h with
  | init h =>
    obtain ⟨name, dc, bits, reply, w, -, -, rfl⟩ := h
    simp [claim, start, Pc.claim] at hi
  | step hr ha ih =>
    have hinc' := increasing_of_step ha hinc
    rcases claim_step hstep (shape_reach hstep hr) ha hi with hold | ⟨-, hnew⟩
    · exact passed_step hstep (ih hinc' hold) ha hinc
    · exact hnew hinc

/-- A call that has not started when the worker has passed `x` gets ids above `x`. -/
theorem claim_above (hstep : ∀ i, 1 ≤ step i) (hreach : (lts step).Reach s) {x : Int}
    (hx : Passed s x) {i : ι} (hi : s.pc i = .idle) (hrun : (lts step).Run s s')
    (hinc : Increasing s'.segs) :
    Passed s' x ∧ ∀ r, s'.claim step i = some r → x < r.min := by
  induction hrun with
  | refl => exact ⟨hx, fun r hr => by simp [claim, hi, Pc.claim] at hr⟩
  | step hrun ha ih =>
    obtain ⟨hpass, habove⟩ := ih (increasing_of_step ha hinc)
    refine ⟨passed_step hstep hpass ha hinc, fun r hr => ?_⟩
    rcases claim_step hstep (shape_reach hstep (hreach.run hrun)) ha hr with hold | ⟨hnew, -⟩
    · exact habove r hold
    · exact hnew x hpass

theorem seqBits_step (ha : Step step s a s') : s'.worker.seqBits = s.worker.seqBits := by
  rcases ha.cases with ⟨i, p, hp, rfl⟩ | ⟨i, m, hi, hr, -, rfl⟩ | ⟨i, reply, w, hi, hw, -, -, rfl⟩
  · rfl
  · rfl
  · obtain ⟨-, -, -, hbits, -⟩ := nextRange_fields hw
    exact hbits

theorem seqBits_run (h : (lts step).Run s s') : s'.worker.seqBits = s.worker.seqBits := by
  induction h with
  | refl => rfl
  | step _ ha ih => rw [seqBits_step ha, ih]

/-- **Real-time order.** Call `A` has returned when call `B` has not started; `B` gets larger
ids. -/
theorem real_time_order (hstep : ∀ i, 1 ≤ step i) (hreach : (lts step).Reach s)
    (hrun : (lts step).Run s s') (hinc : Increasing s'.segs) (hbits : s.worker.seqBits = 0)
    {A B : ι} {rA rB : SequenceRange} (hA : s.pc A = .returned rA) (hB : s.pc B = .idle)
    (hB' : s'.pc B = .returned rB) :
    (s.worker.tagRange rA).max < (s'.worker.tagRange rB).min := by
  have hbits' : s'.worker.seqBits = 0 := (seqBits_run hrun).trans hbits
  rw [tagRange_of_increment hbits, tagRange_of_increment hbits']
  have hclaimA : s.claim step A = some rA := by simp [claim, hA, Pc.claim]
  have hclaimB : s'.claim step B = some rB := by simp [claim, hB', Pc.claim]
  have hpass := claims_passed hstep hreach (increasing_of_run hrun hinc) hclaimA
  exact (claim_above hstep hreach hpass hB hrun hinc).2 rB hclaimB

/-- Call 0 takes the tail of `(5, 7]` and returns; call 1 starts, refills and returns. -/
def firstCall : List (Act (Fin 2)) :=
  [.call 0, .lock 0, .test 0, .add 0, .classify 0, .unlock 0]

def secondCall : List (Act (Fin 2)) :=
  [.call 1, .lock 1, .test 1, .unlock 1, .lock 1, .check 1, .refill 1 (.row ['7', ',', '9']),
    .test 1, .add 1, .classify 1, .unlock 1]

theorem real_time_order_sample :
    ∃ s s' : WState (Fin 2), (lts sampleSteps).Run s s' ∧ s.pc 0 = .returned ⟨6, 7⟩ ∧
      s.pc 1 = .idle ∧ s'.pc 1 = .returned ⟨8, 9⟩ ∧
      (s.worker.tagRange ⟨6, 7⟩).max < (s'.worker.tagRange ⟨8, 9⟩).min := by
  have hruns : ((firstCall.foldlM (exec sampleSteps) (start sampleWorker)).bind fun s =>
      (secondCall.foldlM (exec sampleSteps) s).map fun s' =>
        (s.worker.seqBits, s.pc 0, s.pc 1, s'.segs, s'.pc 1)) =
      some (0, .returned ⟨6, 7⟩, .idle, [⟨7, 9⟩, ⟨5, 2⟩], .returned ⟨8, 9⟩) := by
    decide +kernel
  obtain ⟨s, hs, hrest⟩ := Option.bind_eq_some_iff.1 hruns
  obtain ⟨s', hs', hfields⟩ := Option.map_eq_some_iff.1 hrest
  simp only [Prod.mk.injEq] at hfields
  obtain ⟨hbits, h0, h1, hsegs, h1'⟩ := hfields
  have hreach := (sampleWorker_reach sampleSteps).exec (fun _ _ _ => exec_sound) hs
  have hrun : (lts sampleSteps).Run s s' := LTS.Run.refl.exec (fun _ _ _ => exec_sound) hs'
  have hinc : Increasing s'.segs := by simp [hsegs, Increasing]
  exact ⟨s, s', hrun, h0, h1, h1',
    real_time_order sampleSteps_pos hreach hrun hinc hbits h0 h1 h1'⟩

end WState

end DevTools.Sequence
