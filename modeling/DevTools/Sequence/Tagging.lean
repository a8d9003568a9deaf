import DevTools.Sequence.ExactlyOnce
import Mathlib.Tactic.Positivity
import Mathlib.Tactic.Linarith

/-!
# Datacenter tags

For `seqBits` 32 and 64 a worker ors its datacenter id over the raw counters it returns, at bit
26 or 51; `SeqTools` takes an id apart again at the same bit. Counters come from a 64-bit column
of the database, and nothing between the column and the tag compares them with 26 or 51 bits.

**Theorem (`lossless_iff`).** When callers ask for one number or more, tagging loses nothing
exactly if every segment that the database hands out and that has counters to give lies between 0
and the tag's bit. A caller with a negative step breaks it on every such segment.

The condition is enough because every raw range of a run lies inside one installed segment. It
is needed because one call with a step as long as the segment gets the whole of it, and because
calls with a negative step take the counter below 0.
-/

namespace DevTools.Sequence

/-! ## Encoder and decoder -/

/-- The algorithms that tag. -/
inductive Width
  | bits32
  | bits64
  deriving DecidableEq, Repr

namespace Width

/-- The `seqBits` a worker of the algorithm is constructed with. -/
def seqBits : Width → Int
  | bits32 => 32
  | bits64 => 64

def datacenterIdBits : Width → Nat
  | bits32 => datacenterIdBits32
  | bits64 => datacenterIdBits64

/-- The bits that are left for the counter. -/
def sequenceBits : Width → Nat
  | bits32 => sequenceBits32
  | bits64 => sequenceBits64

/-- The `INCREMENT32` and `INCREMENT64` cases of `SeqTools`: `datacenterId` and `sequence`. The
shift rounds down, and `&` with `k` low ones is the remainder by `2 ^ k`. -/
def decode (k : Width) (sequence : Int) : Int × Int :=
  (sequence / 2 ^ k.sequenceBits % 2 ^ k.datacenterIdBits, sequence % 2 ^ k.sequenceBits)

theorem bits_le (k : Width) : k.sequenceBits + k.datacenterIdBits ≤ 61 := by
  cases k <;> decide

end Width

/-- What the datacenter id has passed when a constructor succeeds. -/
theorem construct_datacenterId {name : String} {dc bits : Int} {reply : DbReply}
    {w : DefaultSequenceWorker} (h : construct name dc bits reply = .ok w) :
    toU32 (layout bits dc).2.2.2 ≤ (layout bits dc).2.2.1 ∧ 0 ≤ (layout bits dc).2.2.2 := by
  unfold construct at h
  split at h
  rename_i m32 m64 mx dc' hl
  split at h
  · cases h
  · rw [hl]
    simp only
    omega

theorem layout_bits32 (dc : Int) :
    layout 32 dc = (toU32 (dc * 2 ^ sequenceBits32), 0, 2 ^ datacenterIdBits32 - 1, dc) := rfl

theorem layout_bits64 (dc : Int) :
    layout 64 dc =
      (0, toU64 (toU64 dc * 2 ^ sequenceBits64), 2 ^ datacenterIdBits64 - 1, dc) := rfl

/-- A constructor that accepts a datacenter id has put it above the counter's bits. -/
theorem construct_tag {k : Width} {name : String} {dc : Int} {reply : DbReply}
    {w : DefaultSequenceWorker} (hint : InInt32 dc)
    (h : construct name dc k.seqBits reply = .ok w) :
    ∃ n : Nat, dc = n ∧ n < 2 ^ k.datacenterIdBits ∧
      ∀ x, w.tag x = wrap64 (n * 2 ^ k.sequenceBits ||| toU64 x : Nat) := by
  unfold InInt32 at hint
  obtain ⟨-, -, -, hbits, h32, h64⟩ := construct_fields h
  have hdc := construct_datacenterId h
  have hs32 : sequenceBits32 = 26 := rfl
  have hs64 : sequenceBits64 = 51 := rfl
  cases k with
  | bits32 =>
    simp only [Width.seqBits, layout_bits32, datacenterIdBits32] at hbits hdc h32
    have hu := toU32_of_range hdc.2 (by omega)
    have hlt : dc.toNat < 2 ^ Width.bits32.datacenterIdBits := by
      simp only [Width.datacenterIdBits, datacenterIdBits32]
      omega
    refine ⟨dc.toNat, by omega, hlt, ?_⟩
    intro x
    have hmask : toU32 (dc * 2 ^ sequenceBits32) = dc.toNat * 2 ^ sequenceBits32 := by
      rw [hs32]
      unfold toU32
      omega
    unfold DefaultSequenceWorker.tag
    rw [if_pos hbits, h32, hmask]
    rfl
  | bits64 =>
    simp only [Width.seqBits, layout_bits64, datacenterIdBits64] at hbits hdc h64
    have hu := toU32_of_range hdc.2 (by omega)
    have hlt : dc.toNat < 2 ^ Width.bits64.datacenterIdBits := by
      simp only [Width.datacenterIdBits, datacenterIdBits64]
      omega
    refine ⟨dc.toNat, by omega, hlt, ?_⟩
    intro x
    have hmask : toU64 (toU64 dc * 2 ^ sequenceBits64) = dc.toNat * 2 ^ sequenceBits64 := by
      obtain ⟨n, rfl⟩ := Int.eq_ofNat_of_zero_le hdc.2
      rw [toU64_natCast (by omega), hs64]
      exact toU64_natCast (n := n * 2 ^ 51) (by omega)
    unfold DefaultSequenceWorker.tag
    rw [if_neg (by rw [hbits]; decide), if_pos hbits, h64, hmask]
    rfl

/-- Over a counter that fits its bits, the tag is added. -/
theorem tag_eq {k : Width} {n : Nat} {x : Int} (hn : n < 2 ^ k.datacenterIdBits) (h0 : 0 ≤ x)
    (hx : x < 2 ^ k.sequenceBits) :
    wrap64 (n * 2 ^ k.sequenceBits ||| toU64 x : Nat) = n * 2 ^ k.sequenceBits + x := by
  obtain ⟨m, rfl⟩ := Int.eq_ofNat_of_zero_le h0
  have hm : m < 2 ^ k.sequenceBits := by exact_mod_cast hx
  have hlt : n * 2 ^ k.sequenceBits + m < 2 ^ 61 :=
    calc n * 2 ^ k.sequenceBits + m < n * 2 ^ k.sequenceBits + 2 ^ k.sequenceBits := by omega
      _ = (n + 1) * 2 ^ k.sequenceBits := by ring
      _ ≤ 2 ^ k.datacenterIdBits * 2 ^ k.sequenceBits := Nat.mul_le_mul_right _ hn
      _ = 2 ^ (k.sequenceBits + k.datacenterIdBits) := by rw [pow_add, Nat.mul_comm]
      _ ≤ 2 ^ 61 := Nat.pow_le_pow_right (by omega) k.bits_le
  rw [toU64_natCast (by omega), mul_two_pow_or hm, wrap64_of_inInt64]
  · push_cast
    rfl
  · unfold InInt64
    omega

/-- Reading back a tag and a counter that both fit. -/
theorem decode_add {k : Width} {n : Nat} {x : Int} (hn : n < 2 ^ k.datacenterIdBits) (h0 : 0 ≤ x)
    (hx : x < 2 ^ k.sequenceBits) : k.decode (n * 2 ^ k.sequenceBits + x) = (↑n, x) := by
  have hpow : (0 : Int) < 2 ^ k.sequenceBits := by positivity
  have hn' : (n : Int) < 2 ^ k.datacenterIdBits := by exact_mod_cast hn
  unfold Width.decode
  rw [add_comm, Int.add_mul_ediv_right _ _ hpow.ne', Int.ediv_eq_zero_of_lt h0 hx, zero_add,
    Int.emod_eq_of_lt (Int.natCast_nonneg n) hn', Int.add_mul_emod_self_right,
    Int.emod_eq_of_lt h0 hx]

/-- A decoded counter never leaves its bits. -/
theorem decode_range (k : Width) (y : Int) :
    0 ≤ (k.decode y).2 ∧ (k.decode y).2 < 2 ^ k.sequenceBits :=
  ⟨Int.emod_nonneg _ (by positivity), Int.emod_lt_of_pos _ (by positivity)⟩

/-! ## What a worker can return -/

/-- A segment that some reply makes `nextRange` install. -/
def Segment.Accepted (g : Segment) : Prop :=
  ∃ name reply out w, nextRange name reply out = .ok w ∧ w.segment = g

/-- An accepted segment that has counters to give: it is not empty, and its end is an
`int64_t`. -/
def Segment.Usable (g : Segment) : Prop :=
  g.Accepted ∧ 0 < g.len ∧ g.start + g.len < 2 ^ 63

/-- The steps of callers that ask for numbers. `getAndIncrement` itself takes any `int`. -/
def positiveSteps : Set Int := {n | 1 ≤ n}

/-- A worker with datacenter id `dc` whose segments come from `G` can be brought, by calls with
steps from `S`, to a state `w` in which the raw range `r` is assigned to some call, which returns
`w.tagRange r`. -/
def Produced (k : Width) (G : Set Segment) (S : Set Int) (dc : Int) (w : DefaultSequenceWorker)
    (r : SequenceRange) : Prop :=
  InInt32 dc ∧ ∃ (name : String) (reply : DbReply) (w₀ : DefaultSequenceWorker),
    construct name dc k.seqBits reply = .ok w₀ ∧ InInt64 (w₀.value + w₀.step) ∧
    ∃ (ι : Type) (_ : DecidableEq ι) (step : ι → Int) (s : WState ι) (i : ι),
      (∀ i, step i ∈ S) ∧ (WState.lts step).Run (WState.start w₀) s ∧ (∀ g ∈ s.segs, g ∈ G) ∧
      s.assigned i = some r ∧ s.worker = w

theorem Produced.mono {k : Width} {G G' : Set Segment} {S : Set Int} {dc : Int}
    {w : DefaultSequenceWorker} {r : SequenceRange} (hG : G ⊆ G') (h : Produced k G S dc w r) :
    Produced k G' S dc w r := by
  obtain ⟨hint, name, reply, w₀, hw, hend, ι, _, step, s, i, hstep, hrun, hsegs, hi⟩ := h
  exact ⟨hint, name, reply, w₀, hw, hend, ι, _, step, s, i, hstep, hrun,
    fun g hg => hG (hsegs g hg), hi⟩

/-- The returned bounds decode to the datacenter id and the raw bounds; ids of different
datacenters differ; and within a datacenter the tag keeps raw counters apart and in order. -/
structure Lossless (k : Width) (G : Set Segment) (S : Set Int) : Prop where
  decodes : ∀ dc w r, Produced k G S dc w r →
    k.decode (w.tagRange r).min = (dc, r.min) ∧ k.decode (w.tagRange r).max = (dc, r.max)
  datacenters : ∀ dc dc' w w' r r', Produced k G S dc w r → Produced k G S dc' w' r' → dc ≠ dc' →
    Disjoint (w.tagRange r).ids (w'.tagRange r').ids ∧
      ∀ x ∈ r.ids, ∀ x' ∈ r'.ids, w.tag x ≠ w'.tag x'
  ordered : ∀ dc w w' r r', Produced k G S dc w r → Produced k G S dc w' r' →
    ∀ x ∈ r.ids, ∀ x' ∈ r'.ids, x < x' → w.tag x < w'.tag x'

namespace WState

variable {ι : Type} [DecidableEq ι] {step : ι → Int} {s s' : WState ι} {a : Act ι}

theorem tag_step (ha : Step step s a s') : s'.worker.tag = s.worker.tag := by
  rcases ha.cases with ⟨i, p, hp, rfl⟩ | ⟨i, m, hi, hr, -, rfl⟩ | ⟨i, reply, w, hi, hw, -, -, rfl⟩
  · rfl
  · rfl
  · obtain ⟨-, -, -, hbits, h32, h64⟩ := nextRange_fields hw
    funext x
    show w.tag x = s.worker.tag x
    unfold DefaultSequenceWorker.tag
    rw [hbits, h32, h64]

theorem tag_run (h : (lts step).Run s s') : s'.worker.tag = s.worker.tag := by
  induction h with
  | refl => rfl
  | step _ ha ih => rw [tag_step ha, ih]

/-- The segments of a run were accepted, and end inside `int64_t`. -/
theorem accepted_run {w : DefaultSequenceWorker} (hw : w.segment.Accepted)
    (hend : InInt64 (w.value + w.step)) (h : (lts step).Run (start w) s) :
    ∀ g ∈ s.segs, g.Accepted ∧ g.start + g.len < 2 ^ 63 := by
  refine LTS.Run.invariant (I := fun s => ∀ g ∈ s.segs, g.Accepted ∧ g.start + g.len < 2 ^ 63)
    ?_ ?_ h
  · intro g hg
    obtain rfl : g = w.segment := by simpa [start] using hg
    exact ⟨hw, hend.2⟩
  · intro t b u _ hi hb
    obtain ⟨i, p, hp, rfl⟩ | ⟨i, m, hm, hr, -, rfl⟩ | ⟨i, reply, w', hi', hw', hr, -, rfl⟩ :=
      hb.cases
    · exact hi
    · exact hi
    · intro g hg
      rcases List.mem_cons.mp hg with rfl | hg
      · exact ⟨⟨_, _, _, _, hw', rfl⟩, hr.2⟩
      · exact hi g hg

end WState

/-- When the usable segments fit the counter's bits, so does every raw counter, and the tag is
added to it. -/
theorem produced_tag {k : Width} {G : Set Segment} {dc : Int} {w : DefaultSequenceWorker}
    {r : SequenceRange}
    (hG : ∀ g ∈ G, g.Usable → 0 ≤ g.start ∧ g.start + g.len < 2 ^ k.sequenceBits)
    (h : Produced k G positiveSteps dc w r) :
    ∃ n : Nat, dc = n ∧ n < 2 ^ k.datacenterIdBits ∧ r.min ≤ r.max ∧
      ∀ x ∈ r.ids, 0 ≤ x ∧ x < 2 ^ k.sequenceBits ∧ w.tag x = n * 2 ^ k.sequenceBits + x := by
  obtain ⟨hint, name, reply, w₀, hw, hend, ι, _, step, s, i, hstep, hrun, hsegs, hi, rfl⟩ := h
  obtain ⟨n, hn, hlt, htag⟩ := construct_tag hint hw
  have hreach : (WState.lts step).Reach s :=
    (LTS.Reach.init (T := WState.lts step) ⟨name, dc, _, reply, w₀, hw, hend, rfl⟩).run hrun
  -- the range is a non-empty part of one segment, which is therefore usable
  obtain ⟨hne, g, hg, hsub⟩ :=
    WState.inside_reach hstep hreach i r (WState.claim_of_assigned hi)
  obtain ⟨out, hout⟩ := construct_nextRange hw
  obtain ⟨hacc, hgend⟩ := WState.accepted_run ⟨_, _, _, _, hout, rfl⟩ hend hrun g hg
  refine ⟨n, hn, hlt, hne, fun x hx => ?_⟩
  have hxg : g.start < x ∧ x ≤ g.start + g.len := hsub hx
  obtain ⟨h0, hfit⟩ := hG g (hsegs g hg) ⟨hacc, by omega, hgend⟩
  refine ⟨by omega, by omega, ?_⟩
  rw [WState.tag_run hrun]
  show w₀.tag x = _
  rw [htag, tag_eq hlt (by omega) (by omega)]

theorem min_mem {r : SequenceRange} (h : r.min ≤ r.max) : r.min ∈ r.ids := ⟨le_rfl, h⟩

theorem max_mem {r : SequenceRange} (h : r.min ≤ r.max) : r.max ∈ r.ids := ⟨h, le_rfl⟩

/-- The datacenter of every id between two tagged counters. -/
theorem datacenter_of_mem {k : Width} {n : Nat} {x y z : Int} (hy : 0 ≤ y)
    (hz : z < 2 ^ k.sequenceBits) (hlow : n * 2 ^ k.sequenceBits + y ≤ x)
    (hhigh : x ≤ n * 2 ^ k.sequenceBits + z) : x / 2 ^ k.sequenceBits = n := by
  have hpow : (0 : Int) < 2 ^ k.sequenceBits := by positivity
  rw [Int.ediv_eq_iff_of_pos hpow]
  constructor
  · linarith
  · linarith

theorem lossless_of_fits {k : Width} {G : Set Segment}
    (hG : ∀ g ∈ G, g.Usable → 0 ≤ g.start ∧ g.start + g.len < 2 ^ k.sequenceBits) :
    Lossless k G positiveSteps where
  decodes := by
    intro dc w r h
    obtain ⟨n, rfl, hlt, hne, hr⟩ := produced_tag hG h
    obtain ⟨hmin0, hmin, htmin⟩ := hr _ (min_mem hne)
    obtain ⟨hmax0, hmax, htmax⟩ := hr _ (max_mem hne)
    unfold DefaultSequenceWorker.tagRange
    rw [htmin, htmax]
    exact ⟨decode_add hlt hmin0 hmin, decode_add hlt hmax0 hmax⟩
  datacenters := by
    intro dc dc' w w' r r' h h' hdc
    obtain ⟨n, rfl, hlt, hne, hr⟩ := produced_tag hG h
    obtain ⟨n', rfl, hlt', hne', hr'⟩ := produced_tag hG h'
    constructor
    · rw [Set.disjoint_left]
      intro y hy hy'
      obtain ⟨hmin0, hmin, htmin⟩ := hr _ (min_mem hne)
      obtain ⟨hmax0, hmax, htmax⟩ := hr _ (max_mem hne)
      obtain ⟨hmin0', hmin', htmin'⟩ := hr' _ (min_mem hne')
      obtain ⟨hmax0', hmax', htmax'⟩ := hr' _ (max_mem hne')
      have hd := datacenter_of_mem hmin0 hmax (htmin.symm.trans_le hy.1)
        (hy.2.trans_eq htmax)
      have hd' := datacenter_of_mem hmin0' hmax' (htmin'.symm.trans_le hy'.1)
        (hy'.2.trans_eq htmax')
      exact hdc (hd.symm.trans hd')
    · intro x hx x' hx' heq
      obtain ⟨h0, hfit, htag⟩ := hr x hx
      obtain ⟨h0', hfit', htag'⟩ := hr' x' hx'
      have hd := datacenter_of_mem h0 hfit htag.ge htag.le
      have hd' := datacenter_of_mem h0' hfit' htag'.ge htag'.le
      rw [← heq, hd] at hd'
      exact hdc hd'
  ordered := by
    intro dc w w' r r' h h' x hx x' hx' hlt
    obtain ⟨n, rfl, -, -, hr⟩ := produced_tag hG h
    obtain ⟨n', hn', -, -, hr'⟩ := produced_tag hG h'
    rw [(hr x hx).2.2, (hr' x' hx').2.2, ← hn']
    omega

/-! ## The whole of a segment in one call -/

/-- `nextRange` installs what the reply says, into whatever worker it is called on. -/
theorem nextRange_out {name : String} {reply : DbReply} {out w : DefaultSequenceWorker}
    (h : nextRange name reply out = .ok w) (out' : DefaultSequenceWorker) :
    nextRange name reply out' =
      .ok { out' with value := w.value, max := w.max, step := w.step } := by
  unfold nextRange at h ⊢
  split at h
  · cases h
  · rename_i hname
    rw [if_neg hname]
    have hinst {v n : Int} (hi : install name v n out = .ok w) :
        install name v n out' =
          .ok { out' with value := w.value, max := w.max, step := w.step } := by
      obtain ⟨h1, h0, htop, rfl⟩ := install_eq_ok hi
      unfold install
      rw [if_neg h1, if_neg h0, if_pos htop]
    split at h
    · cases h
    · cases h
    · exact hinst h
    · split at h
      · cases h
      · exact hinst h

namespace WState

section

variable {ι : Type} [DecidableEq ι]

theorem goto_goto (s : WState ι) (i : ι) (p q : Pc) : (s.goto i p).goto i q = s.goto i q := by
  simp [goto]

/-- A call that finds counters left and nobody else inside: it goes through the fast path and is
given what `addAndIncrement` makes of its fetch-and-add. -/
theorem fast_call (step : ι → Int) {s : WState ι} {i : ι} {r : SequenceRange}
    (hi : s.pc i = .idle) (hfree : ∀ j, s.hold j = .free)
    (hlt : s.worker.value < s.worker.max) (hr : InInt64 (s.worker.value + step i))
    (hcls : Sequence.classify (s.worker.value + step i) (step i) s.worker.max = some r) :
    ∃ s', (lts step).Run s s' ∧ s'.segs = s.segs ∧
      s'.worker = { s.worker with value := s.worker.value + step i } ∧
      (∀ j, s'.hold j = .free) ∧ (∀ j, j ≠ i → s'.pc j = s.pc j) ∧ s'.assigned i = some r := by
  have hex : ¬ s.worker.exhausted := by
    unfold DefaultSequenceWorker.exhausted
    omega
  have hadd : s.worker.addAndFetch (step i) =
      { s.worker with value := s.worker.value + step i } := by
    unfold DefaultSequenceWorker.addAndFetch
    rw [wrap64_of_inInt64 hr]
  -- the calls that are not this one hold no lock
  have hgrant : Grantable (s.goto i (.wait .read)).hold .read := by
    intro j
    by_cases hj : j = i
    · simp [hold, hj, Pc.hold]
    · rw [hold_goto_ne s _ hj, hfree j]
      decide
  have hcall : Step step s (.call i) (s.goto i (.wait .read)) := .call hi
  have hlock : Step step (s.goto i (.wait .read)) (.lock i) (s.goto i (.test .read)) := by
    have h : Step step _ (.lock i) _ := .lock (goto_pc_self s i (.wait .read)) hgrant
    rwa [goto_goto] at h
  have htest : Step step (s.goto i (.test .read)) (.test i) (s.goto i (.add .read)) := by
    have h : Step step _ (.test i) _ := .test (goto_pc_self s i (.test .read))
    rwa [goto_goto, goto_worker, if_neg hex] at h
  let t : WState ι := { s with worker := { s.worker with value := s.worker.value + step i } }
  have haddStep : Step step (s.goto i (.add .read)) (.add i)
      (t.goto i (.classify .read (s.worker.value + step i))) := by
    have h : Step step _ (.add i) _ := .add (goto_pc_self s i (.add .read)) hr
    rwa [goto_goto, goto_worker, hadd] at h
  have hclassify : Step step (t.goto i (.classify .read (s.worker.value + step i))) (.classify i)
      (t.goto i (.done .read (some r))) := by
    have h : Step step _ (.classify i) _ :=
      .classify (goto_pc_self t i (.classify .read (s.worker.value + step i)))
    rwa [goto_goto, goto_worker, hcls] at h
  have hunlock : Step step (t.goto i (.done .read (some r))) (.unlock i)
      (t.goto i (.returned r)) := by
    have h : Step step _ (.unlock i) _ := .unlock (goto_pc_self t i (.done .read (some r)))
    rwa [goto_goto] at h
  have hrun : (lts step).Run s (t.goto i (.returned r)) :=
    (((((LTS.Run.refl.step hcall).step hlock).step htest).step haddStep).step hclassify).step
      hunlock
  refine ⟨_, hrun, rfl, rfl, ?_, ?_, ?_⟩
  · intro j
    by_cases hj : j = i
    · simp [hold, hj, Pc.hold]
    · rw [hold_goto_ne t _ hj]
      exact hfree j
  · intro j hj
    exact goto_pc_ne t _ hj
  · simp [assigned]

end

/-- The only call there is. -/
def whole (g : Segment) : Unit → Int := fun _ => g.len

theorem whole_run {w : DefaultSequenceWorker} (hmax : w.max = w.value + w.step)
    (hv : InInt64 w.value) (hend : InInt64 (w.value + w.step)) (hlen : 0 < w.step) :
    ∃ s, (lts (whole w.segment)).Run (start w) s ∧ s.segs = [w.segment] ∧
      s.assigned () = some ⟨w.value + 1, w.value + w.step⟩ := by
  have hlt : w.value < w.max := by omega
  have hcls : classify (w.value + w.step) w.step w.max =
      some ⟨w.value + 1, w.value + w.step⟩ := by
    rw [classify_of_noOverflow hv hend (by omega), if_pos hlt, hmax, min_self]
  obtain ⟨s, hrun, hsegs, -, -, -, hi⟩ :=
    @fast_call _ _ (whole w.segment) (start w) () _ rfl (fun _ => rfl) hlt hend hcls
  exact ⟨s, hrun, hsegs, hi⟩

end WState

/-- With datacenter id 0, construction is the first refill. -/
theorem construct_zero (k : Width) (name : String) (reply : DbReply) :
    ∃ out, construct name 0 k.seqBits reply = nextRange name reply out := by
  cases k with
  | bits32 => exact ⟨_, rfl⟩
  | bits64 => exact ⟨_, rfl⟩

/-- Some call gets the whole of a usable segment. -/
theorem produced_whole (k : Width) {g : Segment} (h : g.Usable) :
    ∃ w, Produced k {g} positiveSteps 0 w ⟨g.start + 1, g.start + g.len⟩ := by
  obtain ⟨⟨name, reply, out, w, hw, rfl⟩, hlen, hend⟩ := h
  obtain ⟨hmax, hv, -⟩ := nextRange_fields hw
  obtain ⟨out', hout'⟩ := construct_zero k name reply
  rw [nextRange_out hw out'] at hout'
  simp only [DefaultSequenceWorker.segment] at hlen hend
  have hrange : InInt64 (w.value + w.step) := by
    unfold InInt64 at hv ⊢
    omega
  rw [wrap64_of_inInt64 hrange] at hmax
  obtain ⟨s, hrun, hsegs, hi⟩ :=
    WState.whole_run (w := { out' with value := w.value, max := w.max, step := w.step }) hmax hv
      hrange hlen
  refine ⟨s.worker, by decide, name, reply, _, hout', hrange, Unit, inferInstance, _, s, (), ?_,
    hrun, ?_, hi, rfl⟩
  · intro _
    exact hlen
  · intro g hg
    rw [hsegs, List.mem_singleton] at hg
    exact hg

/-- The condition is needed: the call that gets the whole of a segment shows both its ends. -/
theorem Lossless.fits {k : Width} {G : Set Segment} (h : Lossless k G positiveSteps)
    {g : Segment} (hg : g ∈ G) (hus : g.Usable) :
    0 ≤ g.start ∧ g.start + g.len < 2 ^ k.sequenceBits := by
  obtain ⟨w, hprod⟩ := produced_whole k hus
  obtain ⟨hmin, hmax⟩ := h.decodes 0 w _ (hprod.mono (Set.singleton_subset_iff.mpr hg))
  have hlow := (decode_range k (w.tagRange ⟨g.start + 1, g.start + g.len⟩).min).1
  have hhigh := (decode_range k (w.tagRange ⟨g.start + 1, g.start + g.len⟩).max).2
  rw [hmin] at hlow
  rw [hmax] at hhigh
  -- `nextRange` refuses -1, so a first counter that is not negative has a start that is not
  obtain ⟨⟨_, _, _, _, hacc, hseg⟩, -⟩ := hus
  obtain ⟨-, v, n, -, -, hne, -, -, rfl⟩ := nextRange_eq_ok hacc
  have hstart : v = g.start := congrArg Segment.start hseg
  exact ⟨by simp only at hlow; omega, hhigh⟩

/-! ## Negative steps -/

namespace WState

variable {ι : Type} [DecidableEq ι]

/-- A call with a negative step, alone on the fast path: it gets a range that ends where the counter
goes. -/
theorem backward_call (step : ι → Int) {s : WState ι} {i : ι} (hneg : step i < 0)
    (hi : s.pc i = .idle) (hfree : ∀ j, s.hold j = .free)
    (hlt : s.worker.value < s.worker.max) (hr : InInt64 (s.worker.value + step i)) :
    ∃ s' x, (lts step).Run s s' ∧ s'.segs = s.segs ∧
      s'.worker = { s.worker with value := s.worker.value + step i } ∧
      (∀ j, s'.hold j = .free) ∧ (∀ j, j ≠ i → s'.pc j = s.pc j) ∧
      s'.assigned i = some ⟨x, s.worker.value + step i⟩ := by
  obtain ⟨x, hcls⟩ : ∃ x, Sequence.classify (s.worker.value + step i) (step i) s.worker.max =
      some ⟨x, s.worker.value + step i⟩ := by
    unfold Sequence.classify
    rw [if_neg (by omega)]
    exact ⟨_, rfl⟩
  obtain ⟨s', hcall⟩ := fast_call step hi hfree hlt hr hcls
  exact ⟨s', x, hcall⟩

/-- Calls 0, 1, 2, .. with a negative step, one after the other, until the counter is below 0. -/
theorem backward_run {w : DefaultSequenceWorker} {n : Int} (hneg : n < 0) (hlt : w.value < w.max)
    (hr : InInt64 w.value) :
    ∀ k : Nat, 0 ≤ w.value + k * n →
      ∃ s, (lts fun _ : ℕ => n).Run (start w) s ∧ s.segs = [w.segment] ∧
        s.worker = { w with value := w.value + k * n } ∧ (∀ j, s.hold j = .free) ∧
        ∀ j, k ≤ j → s.pc j = .idle := by
  intro k
  induction k with
  | zero =>
    intro _
    exact ⟨start w, .refl, rfl, by simp [start], fun _ => rfl, fun _ _ => rfl⟩
  | succ k ih =>
    intro h0
    push_cast at h0
    obtain ⟨s, hrun, hsegs, hw, hfree, hidle⟩ := ih (by linarith)
    unfold InInt64 at hr
    have hk : 0 ≤ -(k * n : Int) := by nlinarith
    obtain ⟨s', x, hrun', hsegs', hw', hfree', hpc, -⟩ :=
      backward_call (fun _ : ℕ => n) hneg (hidle k le_rfl) hfree (by rw [hw]; simp only; omega)
        (by rw [hw]; unfold InInt64; simp only; constructor <;> linarith)
    refine ⟨s', hrun.trans hrun', hsegs'.trans hsegs, ?_, hfree', ?_⟩
    · rw [hw', hw]
      simp only [DefaultSequenceWorker.mk.injEq, true_and, and_true]
      push_cast
      ring
    · intro j hj
      rw [hpc j (by omega)]
      exact hidle j (by omega)

end WState

/-- Some run of calls with a negative step returns a range that ends below 0. -/
theorem produced_backward (k : Width) {g : Segment} (h : g.Usable) (h0 : 0 ≤ g.start) {n : Int}
    (hneg : n < 0) (hint : InInt32 n) {S : Set Int} (hn : n ∈ S) :
    ∃ w r, Produced k {g} S 0 w r ∧ r.max < 0 := by
  obtain ⟨⟨name, reply, out, w, hw, rfl⟩, hlen, hend⟩ := h
  obtain ⟨hmax, hv, -⟩ := nextRange_fields hw
  obtain ⟨out', hout'⟩ := construct_zero k name reply
  rw [nextRange_out hw out'] at hout'
  simp only [DefaultSequenceWorker.segment] at hlen hend h0
  have hrange : InInt64 (w.value + w.step) := by
    unfold InInt64 at hv ⊢
    omega
  rw [wrap64_of_inInt64 hrange] at hmax
  -- the number of calls that leave the counter at 0 or above
  obtain ⟨m, hle, hm0, hm⟩ : ∃ m : Nat, (m * n : Int) ≤ 0 ∧ 0 ≤ w.value + m * n ∧
      w.value + m * n + n < 0 := by
    obtain ⟨m, hm⟩ := Int.eq_ofNat_of_zero_le (Int.ediv_nonneg h0 (neg_nonneg.mpr hneg.le))
    have hdiv := Int.mul_ediv_add_emod w.value (-n)
    have hnonneg := Int.emod_nonneg w.value (neg_ne_zero.mpr hneg.ne)
    have hlt := Int.emod_lt_of_pos w.value (neg_pos.mpr hneg)
    rw [hm] at hdiv
    have hmul : -n * (m : Int) = -(m * n) := by ring
    rw [hmul] at hdiv
    exact ⟨m, mul_nonpos_of_nonneg_of_nonpos (Int.natCast_nonneg m) hneg.le, by omega, by omega⟩
  obtain ⟨s, hrun, hsegs, hws, hfree, hidle⟩ :=
    WState.backward_run (w := { out' with value := w.value, max := w.max, step := w.step }) hneg
      (by simp only; omega) hv m hm0
  unfold InInt32 at hint
  obtain ⟨s', x, hrun', hsegs', -, -, -, hi⟩ :=
    WState.backward_call (fun _ : ℕ => n) hneg (hidle m le_rfl) hfree
      (by rw [hws]; simp only; omega) (by rw [hws]; unfold InInt64; simp only; omega)
  refine ⟨s'.worker, _, ⟨by decide, name, reply, _, hout', hrange, ℕ, inferInstance, _, s', m, ?_,
    hrun.trans hrun', ?_, hi, rfl⟩, ?_⟩
  · intro _
    exact hn
  · intro g hg
    rw [hsegs', hsegs, List.mem_singleton] at hg
    exact hg
  · rw [hws]
    exact hm

/-- **Exactly when tagging is lossless.** -/
theorem lossless_iff (k : Width) (G : Set Segment) :
    (Lossless k G positiveSteps ↔
      ∀ g ∈ G, g.Usable → 0 ≤ g.start ∧ g.start + g.len < 2 ^ k.sequenceBits) ∧
    ∀ S, (∃ n ∈ S, n < 0 ∧ InInt32 n) → (∃ g ∈ G, g.Usable ∧ 0 ≤ g.start) → ¬ Lossless k G S := by
  refine ⟨⟨fun h g hg hus => h.fits hg hus, lossless_of_fits⟩, ?_⟩
  rintro S ⟨n, hn, hneg, hint⟩ ⟨g, hg, hus, h0⟩ h
  obtain ⟨w, r, hprod, hr⟩ := produced_backward k hus h0 hneg hint hn
  obtain ⟨-, hmax⟩ := h.decodes 0 w r (hprod.mono (Set.singleton_subset_iff.mpr hg))
  have hlow := (decode_range k (w.tagRange r).max).1
  rw [hmax] at hlow
  exact absurd hlow (not_le.mpr hr)

/-- The reply `67108864,1` of a counter that has reached bit 26. -/
def overflowing : Segment := ⟨67108864, 1⟩

theorem not_lossless_overflowing : ¬ Lossless .bits32 {overflowing} positiveSteps := by
  intro h
  have hus : overflowing.Usable := by
    refine ⟨⟨"SEQ", .row "67108864,1".toList, ⟨"SEQ", 32, 0, 0, 0, 0, 0⟩, _, rfl, ?_⟩, by decide,
      by decide⟩
    decide
  have hfit := h.fits rfl hus
  exact absurd hfit.2 (by decide)

end DevTools.Sequence
