import DevTools.Sequence.SeqNextval
import DevTools.Sequence.ExactlyOnce

/-!
# Workers of many processes on one row

Service processes each have a `DefaultSequenceWorker` (`seqBits` 0) for the same row. A worker
that needs a segment, in its constructor or in a write-locked refill, starts an execution of
`seq_nextval_v2`; the statements of all executions interleave with each other and with the
calls on all workers. A client may give up at any point, before or after its `UPDATE` has
committed; the execution then goes on without it and its reply is never read.

**Theorem (`global_uniqueness`).** The returned segments are pairwise disjoint, the row's value
never decreases, and no two calls on any two workers are given a common id.

The worker's part is `Shape`, `Inside` and `Cover`, the row's part is `Db.Inv`. What ties them
together is `Sys.Inv.origin`: every segment of a worker is the reply of an execution that this
worker, and no other, has read.
-/

namespace DevTools.Sequence

/-- The worker of one process. -/
inductive Node (ι : Type)
  | absent
  /-- in the constructor's `nextRange` -/
  | constructing
  | live (w : WState ι)

/-- The row, its executions, and the processes. -/
structure Sys (κ γ ι : Type) where
  db : Db γ
  node : κ → Node ι
  /-- the execution whose reply a process waits for -/
  await : κ → Option γ
  /-- ghost: the process that read the reply of an execution -/
  source : γ → Option κ

inductive SysAct (κ γ ι : Type)
  | statement (a : DbAct γ)
  | create (k : κ)
  | query (k : κ) (c : γ)
  | reply (k : κ) (c : γ)
  | giveUp (k : κ)
  | call (k : κ) (a : Act ι)

/-- The row's name, and per process its datacenter id and the steps of its calls. -/
structure SysCfg (κ ι : Type) where
  name : String
  datacenterId : κ → Int
  step : κ → ι → Int

namespace Sys

variable {κ γ ι : Type} [DecidableEq κ] [DecidableEq γ] [DecidableEq ι]

/-- The process is inside `nextRange`. -/
def Refilling (s : Sys κ γ ι) (k : κ) : Prop :=
  s.node k = .constructing ∨ ∃ w i, s.node k = .live w ∧ w.pc i = .refill

def setNode (s : Sys κ γ ι) (k : κ) (n : Node ι) : Sys κ γ ι :=
  { s with node := Function.update s.node k n }

/-- Process `k` no longer waits. -/
def unawait (s : Sys κ γ ι) (k : κ) : Sys κ γ ι :=
  { s with await := Function.update s.await k none }

/-- Process `k` has read the reply of execution `c`. -/
def read (s : Sys κ γ ι) (k : κ) (c : γ) : Sys κ γ ι :=
  { s.unawait k with source := Function.update s.source c (some k) }

inductive Step (cfg : SysCfg κ ι) : Sys κ γ ι → SysAct κ γ ι → Sys κ γ ι → Prop
  /-- A statement of a running execution, or a change of the row's step. -/
  | statement {s : Sys κ γ ι} {a : DbAct γ} {d : Db γ} : (∀ c, a ≠ .start c) →
      s.db.next a = some d → Step cfg s (.statement a) { s with db := d }
  | create {s : Sys κ γ ι} {k : κ} : s.node k = .absent →
      Step cfg s (.create k) (s.setNode k .constructing)
  | query {s : Sys κ γ ι} {k : κ} {c : γ} {d : Db γ} : s.Refilling k → s.await k = none →
      s.db.next (.start c) = some d →
      Step cfg s (.query k c) { s with db := d, await := Function.update s.await k (some c) }
  | constructed {s : Sys κ γ ι} {k : κ} {c : γ} {res : Option (Int × Int)}
      {w : DefaultSequenceWorker} : s.node k = .constructing → s.await k = some c →
      s.db.sql c = .finished res →
      construct cfg.name (cfg.datacenterId k) 0 (.row (retval res)) = .ok w →
      Step cfg s (.reply k c) ((s.read k c).setNode k (.live (WState.start w)))
  /-- The constructor throws, for whatever reason. -/
  | constructThrows {s : Sys κ γ ι} {k : κ} : s.node k = .constructing →
      Step cfg s (.giveUp k) ((s.unawait k).setNode k .absent)
  | refilled {s : Sys κ γ ι} {k : κ} {c : γ} {res : Option (Int × Int)} {w w' : WState ι}
      {i : ι} : s.node k = .live w → s.await k = some c → s.db.sql c = .finished res →
      WState.Step (cfg.step k) w (.refill i (.row (retval res))) w' →
      Step cfg s (.reply k c) ((s.read k c).setNode k (.live w'))
  /-- `nextRange` throws without having read a reply. -/
  | refillThrows {s : Sys κ γ ι} {k : κ} {w w' : WState ι} {i : ι} {reply : DbReply} :
      s.node k = .live w → (∀ text, reply ≠ .row text) →
      WState.Step (cfg.step k) w (.refill i reply) w' →
      Step cfg s (.giveUp k) ((s.unawait k).setNode k (.live w'))
  /-- Any other action of a call. -/
  | call {s : Sys κ γ ι} {k : κ} {w w' : WState ι} {a : Act ι} : s.node k = .live w →
      (∀ i reply, a ≠ .refill i reply) → WState.Step (cfg.step k) w a w' →
      Step cfg s (.call k a) (s.setNode k (.live w'))

def lts (cfg : SysCfg κ ι) : LTS (Sys κ γ ι) (SysAct κ γ ι) where
  init s := 0 < s.db.row.step ∧ s.db.row.step < 2 ^ 31 ∧ InInt64 s.db.row.value ∧
    (∀ c, s.db.sql c = .unused) ∧ (∀ k, s.node k = .absent) ∧ (∀ k, s.await k = none) ∧
    ∀ c, s.source c = none
  step := Step cfg

/-! ## The invariant -/

/-- What the worker of a process satisfies. -/
structure Live (cfg : SysCfg κ ι) (k : κ) (w : WState ι) : Prop where
  shape : WState.Shape (cfg.step k) w
  inside : WState.Inside (cfg.step k) w
  cover : WState.Cover (cfg.step k) w
  separate : WState.Separate w.segs
  bits : w.worker.seqBits = 0

structure Inv (cfg : SysCfg κ ι) (s : Sys κ γ ι) : Prop where
  db : s.db.Inv
  live : ∀ k w, s.node k = .live w → Live cfg k w
  origin : ∀ k w, s.node k = .live w → ∀ g ∈ w.segs, ∃ c, s.source c = some k ∧
    s.db.segment c = some g
  /-- An awaited execution runs for one process, which has not read its reply. -/
  awaited : ∀ k c, s.await k = some c → s.db.sql c ≠ .unused ∧ s.source c = none
  single : ∀ k k' c, s.await k = some c → s.await k' = some c → k = k'
  /-- A reply has been read only of an execution that has finished. -/
  finished : ∀ c k, s.source c = some k → ∃ res, s.db.sql c = .finished res

variable {cfg : SysCfg κ ι} {s s' : Sys κ γ ι} {a : SysAct κ γ ι}

theorem inv_init (h : (lts cfg).init s) : Inv cfg s := by
  obtain ⟨hpos, hint, hrange, hsql, hnode, hawait, hsource⟩ := h
  refine ⟨⟨hpos, hint, hrange, ?_, ?_, ?_⟩, ?_, ?_, ?_, ?_, ?_⟩
  · intro c i val inc hc
    rw [hsql] at hc
    cases hc
  · intro c val inc hc
    rw [hsql] at hc
    cases hc
  · intro c c' val inc val' inc' _ hc
    rw [hsql] at hc
    cases hc
  · intro k w hk
    rw [hnode] at hk
    cases hk
  · intro k w hk
    rw [hnode] at hk
    cases hk
  · intro k c hk
    rw [hawait] at hk
    cases hk
  · intro k k' c hk
    rw [hawait] at hk
    cases hk
  · intro c k hc
    rw [hsource] at hc
    cases hc

omit [DecidableEq κ] [DecidableEq ι] in
/-- A statement that starts no execution. -/
theorem inv_statement (h : Inv cfg s) {b : DbAct γ} {d : Db γ} (hd : s.db.next b = some d) :
    Inv cfg { s with db := d } where
  db := Db.inv_next h.db hd
  live := h.live
  origin k w hk g hg := by
    obtain ⟨c, hc, hseg⟩ := h.origin k w hk g hg
    rw [Db.segment_eq_some] at hseg
    exact ⟨c, hc, Db.segment_eq_some.2 ((Db.sql_next hd c).1 _ hseg)⟩
  awaited k c hk := ⟨(Db.sql_next hd c).2 (h.awaited k c hk).1, (h.awaited k c hk).2⟩
  single := h.single
  finished c k hc := by
    obtain ⟨res, hres⟩ := h.finished c k hc
    exact ⟨res, (Db.sql_next hd c).1 res hres⟩

omit [DecidableEq ι] in
/-- Process `k` starts execution `c`: nobody has waited for it or read it. -/
theorem inv_query (h : Inv cfg s) {k : κ} {c : γ} {d : Db γ} (hd : s.db.next (.start c) = some d) :
    Inv cfg { s with db := d, await := Function.update s.await k (some c) } := by
  have hdb := inv_statement h hd
  have hunused : s.db.sql c = .unused ∧ d.sql c = .select 0 := by
    simp only [Db.next] at hd
    split at hd
    · cases hd
      exact ⟨‹_›, Db.goto_sql_self _ _ _⟩
    · cases hd
  have hother : ∀ k', s.await k' ≠ some c := by
    intro k' hk'
    exact (h.awaited k' c hk').1 hunused.1
  have hsource : s.source c = none := by
    cases hc : s.source c with
    | none => rfl
    | some k' =>
      obtain ⟨res, hres⟩ := h.finished c k' hc
      rw [hunused.1] at hres
      cases hres
  refine { hdb with awaited := ?_, single := ?_ }
  · intro k' c' hk'
    by_cases hkk : k' = k
    · subst hkk
      simp only [Function.update_self, Option.some.injEq] at hk'
      subst hk'
      exact ⟨by simp [hunused.2], hsource⟩
    · simp only [Function.update_of_ne hkk] at hk'
      exact hdb.awaited k' c' hk'
  · intro k₁ k₂ c' h₁ h₂
    by_cases hk₁ : k₁ = k
    · by_cases hk₂ : k₂ = k
      · rw [hk₁, hk₂]
      · simp only [hk₁, Function.update_self, Option.some.injEq] at h₁
        simp only [Function.update_of_ne hk₂] at h₂
        exact absurd (h₁ ▸ h₂) (hother k₂)
    · simp only [Function.update_of_ne hk₁] at h₁
      by_cases hk₂ : k₂ = k
      · simp only [hk₂, Function.update_self, Option.some.injEq] at h₂
        exact absurd (h₂ ▸ h₁) (hother k₁)
      · simp only [Function.update_of_ne hk₂] at h₂
        exact h.single k₁ k₂ c' h₁ h₂

omit [DecidableEq γ] [DecidableEq ι] in
theorem await_of_unawait {k k' : κ} {c : γ} (h : (s.unawait k).await k' = some c) :
    k' ≠ k ∧ s.await k' = some c := by
  by_cases hk : k' = k
  · subst hk
    simp [unawait] at h
  · exact ⟨hk, by simpa [unawait, hk] using h⟩

omit [DecidableEq γ] [DecidableEq ι] in
theorem inv_unawait (h : Inv cfg s) (k : κ) : Inv cfg (s.unawait k) where
  db := h.db
  live := h.live
  origin := h.origin
  awaited k' c hk' := h.awaited k' c (await_of_unawait hk').2
  single k₁ k₂ c h₁ h₂ := h.single k₁ k₂ c (await_of_unawait h₁).2 (await_of_unawait h₂).2
  finished := h.finished

omit [DecidableEq ι] in
/-- Reading a reply leaves the segments of all workers where they came from. -/
theorem inv_read (h : Inv cfg s) {k : κ} {c : γ} (hk : s.await k = some c)
    {res : Option (Int × Int)} (hres : s.db.sql c = .finished res) : Inv cfg (s.read k c) := by
  have hfresh : s.source c = none := (h.awaited k c hk).2
  refine { inv_unawait h k with origin := ?_, awaited := ?_, finished := ?_ }
  · intro k' w hk' g hg
    obtain ⟨c', hc', hseg⟩ := h.origin k' w hk' g hg
    have hne : c' ≠ c := by
      rintro rfl
      rw [hfresh] at hc'
      cases hc'
    exact ⟨c', by simpa [read, Function.update_of_ne hne] using hc', hseg⟩
  · intro k' c' hk'
    obtain ⟨hne, hold⟩ := await_of_unawait hk'
    have hcc : c' ≠ c := by
      rintro rfl
      exact hne (h.single k' k c' hold hk)
    refine ⟨(h.awaited k' c' hold).1, ?_⟩
    simpa [read, Function.update_of_ne hcc] using (h.awaited k' c' hold).2
  · intro c' k' hc'
    by_cases hcc : c' = c
    · subst hcc
      exact ⟨res, hres⟩
    · exact h.finished c' k' (by simpa [read, Function.update_of_ne hcc] using hc')

omit [DecidableEq γ] [DecidableEq ι] in
/-- The process has no worker, or one whose segments come from replies it has read. -/
theorem inv_setNode (h : Inv cfg s) {k : κ} {n : Node ι}
    (hlive : ∀ w, n = .live w → Live cfg k w)
    (horigin : ∀ w, n = .live w → ∀ g ∈ w.segs, ∃ c, s.source c = some k ∧
      s.db.segment c = some g) : Inv cfg (s.setNode k n) := by
  refine { h with live := ?_, origin := ?_ }
  · intro k' w hk'
    by_cases hkk : k' = k
    · subst hkk
      exact hlive w (by simpa [setNode] using hk')
    · exact h.live k' w (by simpa [setNode, Function.update_of_ne hkk] using hk')
  · intro k' w hk'
    by_cases hkk : k' = k
    · subst hkk
      exact horigin w (by simpa [setNode] using hk')
    · exact h.origin k' w (by simpa [setNode, Function.update_of_ne hkk] using hk')

omit [DecidableEq κ] in
/-- A worker's step keeps `Live`, given the segments stay apart. -/
theorem live_step {k : κ} (hstep : ∀ i, 1 ≤ cfg.step k i) {w w' : WState ι} {b : Act ι}
    (h : Live cfg k w) (ha : WState.Step (cfg.step k) w b w') (hsep : WState.Separate w'.segs) :
    Live cfg k w' where
  shape := WState.shape_step hstep h.shape ha
  inside := WState.inside_step hstep h.shape h.inside ha
  cover := WState.cover_step hstep h.shape h.cover h.separate ha
  separate := hsep
  bits := (WState.seqBits_step ha).trans h.bits

omit [DecidableEq γ] in
/-- A step of a worker that installs nothing. -/
theorem inv_worker (hstep : ∀ k i, 1 ≤ cfg.step k i) (h : Inv cfg s) {k : κ} {w w' : WState ι}
    {b : Act ι} (hk : s.node k = .live w) (ha : WState.Step (cfg.step k) w b w')
    (hsegs : w'.segs = w.segs) : Inv cfg (s.setNode k (.live w')) := by
  have hlive := h.live k w hk
  refine inv_setNode h ?_ ?_
  · intro w₁ hw₁
    cases hw₁
    exact live_step (hstep k) hlive ha (hsegs ▸ hlive.separate)
  · intro w₁ hw₁
    cases hw₁
    rw [hsegs]
    exact h.origin k w hk

omit [DecidableEq κ] [DecidableEq γ] [DecidableEq ι] in
/-- The segment a process installs from the reply of `c`. -/
theorem segment_of_reply (h : Inv cfg s) {c : γ} {res : Option (Int × Int)}
    (hres : s.db.sql c = .finished res) {name : String} {out w : DefaultSequenceWorker}
    (hw : nextRange name (.row (retval res)) out = .ok w) :
    s.db.segment c = some w.segment := by
  have hread : ∀ val inc, res = some (val, inc) → Db.Read val inc := by
    intro val inc hr
    subst hr
    exact (h.db.returned c val inc hres).1
  rw [Db.segment_eq_some, hres, Db.nextRange_retval hread hw]

omit [DecidableEq ι] in
theorem inv_constructed (h : Inv cfg s) {k : κ} {c : γ} {res : Option (Int × Int)}
    {w : DefaultSequenceWorker} (hk : s.await k = some c) (hres : s.db.sql c = .finished res)
    (hw : construct cfg.name (cfg.datacenterId k) 0 (.row (retval res)) = .ok w) :
    Inv cfg ((s.read k c).setNode k (.live (WState.start w))) := by
  obtain ⟨out, hout⟩ := construct_nextRange hw
  have hseg := segment_of_reply h hres hout
  obtain ⟨hmax, hv, -, hbits, -⟩ := construct_fields hw
  have hrange : InInt64 (w.value + w.step) := by
    rw [Db.segment_eq_some] at hseg
    exact (h.db.returned c _ _ hseg).1.high
  refine inv_setNode (inv_read h hk hres) ?_ ?_
  · intro w₁ hw₁
    cases hw₁
    exact ⟨WState.shape_start hmax hrange hv, WState.inside_start w, WState.cover_start w,
      by simp [WState.start, WState.Separate], hbits⟩
  · intro w₁ hw₁ g hg
    cases hw₁
    simp only [WState.start, List.mem_singleton] at hg
    subst hg
    exact ⟨c, by simp [read], hseg⟩

/-- The new segment comes from an execution nobody has read, so it is apart from the worker's
other segments. -/
theorem inv_refilled (hstep : ∀ k i, 1 ≤ cfg.step k i) (h : Inv cfg s) {k : κ} {c : γ}
    {res : Option (Int × Int)} {w w' : WState ι} {i : ι} (hk : s.node k = .live w)
    (hc : s.await k = some c) (hres : s.db.sql c = .finished res)
    (ha : WState.Step (cfg.step k) w (.refill i (.row (retval res))) w') :
    Inv cfg ((s.read k c).setNode k (.live w')) := by
  have hread := inv_read h hc hres
  rcases WState.segs_of_refill ha with hsegs | ⟨w₀, hw₀, hsegs⟩
  · exact inv_worker hstep hread hk ha hsegs
  · have hlive := h.live k w hk
    have hseg := segment_of_reply h hres hw₀
    have hfresh : s.source c = none := (h.awaited k c hc).2
    refine inv_setNode hread ?_ ?_
    · intro w₁ hw₁
      cases hw₁
      refine live_step (hstep k) hlive ha ?_
      rw [hsegs]
      refine List.pairwise_cons.2 ⟨fun g hg => ?_, hlive.separate⟩
      obtain ⟨c', hc', hseg'⟩ := h.origin k w hk g hg
      have hne : c ≠ c' := by
        rintro rfl
        rw [hfresh] at hc'
        cases hc'
      exact Db.segments_disjoint h.db hne hseg hseg'
    · intro w₁ hw₁ g hg
      cases hw₁
      rw [hsegs] at hg
      rcases List.mem_cons.1 hg with rfl | hg
      · exact ⟨c, by simp [read], hseg⟩
      · exact hread.origin k w hk g hg

theorem inv_step (hstep : ∀ k i, 1 ≤ cfg.step k i) (h : Inv cfg s) (ha : Step cfg s a s') :
    Inv cfg s' := by
  cases ha with
  | statement _ hd => exact inv_statement h hd
  | create => exact inv_setNode h nofun nofun
  | query _ _ hd => exact inv_query h hd
  | constructed _ hc hres hw => exact inv_constructed h hc hres hw
  | constructThrows => exact inv_setNode (inv_unawait h _) nofun nofun
  | refilled hk hc hres ha => exact inv_refilled hstep h hk hc hres ha
  | @refillThrows k w w' i reply hk hreply ha =>
    refine inv_worker hstep (inv_unawait h k) hk ha ?_
    rcases WState.segs_of_refill ha with hsegs | ⟨w₀, hw₀, -⟩
    · exact hsegs
    · obtain ⟨text, htext⟩ := nextRange_row hw₀
      exact absurd htext (hreply text)
  | call hk hcall ha => exact inv_worker hstep h hk ha (WState.segs_of_call ha hcall)

theorem inv_reach (hstep : ∀ k i, 1 ≤ cfg.step k i) (h : (lts cfg).Reach s) : Inv cfg s :=
  h.invariant (fun _ => inv_init) fun _ _ _ => inv_step hstep

/-! ## Global uniqueness -/

theorem value_step (h : Inv cfg s) (ha : Step cfg s a s') : s.db.row.value ≤ s'.db.row.value := by
  cases ha with
  | statement _ hd => exact Db.value_mono h.db hd
  | query _ _ hd => exact Db.value_mono h.db hd
  | _ => exact le_refl _

theorem value_run (hstep : ∀ k i, 1 ≤ cfg.step k i) (hreach : (lts cfg).Reach s)
    (h : (lts cfg).Run s s') : s.db.row.value ≤ s'.db.row.value := by
  induction h with
  | refl => exact le_refl _
  | step hr ha ih => exact ih.trans (value_step (inv_reach hstep (hreach.run hr)) ha)

/-- The range that call `i` on the worker of process `k` was given, as the caller sees it. -/
def given (s : Sys κ γ ι) (k : κ) (i : ι) : Option SequenceRange :=
  match s.node k with
  | .live w => (w.assigned i).map w.worker.tagRange
  | _ => none

omit [DecidableEq κ] [DecidableEq γ] [DecidableEq ι] in
theorem given_eq_some (h : Inv cfg s) {k : κ} {i : ι} {r : SequenceRange}
    (hr : s.given k i = some r) :
    ∃ w, s.node k = .live w ∧ Live cfg k w ∧ w.claim (cfg.step k) i = some r := by
  unfold given at hr
  split at hr
  · rename_i w hk
    have hlive := h.live k w hk
    obtain ⟨r₀, hr₀, rfl⟩ := Option.map_eq_some_iff.1 hr
    rw [tagRange_of_increment hlive.bits]
    exact ⟨w, hk, hlive, WState.claim_of_assigned hr₀⟩
  · cases hr

/-- **Global uniqueness.** -/
theorem global_uniqueness (hstep : ∀ k i, 1 ≤ cfg.step k i) (h : (lts cfg).Reach s) :
    (∀ c c' g g', c ≠ c' → s.db.segment c = some g → s.db.segment c' = some g' →
      Disjoint g.ids g'.ids) ∧
    (∀ s', (lts cfg).Run s s' → s.db.row.value ≤ s'.db.row.value) ∧
    (∀ k k' i i' r r', (k, i) ≠ (k', i') → s.given k i = some r → s.given k' i' = some r' →
      Disjoint r.ids r'.ids) := by
  have hinv := inv_reach hstep h
  refine ⟨fun c c' g g' => Db.segments_disjoint hinv.db, fun s' => value_run hstep h, ?_⟩
  intro k k' i i' r r' hne hr hr'
  obtain ⟨w, hk, hlive, hclaim⟩ := given_eq_some hinv hr
  obtain ⟨w', hk', hlive', hclaim'⟩ := given_eq_some hinv hr'
  by_cases hkk : k = k'
  · -- one worker: its claims are disjoint
    subst hkk
    have hw : w = w' := by
      rw [hk] at hk'
      exact Node.live.inj hk'
    subst hw
    have hii : i ≠ i' := fun hi => hne (by rw [hi])
    have hd := hlive.cover.disjoint i i' hii
    simpa only [hclaim, hclaim', idsOf] using hd
  · -- two workers: their segments come from different executions
    obtain ⟨-, g, hg, hsub⟩ := hlive.inside i r hclaim
    obtain ⟨-, g', hg', hsub'⟩ := hlive'.inside i' r' hclaim'
    obtain ⟨c, hc, hseg⟩ := hinv.origin k w hk g hg
    obtain ⟨c', hc', hseg'⟩ := hinv.origin k' w' hk' g' hg'
    have hcc : c ≠ c' := by
      rintro rfl
      rw [hc] at hc'
      exact hkk (Option.some.inj hc')
    exact (Db.segments_disjoint hinv.db hcc hseg hseg').mono hsub hsub'

/-- Two processes on a row at 5 with step 2. -/
def sampleCfg : SysCfg (Fin 2) (Fin 1) := ⟨"SEQ", fun _ => 1, fun _ _ => 1⟩

def sampleSys : Sys (Fin 2) (Fin 2) (Fin 1) :=
  ⟨⟨⟨5, 2⟩, fun _ => .unused⟩, fun _ => .absent, fun _ => none, fun _ => none⟩

/-- Both executions read the row before either writes; the second `UPDATE` misses and its
execution tries again. Each process then has its own segment. -/
theorem global_uniqueness_sample :
    ∃ s : Sys (Fin 2) (Fin 2) (Fin 1), (lts sampleCfg).Reach s ∧
      s.db.segment 0 = some ⟨5, 2⟩ ∧ s.db.segment 1 = some ⟨7, 2⟩ ∧
      Disjoint (Segment.ids ⟨5, 2⟩) (Segment.ids ⟨7, 2⟩) := by
  have h0 : (lts sampleCfg).Reach sampleSys :=
    .init ⟨by decide, by decide, by decide, fun _ => rfl, fun _ => rfl, fun _ => rfl, fun _ => rfl⟩
  have h1 := (h0.step (Step.create (k := 0) rfl)).step (Step.create (k := 1) rfl)
  have h2 := (h1.step (Step.query (k := 0) (c := 0) (.inl rfl) rfl rfl)).step
    (Step.query (k := 1) (c := 1) (.inl rfl) rfl rfl)
  have h3 := (h2.step (.statement (a := .select 0) nofun rfl)).step
    (.statement (a := .select 1) nofun rfl)
  have h4 := (h3.step (.statement (a := .update 0) nofun rfl)).step
    (.statement (a := .update 1) nofun rfl)
  have h5 := (h4.step (.statement (a := .select 1) nofun rfl)).step
    (.statement (a := .update 1) nofun rfl)
  have h6 := h5.step (.constructed (k := 0) (c := 0) (w := ⟨"SEQ", 0, 0, 0, 5, 7, 2⟩)
    rfl rfl rfl (by decide))
  refine ⟨_, h6, rfl, rfl, ?_⟩
  exact (global_uniqueness (fun _ _ => le_refl _) h6).1 0 1 _ _ (by decide) rfl rfl

end Sys

end DevTools.Sequence
