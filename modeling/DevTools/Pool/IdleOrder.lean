import DevTools.Pool.Interleaving

/-!
# Idle maintenance

One caller after the other uses the pool, under a clock that never goes back. Both loops of
`CheckConnection` stop at the first connection that is young, which misses nothing as long as
`freeQueue` is ordered by `lastTime`. A connection that is released is stamped and goes to the
back; a connection that `InitPool` makes carries what happens to be in its memory.

**Theorem (`check_is_exact`).** Right after `InitPool` the queue is ordered exactly if the values
in memory are. In every run in which they are and none of them is in the future, the queue is
ordered in every state, and every `CheckConnection` closes or validates exactly the idle
connections and evicts none below `min`. Every `close()` succeeds: one that throws in
`CheckConnection` ends the process, and one in `ReleaseConnect` leaves the queue as it is.

In `stale_behind_young` the first of two connections looks young and the second one is missed.
-/

namespace DevTools.Pool

open SingleDBPool

/-! ## Prefixes of a queue -/

section Monotone

variable {α : Type*} {P : α → Prop} [DecidablePred P] {l : List α}

/-- When `P` only ever turns from true to false along a list, its leading part is all of it. -/
theorem takeWhile_eq_filter (h : l.Pairwise fun a b => P b → P a) :
    l.takeWhile P = l.filter P ∧ l.dropWhile P = l.filter (fun a => ¬ P a) := by
  induction l with
  | nil => exact ⟨rfl, rfl⟩
  | cons a l ih =>
    obtain ⟨hfirst, hrest⟩ := List.pairwise_cons.1 h
    by_cases ha : P a
    · obtain ⟨htake, hdrop⟩ := ih hrest
      simp [ha, htake, hdrop]
    · have hnone : ∀ b ∈ l, ¬ P b := fun b hb hPb => ha (hfirst b hb hPb)
      have hfilter : l.filter P = [] := by simpa using hnone
      have hfilter' : l = l.filter (fun b => !decide (P b)) :=
        (List.filter_eq_self.2 (by simpa using hnone)).symm
      simp [ha, hfilter, ← hfilter']

end Monotone

/-- The first loop pops expired connections from the front, and leaves `min` of them. -/
theorem popIdle_spec (opt : ConnectOptions) (curTime : Int) (queue : List Connection) :
    (popIdle opt curTime queue).1 ++ (popIdle opt curTime queue).2 = queue ∧
      (∀ c ∈ (popIdle opt curTime queue).1, expired opt curTime c) ∧
      min opt.min queue.length ≤ (popIdle opt curTime queue).2.length := by
  induction queue with
  | nil => simp [popIdle]
  | cons c rest ih =>
    obtain ⟨hsplit, hexp, hlen⟩ := ih
    simp only [popIdle]
    split_ifs with h
    · obtain ⟨hmin, hc⟩ := h
      refine ⟨by simp [hsplit], ?_, ?_⟩
      · rw [List.forall_mem_cons]
        exact ⟨hc, hexp⟩
      · rw [min_eq_left (by omega)] at hlen
        exact (min_le_left _ _).trans hlen
    · simp

/-! ## The calls -/

namespace SingleDBPool

/-- `ReleaseConnect`, uninterrupted. -/
def releaseConnect (p : SingleDBPool) (c : Connection) (time : Int) : SingleDBPool :=
  if p.runing ∧ ¬ c.isErr then p.pushFree { c with lastTime := time }
  else (p.closeConn c).countDown

/-- A connection that `CheckConnection` validates, whether `SELECT 1` raised an error, and the
time at which it is released. -/
structure Validation where
  conn : Connection
  isErr : Bool
  time : Int
  deriving DecidableEq, Repr

/-- The connection as it is released. -/
def Validation.checked (v : Validation) : Connection :=
  { v.conn with isErr := v.conn.isErr || v.isErr }

/-- What of `CheckConnection` comes after its first loop: closing, and the second loop. -/
def checkSecond (opt : ConnectOptions) (curTime curTime' : Int) (p : SingleDBPool) :
    List Connection × SingleDBPool :=
  takeExpired opt curTime' ((evictIdle opt curTime p).1.foldl closeConn (evictIdle opt curTime p).2)

/-- `CheckConnection`, uninterrupted: it reads the clock before each of its loops, and once for
every connection that it has validated. -/
def checkConnection (opt : ConnectOptions) (curTime curTime' : Int) (vs : List Validation)
    (p : SingleDBPool) : SingleDBPool :=
  vs.foldl (fun q v => q.releaseConnect v.checked v.time) (checkSecond opt curTime curTime' p).2

/-- What comes back of a validated connection. -/
def Validation.back (runing : Bool) (v : Validation) : Option Connection :=
  if runing ∧ ¬ v.checked.isErr then some { v.checked with lastTime := v.time } else none

theorem foldl_closeConn (cs : List Connection) (p : SingleDBPool) :
    cs.foldl closeConn p = { p with closed := (cs.map Connection.id).reverse ++ p.closed } := by
  induction cs generalizing p with
  | nil => rfl
  | cons c cs ih => simp [ih, closeConn]

theorem releaseConnect_spec (p : SingleDBPool) (v : Validation) :
    (p.releaseConnect v.checked v.time).runing = p.runing ∧
      (p.releaseConnect v.checked v.time).freeQueue =
        p.freeQueue ++ (v.back p.runing).toList ∧
      p.closed ⊆ (p.releaseConnect v.checked v.time).closed ∧
      (v.back p.runing = none → v.conn.id ∈ (p.releaseConnect v.checked v.time).closed) := by
  unfold releaseConnect Validation.back
  split_ifs with h
  · exact ⟨rfl, rfl, List.Subset.refl _, by simp⟩
  · refine ⟨rfl, by simp [countDown, closeConn], List.subset_cons_self _ _, fun _ => ?_⟩
    exact List.mem_cons_self

/-- The validated connections are released one after the other. -/
theorem foldl_releaseConnect_spec (vs : List Validation) (p : SingleDBPool) :
    (vs.foldl (fun q v => q.releaseConnect v.checked v.time) p).freeQueue =
        p.freeQueue ++ vs.filterMap (Validation.back p.runing) ∧
      p.closed ⊆ (vs.foldl (fun q v => q.releaseConnect v.checked v.time) p).closed ∧
      ∀ v ∈ vs, v.back p.runing = none →
        v.conn.id ∈ (vs.foldl (fun q v => q.releaseConnect v.checked v.time) p).closed := by
  induction vs generalizing p with
  | nil => simp
  | cons v vs ih =>
    obtain ⟨hrun, hq, hclosed, hout⟩ := releaseConnect_spec p v
    obtain ⟨hq', hclosed', hout'⟩ := ih (p.releaseConnect v.checked v.time)
    rw [hrun] at hq' hout'
    refine ⟨?_, List.Subset.trans hclosed hclosed', ?_⟩
    · rw [List.foldl_cons, hq', hq, List.append_assoc]
      cases h : v.back p.runing with
      | none => simp [h]
      | some c => simp [h]
    · rw [List.forall_mem_cons]
      exact ⟨fun h => hclosed' (hout h), hout'⟩

/-- The `lastTime` of the connections that a loop of `n` turns makes. -/
def stamps : Nat → List Connect → List Int
  | n + 1, .conn lastTime :: answers => lastTime :: stamps n answers
  | _, _ => []

/-- The `lastTime` of the connections that `InitPool` makes. -/
def initStamps (opt : ConnectOptions) (parsed : Bool) (answers : List Connect)
    (p : SingleDBPool) : List Int :=
  if p.runing = false ∧ parsed = true ∧ 1 ≤ opt.min ∧ opt.min ≤ opt.max then
    stamps opt.min.toNat answers
  else []

theorem fill_lastTime (n : Nat) (answers : List Connect) (p : SingleDBPool) :
    (fill n answers p).2.freeQueue.map Connection.lastTime =
      p.freeQueue.map Connection.lastTime ++ stamps n answers := by
  induction n generalizing answers p with
  | zero => simp [fill, stamps]
  | succ n ih =>
    cases answers with
    | nil => simp [fill, stamps]
    | cons answer answers =>
      cases answer with
      | conn lastTime => simp [fill, stamps, ih, newConnection]
      | null => simp [fill, stamps]
      | throws => simp [fill, stamps]

theorem initPool_lastTime (opt : ConnectOptions) (parsed : Bool) (answers : List Connect)
    (p : SingleDBPool) :
    (initPool opt parsed answers p).2.freeQueue.map Connection.lastTime =
      p.freeQueue.map Connection.lastTime ++ initStamps opt parsed answers p := by
  unfold initStamps
  split_ifs with h
  · obtain ⟨hrun, hparsed, hmin, hmax⟩ := h
    rw [initPool_of_valid hrun hparsed hmin hmax]
    exact fill_lastTime _ answers p
  · rw [initPool_of_invalid h, List.append_nil]

end SingleDBPool

/-! ## Sequential use -/

/-- A pool that is used by one caller at a time. -/
structure Seq where
  pool : SingleDBPool
  /-- the connections that are checked out -/
  out : Multiset Connection
  /-- the last reading of the clock -/
  now : Int

inductive Call
  | init (parsed : Bool) (answers : List Connect) (time : Int)
  | get (time : Int) (answer : Connect)
  | release (c : Connection) (isErr : Bool) (time : Int)
  | check (curTime curTime' : Int) (vs : List Validation) (time : Int)

namespace Seq

/-- The clock is read at these times, one after the other; `getCurrentTime` is an `int64_t`. -/
def Clock (now : Int) (times : List Int) : Prop :=
  (now :: times).Pairwise (· ≤ ·) ∧ ∀ t ∈ times, t < 2 ^ 63

/-- A pool as constructed, at the start of time. -/
def start : Seq := ⟨SingleDBPool.new, 0, 0⟩

/-- One call after the other. The `time` of `InitPool` and of `CheckConnection` is when they
return. -/
inductive Step (opt : ConnectOptions) : Seq → Call → Seq → Prop
  | init {s : Seq} {parsed : Bool} {answers : List Connect} {time : Int} : Clock s.now [time] →
      Step opt s (.init parsed answers time)
        { s with pool := (initPool opt parsed answers s.pool).2, now := time }
  | get {s : Seq} {time : Int} {answer : Connect} : s.pool.runing → Clock s.now [time] →
      Step opt s (.get time answer)
        { pool := (getConnection opt time answer s.pool).2
          out := (getConnection opt time answer s.pool).1.toList + s.out
          now := time }
  | release {s : Seq} {c : Connection} {isErr : Bool} {time : Int} {O : Multiset Connection} :
      s.out = c ::ₘ O → Clock s.now [time] →
      Step opt s (.release c isErr time)
        { pool := s.pool.releaseConnect { c with isErr := c.isErr || isErr } time
          out := O
          now := time }
  | check {s : Seq} {curTime curTime' : Int} {vs : List Validation} {time : Int} :
      vs.map Validation.conn = (checkSecond opt curTime curTime' s.pool).1 →
      Clock s.now (curTime :: curTime' :: vs.map Validation.time ++ [time]) →
      Step opt s (.check curTime curTime' vs time)
        { s with pool := checkConnection opt curTime curTime' vs s.pool, now := time }

def lts (opt : ConnectOptions) : LTS Seq Call where
  init s := s = start
  step := Step opt

/-! ### Calls as runs of the interleaved system

Nobody else takes a step during a call, so that it is the only operation in `busy`. -/

section Interleaved

variable {opt : ConnectOptions} {p : SingleDBPool} {out : Multiset Connection} {e k : Nat}

/-- `ReleaseConnect` after its test, for a caller or for `CheckConnection`. -/
theorem run_release (c : Connection) (time : Int) (rest : Option (List Connection)) :
    (Sys.lts opt).Run ⟨p, out, Sys.startRelease p c time rest ::ₘ 0, e, k⟩
      ⟨p.releaseConnect c time, out, Sys.afterRelease rest + 0, e, k⟩ := by
  unfold Sys.startRelease releaseConnect
  split_ifs
  · have hpush : (Sys.lts opt).step ⟨p, out, .push { c with lastTime := time } rest ::ₘ 0, e, k⟩
        (.push { c with lastTime := time } rest)
        ⟨p.pushFree { c with lastTime := time }, out, Sys.afterRelease rest + 0, e, k⟩ :=
      .push rfl
    exact LTS.Run.refl.step hpush
  · have hclose : (Sys.lts opt).step ⟨p, out, .close c rest ::ₘ 0, e, k⟩ (.close c rest)
        ⟨p.closeConn c, out, .countDown rest ::ₘ 0, e, k⟩ := .close rfl
    have hcount : (Sys.lts opt).step ⟨p.closeConn c, out, .countDown rest ::ₘ 0, e, k⟩
        (.countDown rest) ⟨(p.closeConn c).countDown, out, Sys.afterRelease rest + 0, e, k⟩ :=
      .countDown rfl
    exact (LTS.Run.refl.step hclose).step hcount

/-- `CheckConnection` closes what its first loop has popped. -/
theorem run_closing (tmpQueue : List Connection) :
    (Sys.lts opt).Run ⟨p, out, .closing tmpQueue ::ₘ 0, e, k⟩
      ⟨tmpQueue.foldl closeConn p, out, .closing [] ::ₘ 0, e, k⟩ := by
  induction tmpQueue generalizing p with
  | nil => exact .refl
  | cons c tmpQueue ih =>
    have hclose : (Sys.lts opt).step ⟨p, out, .closing (c :: tmpQueue) ::ₘ 0, e, k⟩
        (.closeIdle c tmpQueue) ⟨p.closeConn c, out, .closing tmpQueue ::ₘ 0, e, k⟩ :=
      .closeIdle rfl
    exact (LTS.Run.refl.step hclose).trans ih

/-- `CheckConnection` validates what its second loop has popped. -/
theorem run_validate (vs : List Validation) :
    (Sys.lts opt).Run ⟨p, out, .validate (vs.map Validation.conn) ::ₘ 0, e, k⟩
      ⟨vs.foldl (fun q v => q.releaseConnect v.checked v.time) p, out, 0, e, k⟩ := by
  induction vs generalizing p with
  | nil =>
    have hchecked : (Sys.lts opt).step ⟨p, out, .validate [] ::ₘ 0, e, k⟩ .checked
        ⟨p, out, 0, e, k⟩ := .checked rfl
    exact LTS.Run.refl.step hchecked
  | cons v vs ih =>
    have hstart : (Sys.lts opt).step
        ⟨p, out, .validate (v.conn :: vs.map Validation.conn) ::ₘ 0, e, k⟩
        (.validate v.conn (vs.map Validation.conn) v.isErr v.time)
        ⟨p, out, Sys.startRelease p v.checked v.time (some (vs.map Validation.conn)) ::ₘ 0, e, k⟩ :=
      .validate rfl
    have hrelease := @run_release opt p out e k v.checked v.time (some (vs.map Validation.conn))
    exact ((LTS.Run.refl.step hstart).trans hrelease).trans ih

/-- A call is a run of the interleaved system. -/
theorem Step.run {s s' : Seq} {a : Call} (hs : Step opt s a s') :
    ∃ e' k', (Sys.lts opt).Run ⟨s.pool, s.out, 0, e, k⟩ ⟨s'.pool, s'.out, 0, e', k'⟩ := by
  cases hs with
  | init _ => exact ⟨e, k, LTS.Run.refl.step .init⟩
  | @get time answer hrun _ =>
    have hget : (Sys.lts opt).step ⟨s.pool, s.out, 0, e, k⟩ (.get time)
        ⟨s.pool, s.out, .get time ::ₘ 0, e, k⟩ := .get hrun
    exact ⟨e, k, (LTS.Run.refl.step hget).step (.getLocked rfl)⟩
  | @release c isErr time O hout _ =>
    have hstart : (Sys.lts opt).step ⟨s.pool, s.out, 0, e, k⟩ (.release c isErr time)
        ⟨s.pool, O, Sys.startRelease s.pool { c with isErr := c.isErr || isErr } time none ::ₘ 0,
          e, k⟩ := .release hout
    exact ⟨e, k, (LTS.Run.refl.step hstart).trans (run_release _ time none)⟩
  | @check curTime curTime' vs time hvs _ =>
    have hcheck : (Sys.lts opt).step ⟨s.pool, s.out, 0, e, k⟩ (.check curTime)
        ⟨s.pool, s.out, .evict curTime ::ₘ 0, e, k⟩ := .check
    have hevict : (Sys.lts opt).step ⟨s.pool, s.out, .evict curTime ::ₘ 0, e, k⟩ (.evict curTime)
        ⟨(evictIdle opt curTime s.pool).2, s.out,
          .closing (evictIdle opt curTime s.pool).1 ::ₘ 0,
          e + (evictIdle opt curTime s.pool).1.length, k⟩ := .evict rfl
    have hclosing := ((LTS.Run.refl.step hcheck).step hevict).trans
      (run_closing (evictIdle opt curTime s.pool).1)
    have hclosed : ∀ q e, (Sys.lts opt).step ⟨q, s.out, .closing [] ::ₘ 0, e, k⟩ (.closed curTime')
        ⟨q, s.out, .take curTime' ::ₘ 0, e, k⟩ := fun _ _ => .closed rfl
    have htake : ∀ q e, (Sys.lts opt).step ⟨q, s.out, .take curTime' ::ₘ 0, e, k⟩ (.take curTime')
        ⟨(takeExpired opt curTime' q).2, s.out, .validate (takeExpired opt curTime' q).1 ::ₘ 0, e,
          k + (takeExpired opt curTime' q).1.length⟩ := fun _ _ => .take rfl
    have htaken := (hclosing.step (hclosed _ _)).step (htake _ _)
    have hsame : (takeExpired opt curTime' ((evictIdle opt curTime s.pool).1.foldl closeConn
        (evictIdle opt curTime s.pool).2)).1 = vs.map Validation.conn := hvs.symm
    rw [hsame] at htaken
    exact ⟨_, _, htaken.trans (run_validate vs)⟩

/-- A sequence of calls is a run of the interleaved system. -/
theorem reach_interleaved {s : Seq} (h : (lts opt).Reach s) :
    ∃ e k, (Sys.lts opt).Reach ⟨s.pool, s.out, 0, e, k⟩ := by
  induction h with
  | init h =>
    cases h
    exact ⟨0, 0, .init rfl⟩
  | step _ hs ih =>
    obtain ⟨e, k, hreach⟩ := ih
    obtain ⟨e', k', hrun⟩ := @Step.run opt e k _ _ _ hs
    exact ⟨e', k', hreach.run hrun⟩

end Interleaved

end Seq

/-! ## The order of the queue -/

/-- Front to back by `lastTime`. -/
def Ordered (queue : List Connection) : Prop :=
  queue.Pairwise fun c d => c.lastTime ≤ d.lastTime

/-- Idle for `expiretime` or more. -/
def Idle (opt : ConnectOptions) (curTime : Int) (c : Connection) : Prop :=
  opt.expiretime ≤ curTime - c.lastTime

instance (opt : ConnectOptions) (curTime : Int) : DecidablePred (Idle opt curTime) :=
  fun _ => inferInstanceAs (Decidable (_ ≤ _))

/-- The queue is ordered and stamped in the past. -/
structure Stamped (queue : List Connection) (now : Int) : Prop where
  ordered : Ordered queue
  past : ∀ c ∈ queue, 0 ≤ c.lastTime ∧ c.lastTime ≤ now

theorem Ordered.map_iff {queue : List Connection} :
    (queue.map Connection.lastTime).Pairwise (· ≤ ·) ↔ Ordered queue := by
  rw [List.pairwise_map]
  rfl

theorem Stamped.sublist {q q' : List Connection} {now : Int} (h : Stamped q now)
    (hsub : List.Sublist q' q) : Stamped q' now :=
  ⟨h.ordered.sublist hsub, fun c hc => h.past c (hsub.subset hc)⟩

theorem Stamped.mono {q : List Connection} {now now' : Int} (h : Stamped q now)
    (hle : now ≤ now') : Stamped q now' :=
  ⟨h.ordered, fun c hc => ⟨(h.past c hc).1, (h.past c hc).2.trans hle⟩⟩

/-- Connections that are stamped in order, and later than all others, go to the back. -/
theorem Stamped.append {q q' : List Connection} {now now' : Int} (h : Stamped q now)
    (h' : Stamped q' now') (hle : now ≤ now') (hlate : ∀ c ∈ q', now ≤ c.lastTime) :
    Stamped (q ++ q') now' := by
  constructor
  · refine List.pairwise_append.2 ⟨h.ordered, h'.ordered, ?_⟩
    intro c hc d hd
    exact (h.past c hc).2.trans (hlate d hd)
  · intro c hc
    rcases List.mem_append.1 hc with hc | hc
    · exact (h.mono hle).past c hc
    · exact h'.past c hc

theorem Stamped.expired_iff {opt : ConnectOptions} {queue : List Connection} {now curTime : Int}
    (h : Stamped queue now) (hnow : now ≤ curTime) (hlt : curTime < 2 ^ 63) {c : Connection}
    (hc : c ∈ queue) : expired opt curTime c ↔ Idle opt curTime c := by
  obtain ⟨h0, hle⟩ := h.past c hc
  have hin : InInt64 (curTime - c.lastTime) := by
    constructor <;> omega
  rw [expired, wrap64_of_inInt64 hin, Idle]

/-- Along an ordered queue the idle connections come first. -/
theorem Ordered.idle {queue : List Connection} (h : Ordered queue) (opt : ConnectOptions)
    (curTime : Int) : queue.Pairwise fun c d => Idle opt curTime d → Idle opt curTime c := by
  refine h.imp ?_
  intro c d hcd hd
  unfold Idle at hd ⊢
  omega

/-! ## `CheckConnection` on an ordered queue -/

/-- What a `CheckConnection` should do: it closes or validates the idle connections and no others,
and the first loop leaves `min` connections. -/
structure Exact (opt : ConnectOptions) (curTime curTime' : Int) (vs : List Validation)
    (p : SingleDBPool) : Prop where
  touched : (evictIdle opt curTime p).1 ++ vs.map Validation.conn =
    p.freeQueue.filter (Idle opt curTime')
  evicted : ∀ c ∈ (evictIdle opt curTime p).1,
    c.id ∈ (checkConnection opt curTime curTime' vs p).closed
  failed : ∀ v ∈ vs, v.back p.runing = none →
    v.conn.id ∈ (checkConnection opt curTime curTime' vs p).closed
  queue : (checkConnection opt curTime curTime' vs p).freeQueue =
    p.freeQueue.filter (fun c => ¬ Idle opt curTime' c) ++
      vs.filterMap (Validation.back p.runing)
  enough : min opt.min p.freeQueue.length ≤ (evictIdle opt curTime p).2.freeQueue.length

theorem checkSecond_closed (opt : ConnectOptions) (curTime curTime' : Int) (p : SingleDBPool) :
    (checkSecond opt curTime curTime' p).2.runing = p.runing ∧
      (checkSecond opt curTime curTime' p).2.closed =
        ((evictIdle opt curTime p).1.map Connection.id).reverse ++ p.closed := by
  simp [checkSecond, takeExpired, foldl_closeConn, evictIdle]

/-- The second loop pops the idle connections. -/
theorem Stamped.takeWhile_expired {opt : ConnectOptions} {queue : List Connection}
    {now curTime : Int} (h : Stamped queue now) (hnow : now ≤ curTime) (hlt : curTime < 2 ^ 63) :
    queue.takeWhile (expired opt curTime) = queue.filter (Idle opt curTime) ∧
      queue.dropWhile (expired opt curTime) = queue.filter fun c => ¬ Idle opt curTime c := by
  have hiff : ∀ c ∈ queue, expired opt curTime c ↔ Idle opt curTime c :=
    fun c hc => h.expired_iff hnow hlt hc
  have hmono : queue.Pairwise fun c d => expired opt curTime d → expired opt curTime c := by
    refine (h.ordered.idle opt curTime).imp_of_mem ?_
    intro c d hc hd hcd
    rwa [hiff c hc, hiff d hd]
  obtain ⟨htake, hdrop⟩ := takeWhile_eq_filter hmono
  rw [htake, hdrop]
  constructor
  · refine List.filter_congr fun c hc => ?_
    simp only [hiff c hc]
  · refine List.filter_congr fun c hc => ?_
    simp only [hiff c hc]

/-- The two loops together pop the idle connections. -/
theorem Stamped.checkSecond_spec {opt : ConnectOptions} {curTime curTime' now : Int}
    {p : SingleDBPool} (h : Stamped p.freeQueue now) (hnow : now ≤ curTime)
    (hle : curTime ≤ curTime') (hlt : curTime' < 2 ^ 63) :
    (evictIdle opt curTime p).1 ++ (checkSecond opt curTime curTime' p).1 =
        p.freeQueue.filter (Idle opt curTime') ∧
      (checkSecond opt curTime curTime' p).2.freeQueue =
        p.freeQueue.filter fun c => ¬ Idle opt curTime' c := by
  obtain ⟨hsplit, hexp, -⟩ := popIdle_spec opt curTime p.freeQueue
  simp only [checkSecond, takeExpired, foldl_closeConn, evictIdle]
  generalize popIdle opt curTime p.freeQueue = popped at hsplit hexp ⊢
  have hrest : Stamped popped.2 now := h.sublist (hsplit ▸ List.sublist_append_right _ _)
  obtain ⟨htake, hdrop⟩ := @takeWhile_expired opt _ _ _ hrest (hnow.trans hle) hlt
  -- what the first loop has popped is still idle at the second reading
  have hidle : ∀ c ∈ popped.1, Idle opt curTime' c := by
    intro c hc
    have hin : c ∈ p.freeQueue := hsplit ▸ List.mem_append_left _ hc
    have hold := (h.expired_iff hnow (hle.trans_lt hlt) hin).1 (hexp c hc)
    unfold Idle at hold ⊢
    omega
  have hall : popped.1.filter (Idle opt curTime') = popped.1 :=
    List.filter_eq_self.2 (by simpa using hidle)
  have hnone : popped.1.filter (fun c => ¬ Idle opt curTime' c) = [] := by
    simpa using hidle
  rw [htake, hdrop, ← hsplit, List.filter_append, List.filter_append, hall, hnone]
  exact ⟨rfl, rfl⟩

theorem Stamped.exact {opt : ConnectOptions} {curTime curTime' now : Int} {vs : List Validation}
    {p : SingleDBPool} (h : Stamped p.freeQueue now) (hnow : now ≤ curTime)
    (hle : curTime ≤ curTime') (hlt : curTime' < 2 ^ 63)
    (hvs : vs.map Validation.conn = (checkSecond opt curTime curTime' p).1) :
    Exact opt curTime curTime' vs p := by
  obtain ⟨htouched, hleft⟩ := @Stamped.checkSecond_spec opt _ _ _ _ h hnow hle hlt
  obtain ⟨hrun, hclosed⟩ := checkSecond_closed opt curTime curTime' p
  obtain ⟨hq, hsub, hfailed⟩ :=
    foldl_releaseConnect_spec vs (checkSecond opt curTime curTime' p).2
  rw [hrun] at hq hfailed
  exact {
    touched := by rw [hvs, htouched]
    evicted := by
      intro c hc
      refine hsub ?_
      rw [hclosed]
      simp only [List.mem_append, List.mem_reverse, List.mem_map]
      exact .inl ⟨c, hc, rfl⟩
    failed := hfailed
    queue := by rw [← hleft]; exact hq
    enough := (popIdle_spec opt curTime p.freeQueue).2.2 }

/-! ## Runs -/

namespace Seq

/-- The values in the memory of the connections that `InitPool` makes are ordered, behind the
queue, and not in the future. -/
def InitOrdered (opt : ConnectOptions) (s : Seq) : Call → Prop
  | .init parsed answers time =>
    (s.pool.freeQueue.map Connection.lastTime ++
      initStamps opt parsed answers s.pool).Pairwise (· ≤ ·) ∧
    ∀ t ∈ initStamps opt parsed answers s.pool, 0 ≤ t ∧ t ≤ time
  | _ => True

/-- The invariant. -/
def Inv (s : Seq) : Prop := 0 ≤ s.now ∧ Stamped s.pool.freeQueue s.now

theorem inv_start : Inv start := by
  refine ⟨le_rfl, List.Pairwise.nil, ?_⟩
  intro c hc
  cases hc

theorem Clock.le {now t : Int} {times : List Int} (h : Clock now times) (ht : t ∈ times) :
    now ≤ t :=
  (List.pairwise_cons.1 h.1).1 t ht

/-- The two readings before the loops. -/
theorem Clock.two {now curTime curTime' : Int} {times : List Int}
    (h : Clock now (curTime :: curTime' :: times)) :
    now ≤ curTime ∧ curTime ≤ curTime' ∧ curTime' < 2 ^ 63 ∧
      (curTime' :: times).Pairwise (· ≤ ·) := by
  obtain ⟨htimes, hlt⟩ := h
  obtain ⟨hnow, htimes'⟩ := List.pairwise_cons.1 htimes
  obtain ⟨hcur, hlater⟩ := List.pairwise_cons.1 htimes'
  exact ⟨hnow curTime (by simp), hcur curTime' (by simp), hlt curTime' (by simp), hlater⟩

theorem inv_init {opt : ConnectOptions} {s : Seq} {parsed : Bool} {answers : List Connect}
    {time : Int} (h : Inv s) (hle : s.now ≤ time)
    (hok : InitOrdered opt s (.init parsed answers time)) :
    Stamped (initPool opt parsed answers s.pool).2.freeQueue time := by
  obtain ⟨hord, hpast⟩ := hok
  have hmap := initPool_lastTime opt parsed answers s.pool
  constructor
  · rw [← Ordered.map_iff, hmap]
    exact hord
  · intro c hc
    have hin : c.lastTime ∈ s.pool.freeQueue.map Connection.lastTime ++
        initStamps opt parsed answers s.pool := hmap ▸ List.mem_map_of_mem hc
    rcases List.mem_append.1 hin with hin | hin
    · obtain ⟨d, hd, hdc⟩ := List.mem_map.1 hin
      rw [← hdc]
      exact (h.2.mono hle).past d hd
    · exact hpast _ hin

/-- A connection goes to the back with the time of the release. -/
theorem stamped_release {p : SingleDBPool} {now time : Int} (h0 : 0 ≤ now)
    (h : Stamped p.freeQueue now) (hle : now ≤ time) (c : Connection) :
    Stamped (p.releaseConnect c time).freeQueue time := by
  unfold releaseConnect
  split_ifs
  · have hback : Stamped [{ c with lastTime := time }] time := by
      refine ⟨List.pairwise_singleton _ _, ?_⟩
      simp [h0.trans hle]
    refine h.append hback hle ?_
    simpa using hle
  · exact h.mono hle

theorem stamped_releases {vs : List Validation} {p : SingleDBPool} {now time : Int} (h0 : 0 ≤ now)
    (h : Stamped p.freeQueue now)
    (hclock : (now :: vs.map Validation.time ++ [time]).Pairwise (· ≤ ·)) :
    Stamped (vs.foldl (fun q v => q.releaseConnect v.checked v.time) p).freeQueue time := by
  induction vs generalizing p now with
  | nil =>
    refine h.mono ?_
    simpa using hclock
  | cons v vs ih =>
    obtain ⟨hle, hrest⟩ := List.pairwise_cons.1 hclock
    have hv : now ≤ v.time := hle v.time (by simp)
    exact ih (h0.trans hv) (stamped_release h0 h hv v.checked) hrest

/-- One call keeps the order. -/
theorem Inv.step {opt : ConnectOptions} {s s' : Seq} {a : Call} (h : Inv s)
    (hok : InitOrdered opt s a) (hs : Step opt s a s') : Inv s' := by
  obtain ⟨h0, hst⟩ := h
  cases hs with
  | init hclock =>
    have hle := hclock.le List.mem_cons_self
    exact ⟨h0.trans hle, inv_init ⟨h0, hst⟩ hle hok⟩
  | @get time answer _ hclock =>
    have hle := hclock.le List.mem_cons_self
    refine ⟨h0.trans hle, ?_⟩
    rcases getConnection_cases opt time answer s.pool with
      ⟨c, rest, hq, heq⟩ | ⟨lastTime, hq, -, -, heq⟩ | ⟨hq, heq⟩
    · rw [heq]
      rw [hq] at hst
      exact (hst.sublist (List.sublist_cons_self c rest)).mono hle
    · rw [heq]
      exact hst.mono hle
    · rw [heq]
      exact hst.mono hle
  | release _ hclock =>
    have hle := hclock.le List.mem_cons_self
    exact ⟨h0.trans hle, stamped_release h0 hst hle _⟩
  | @check curTime curTime' vs time hvs hclock =>
    have hend : s.now ≤ time := hclock.le (by simp)
    obtain ⟨hnow, hcur, hlt, hlater⟩ := hclock.two
    obtain ⟨-, hleft⟩ := @Stamped.checkSecond_spec opt _ _ _ _ hst hnow hcur hlt
    have hsecond : Stamped (checkSecond opt curTime curTime' s.pool).2.freeQueue curTime' := by
      rw [hleft]
      exact (hst.sublist List.filter_sublist).mono (hnow.trans hcur)
    exact ⟨h0.trans hend, stamped_releases (h0.trans (hnow.trans hcur)) hsecond hlater⟩

theorem inv_of_reach {opt : ConnectOptions} {s : Seq}
    (h : ((lts opt).restrict (InitOrdered opt)).Reach s) : Inv s := by
  refine h.invariant ?_ ?_
  · rintro s rfl
    exact inv_start
  · intro s a s' hinv hs
    exact hinv.step hs.1 hs.2

/-- What should hold in a state: the queue is ordered, and a `CheckConnection` here is exact. -/
def Maintained (opt : ConnectOptions) (s : Seq) : Prop :=
  Ordered s.pool.freeQueue ∧
    ∀ curTime curTime' vs time s', Step opt s (.check curTime curTime' vs time) s' →
      Exact opt curTime curTime' vs s.pool

theorem Inv.maintained {opt : ConnectOptions} {s : Seq} (h : Inv s) : Maintained opt s := by
  refine ⟨h.2.ordered, ?_⟩
  intro curTime curTime' vs time s' hs
  cases hs with
  | check hvs hclock =>
    obtain ⟨hnow, hcur, hlt, -⟩ := hclock.two
    exact h.2.exact hnow hcur hlt hvs

/-- **Idle maintenance misses nothing** in these runs. -/
theorem check_is_exact (opt : ConnectOptions) :
    (∀ (parsed : Bool) (answers : List Connect) (p : SingleDBPool),
      Ordered (initPool opt parsed answers p).2.freeQueue ↔
        (p.freeQueue.map Connection.lastTime ++
          initStamps opt parsed answers p).Pairwise (· ≤ ·)) ∧
    ∀ s, ((lts opt).restrict (InitOrdered opt)).Reach s → Maintained opt s := by
  constructor
  · intro parsed answers p
    rw [← Ordered.map_iff, initPool_lastTime]
  · intro s hreach
    exact (inv_of_reach hreach).maintained

/-! ## The values in memory -/

/-- Two connections, kept for 240 seconds. -/
def twoConns : ConnectOptions := ⟨2, 4, 240⟩

/-- The pool after an `InitPool` at time 1000 that found `a` and `b` in memory. -/
def afterInit (a b : Int) : Seq := ⟨⟨[⟨0, a, false⟩, ⟨1, b, false⟩], 0, true, 2, []⟩, 0, 1000⟩

theorem clock_one (now t : Int) (hle : now ≤ t) (hlt : t < 2 ^ 63) : Clock now [t] := by
  constructor
  · simpa using hle
  · simpa using hlt

theorem step_afterInit (a b : Int) :
    Step twoConns start (.init true [.conn a, .conn b] 1000) (afterInit a b) :=
  .init (clock_one 0 1000 (by decide) (by decide))

/-- The first connection looks as if it had been used in the future; the second one has been idle
for 1000 seconds, but `CheckConnection` does not get to it. -/
theorem stale_behind_young :
    ¬ ∀ s, (lts twoConns).Reach s → Maintained twoConns s := by
  intro h
  have hreach : (lts twoConns).Reach (afterInit 5000 0) :=
    .step (.init rfl) (step_afterInit 5000 0)
  obtain ⟨-, hexact⟩ := h _ hreach
  have hcheck : Step twoConns (afterInit 5000 0) (.check 1000 1000 [] 1000) (afterInit 5000 0) :=
    .check (by decide) ⟨by decide, by decide⟩
  have htouched := (hexact _ _ _ _ _ hcheck).touched
  revert htouched
  decide

/-- With the memory in order the two connections are validated. -/
theorem check_is_exact_sample :
    Exact twoConns 1000 1000 [⟨⟨0, 0, false⟩, false, 1000⟩, ⟨⟨1, 500, false⟩, true, 1000⟩]
      (afterInit 0 500).pool := by
  have hok : InitOrdered twoConns start (.init true [.conn 0, .conn 500] 1000) :=
    ⟨by decide, by decide⟩
  have hreach : ((lts twoConns).restrict (InitOrdered twoConns)).Reach (afterInit 0 500) :=
    .step (.init rfl) ⟨hok, step_afterInit 0 500⟩
  refine ((check_is_exact twoConns).2 _ hreach).2 _ _ _ 1000 _ (.check ?_ ⟨?_, ?_⟩)
  · decide
  · decide
  · decide

end Seq

end DevTools.Pool
