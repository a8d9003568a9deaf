import DevTools.Pool.Accounting
import Mathlib.Data.Multiset.Range
import Mathlib.Tactic.Abel

/-!
# Where the connections are

A connection object is queued, held by a caller, in the hands of an operation that is in progress,
or closed. `places` is the multiset of all four, object by object.

**Theorem (`places_reach`).** In every state of every run `places` is `0, 1, .., opened - 1`, each
once: no step loses an object, and none puts it in a second place. The runs are those of `Sys`, in
which every `close()` succeeds; an object whose `close()` throws is in no place any more.

**Theorem (`exactly_one_place`).** So every object that was ever made is in exactly one place, and
one that is closed stays closed and is never queued or handed out again.
-/

namespace DevTools.Pool

open SingleDBPool

/-- The objects of a list of connections. -/
def ids (l : List Connection) : Multiset Nat := (l.map Connection.id : List Nat)

@[simp] theorem ids_nil : ids [] = 0 := rfl

@[simp] theorem ids_cons (c : Connection) (l : List Connection) : ids (c :: l) = {c.id} + ids l :=
  rfl

@[simp] theorem ids_append (l l' : List Connection) : ids (l ++ l') = ids l + ids l' := by
  simp [ids]

/-- The objects that an operation in progress has in its hands: what it is releasing, and what is
in the `tmpQueue` of `CheckConnection`. -/
def Op.holds : Op → Multiset Nat
  | .push c rest | .close c rest => {c.id} + ids (rest.getD [])
  | .countDown rest => ids (rest.getD [])
  | .closing tmpQueue | .validate tmpQueue => ids tmpQueue
  | .get _ | .evict _ | .take _ => 0

namespace Sys

variable {opt : ConnectOptions} {s s' : Sys} {a : Act}

def queued (s : Sys) : Multiset Nat := ids s.pool.freeQueue

/-- The objects that callers hold. -/
def held (s : Sys) : Multiset Nat := s.out.map Connection.id

/-- The objects in the hands of a multiset of operations. -/
def holding (busy : Multiset Op) : Multiset Nat := (busy.map Op.holds).sum

/-- The objects in the hands of the operations in progress. -/
def working (s : Sys) : Multiset Nat := holding s.busy

def closed (s : Sys) : Multiset Nat := (s.pool.closed : Multiset Nat)

/-- Every place of every object. -/
def places (s : Sys) : Multiset Nat := queued s + held s + working s + closed s

@[simp] theorem holding_cons (op : Op) (B : Multiset Op) :
    holding (op ::ₘ B) = op.holds + holding B := by
  simp [holding]

@[simp] theorem holding_add (A B : Multiset Op) : holding (A + B) = holding A + holding B := by
  simp [holding]

theorem holding_afterRelease (rest : Option (List Connection)) :
    holding (afterRelease rest) = ids (rest.getD []) := by
  cases rest with
  | none => rfl
  | some tmpQueue => simp [afterRelease, holding, Op.holds]

theorem holds_startRelease (p : SingleDBPool) (c : Connection) (now : Int)
    (rest : Option (List Connection)) :
    (startRelease p c now rest).holds = {c.id} + ids (rest.getD []) := by
  unfold startRelease
  split
  · rfl
  · rfl

theorem closed_closeConn (p : SingleDBPool) (c : Connection) :
    ((p.closeConn c).closed : Multiset Nat) = {c.id} + (p.closed : Multiset Nat) := rfl

/-! ## One step -/

/-- The loop of `InitPool` queues what it makes. -/
theorem fill_places (n : Nat) (answers : List Connect) (p : SingleDBPool) {B : Multiset Nat}
    (h : ids p.freeQueue + B = Multiset.range p.opened) :
    ids (fill n answers p).2.freeQueue + B = Multiset.range (fill n answers p).2.opened ∧
      (fill n answers p).2.closed = p.closed := by
  induction n generalizing answers p with
  | zero => exact ⟨h, rfl⟩
  | succ n ih =>
    match answers with
    | .conn lastTime :: answers =>
      refine ih answers { p with
        freeQueue := p.freeQueue ++ [p.newConnection lastTime], opened := p.opened + 1 } ?_
      simp only [ids_append, ids_cons, ids_nil, newConnection, Multiset.range_succ,
        ← Multiset.singleton_add, ← h]
      abel
    | .null :: _ => exact ⟨h, rfl⟩
    | .throws :: _ => exact ⟨h, rfl⟩
    | [] => exact ⟨h, rfl⟩

theorem initPool_places (opt : ConnectOptions) (parsed : Bool) (answers : List Connect)
    (p : SingleDBPool) {B : Multiset Nat} (h : ids p.freeQueue + B = Multiset.range p.opened) :
    ids (initPool opt parsed answers p).2.freeQueue + B =
        Multiset.range (initPool opt parsed answers p).2.opened ∧
      (initPool opt parsed answers p).2.closed = p.closed := by
  unfold initPool
  split_ifs
  · exact ⟨h, rfl⟩
  · exact ⟨h, rfl⟩
  · exact ⟨h, rfl⟩
  · exact fill_places _ answers p h
  · exact ⟨h, rfl⟩

/-- What the first loop pops and what it leaves. -/
theorem popIdle_ids (opt : ConnectOptions) (curTime : Int) (queue : List Connection) :
    ids (popIdle opt curTime queue).1 + ids (popIdle opt curTime queue).2 = ids queue := by
  induction queue with
  | nil => rfl
  | cons c rest ih =>
    unfold popIdle
    split
    · simp only [ids_cons, ← ih]
      abel
    · simp

theorem takeWhile_ids (q : Connection → Bool) (queue : List Connection) :
    ids (queue.takeWhile q) + ids (queue.dropWhile q) = ids queue := by
  rw [← ids_append, List.takeWhile_append_dropWhile]

/-- No step loses an object or puts it in a second place, and what is closed stays closed. -/
theorem places_step (h : places s = Multiset.range s.pool.opened) (ha : Step opt s a s') :
    places s' = Multiset.range s'.pool.opened ∧ closed s ≤ closed s' := by
  simp only [places, queued, held, working, closed] at h ⊢
  cases ha with
  | init =>
    rename_i parsed answers
    rw [add_assoc, add_assoc] at h ⊢
    obtain ⟨hplaces, hclosed⟩ := initPool_places opt parsed answers s.pool h
    rw [hclosed]
    exact ⟨hplaces, le_rfl⟩
  | get => exact ⟨by simpa [Op.holds] using h, le_rfl⟩
  | getLocked hB =>
    rename_i time answer B
    rw [hB] at h
    simp only [holding_cons, Op.holds, zero_add] at h
    obtain ⟨c, rest, hq, hget⟩ | ⟨lastTime, hq, -, -, hget⟩ | ⟨-, hget⟩ :=
      getConnection_cases opt time answer s.pool
    · rw [hget]
      refine ⟨?_, le_rfl⟩
      rw [hq] at h
      simp only [Option.toList_some, Multiset.coe_singleton, Multiset.map_add,
        Multiset.map_singleton, ← h, ids_cons]
      abel
    · rw [hget]
      refine ⟨?_, le_rfl⟩
      simp only [Option.toList_some, Multiset.coe_singleton, Multiset.map_add,
        Multiset.map_singleton, newConnection, Multiset.range_succ, ← Multiset.singleton_add, ← h]
      abel
    · rw [hget]
      exact ⟨by simpa using h, le_rfl⟩
  | release hO =>
    rw [hO, Multiset.map_cons, ← Multiset.singleton_add] at h
    simp only [holding_cons, holds_startRelease, Option.getD_none, ids_nil, ← h]
    exact ⟨by abel, le_rfl⟩
  | push hB =>
    rw [hB] at h
    simp only [pushFree, ids_append, ids_cons, ids_nil, holding_add, holding_afterRelease,
      holding_cons, Op.holds, ← h]
    exact ⟨by abel, le_rfl⟩
  | close hB =>
    rw [hB] at h
    rw [closed_closeConn]
    simp only [closeConn, holding_cons, Op.holds] at h ⊢
    exact ⟨by rw [← h]; abel, Multiset.le_add_left _ _⟩
  | countDown hB =>
    rw [hB] at h
    simp only [holding_cons, Op.holds] at h
    simp only [SingleDBPool.countDown, holding_add, holding_afterRelease]
    exact ⟨h, le_rfl⟩
  | check => exact ⟨by simpa [Op.holds] using h, le_rfl⟩
  | evict hB =>
    rename_i curTime B
    rw [hB] at h
    simp only [evictIdle, holding_cons, Op.holds, ← h,
      ← popIdle_ids opt curTime s.pool.freeQueue]
    exact ⟨by abel, le_rfl⟩
  | closeIdle hB =>
    rw [hB] at h
    rw [closed_closeConn]
    simp only [closeConn, holding_cons, Op.holds, ids_cons] at h ⊢
    exact ⟨by rw [← h]; abel, Multiset.le_add_left _ _⟩
  | closed hB =>
    rw [hB] at h
    exact ⟨by simpa [Op.holds] using h, le_rfl⟩
  | take hB =>
    rename_i curTime B
    rw [hB] at h
    simp only [takeExpired, holding_cons, Op.holds, ← h,
      ← takeWhile_ids (expired opt curTime) s.pool.freeQueue]
    exact ⟨by abel, le_rfl⟩
  | validate hB =>
    rw [hB] at h
    simp only [holding_cons, holds_startRelease, Option.getD_some]
    exact ⟨by simpa only [holding_cons, Op.holds, ids_cons] using h, le_rfl⟩
  | checked hB =>
    rw [hB] at h
    exact ⟨by simpa [Op.holds] using h, le_rfl⟩

/-! ## Every run -/

/-- **Nothing is lost and nothing is shared.** -/
theorem places_reach (h : (lts opt).Reach s) : places s = Multiset.range s.pool.opened := by
  refine LTS.Reach.invariant (I := fun s => places s = Multiset.range s.pool.opened) ?_
    (fun _ _ _ hi ha => (places_step hi ha).1) h
  intro s hs
  rw [hs]
  rfl

theorem closed_run (h : (lts opt).Reach s) (hr : (lts opt).Run s s') : closed s ≤ closed s' := by
  refine LTS.Run.invariant (I := fun t => closed s ≤ closed t) le_rfl ?_ hr
  intro t a u hrt hle ha
  exact hle.trans (places_step (places_reach (h.run hrt)) ha).2

/-- The places of one object add up to one. -/
theorem count_places (h : (lts opt).Reach s) {id : Nat} (hid : id < s.pool.opened) :
    (queued s).count id + (held s).count id + (working s).count id + (closed s).count id = 1 := by
  have hcount : (places s).count id = 1 := by
    rw [places_reach h]
    exact Multiset.count_eq_one_of_mem (Multiset.nodup_range _) (Multiset.mem_range.mpr hid)
  simpa only [places, Multiset.count_add] using hcount

/-- **Exclusivity.** Every object that was made is in exactly one place; one that is closed is
closed for good, and neither queued nor held. -/
theorem exactly_one_place (h : (lts opt).Reach s) :
    (∀ id, id < s.pool.opened →
      (queued s).count id + (held s).count id + (working s).count id + (closed s).count id = 1) ∧
    (∀ s', (lts opt).Run s s' → ∀ id ∈ closed s,
      id ∈ closed s' ∧ id ∉ queued s' ∧ id ∉ held s' ∧ id ∉ working s') := by
  refine ⟨fun id hid => count_places h hid, ?_⟩
  intro s' hr id hid
  have h' := h.run hr
  have hclosed : id ∈ closed s' := Multiset.mem_of_le (closed_run h hr) hid
  have hmade : id < s'.pool.opened := by
    have hin : id ∈ places s' := Multiset.mem_add.mpr (.inr hclosed)
    rwa [places_reach h', Multiset.mem_range] at hin
  have hcount := count_places h' hmade
  have hpos := Multiset.count_pos.mpr hclosed
  refine ⟨hclosed, ?_, ?_, ?_⟩
  · exact Multiset.count_eq_zero.mp (by omega)
  · exact Multiset.count_eq_zero.mp (by omega)
  · exact Multiset.count_eq_zero.mp (by omega)

theorem exactly_one_place_sample :
    (lts sampleOptions).Reach sampleOut ∧ sampleOut.held = {0} ∧
      (queued sampleOut).count 0 + (held sampleOut).count 0 + (working sampleOut).count 0 +
        (closed sampleOut).count 0 = 1 := by
  have hreach := (sampleOut_reach (fun _ _ => True) trivial (fun _ => trivial)
    (fun _ _ => trivial)).2.of_restrict
  exact ⟨hreach, rfl, (exactly_one_place hreach).1 0 (by decide)⟩

end Sys

end DevTools.Pool
